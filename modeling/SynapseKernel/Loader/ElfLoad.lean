import SynapseKernel.Loader.Elf

/-! # Loads of whole files (kernel/loader/elf.c)

`elf_load` reads one program header after the other and loads its segment. What a load
does to heap and directory is said in terms of the headers that the reader gives
(`elfLoad_cases`). Where no segment leaves its block (`LoadContained`), a load that fails
leaves the segments before the failure where they are (`elfLoad_atomic_iff`), and a load
that succeeds may put two segments into one slot of the directory or a segment behind its
end (`elfLoad_reachable_iff`). -/
namespace SynapseKernel.Loader
open SynapseKernel.Word SynapseKernel.Kheap SynapseKernel.Blocks SynapseKernel.Search
open SynapseKernel.Str SynapseKernel.Fs

/-- The header of the file, if all of it is read and it is a valid one. -/
def elfHeader (readers : ReadCall → FileReader) (inode : Nat) : Option Elf32Ehdr :=
  let reader := readers .header
  if ofInt (reader.result inode ehdrSize 0) ≠ ehdrSize then none
  else
    let ehdr := decodeEhdr (reader.bytes inode ehdrSize 0)
    if elfValidateHeader ehdr < 0 then none else some ehdr

/-- A program header, if all of it is read. -/
def programHeader (readers : ReadCall → FileReader) (inode : Nat) (ehdr : Elf32Ehdr) (i : Nat) :
    Option Elf32Phdr :=
  let reader := readers (.programHeader i)
  -- product and sum are words
  let phdrOffset := u32 (ehdr.ePhoff + i * ehdr.ePhentsize)
  if ofInt (reader.result inode phdrSize phdrOffset) ≠ phdrSize then none
  else some (decodePhdr (reader.bytes inode phdrSize phdrOffset))

/-- A round of the loop; `error` is the jump to `cleanup`. -/
def loadNext (readers : ReadCall → FileReader) (inode : Nat) (ehdr : Elf32Ehdr) (s : LoadState)
    (i : Nat) : Except LoadState LoadState :=
  match programHeader readers inode ehdr i with
  | none => .error s
  | some phdr =>
    let loaded := elfLoadSegment (readers (.segment i)) s phdr inode
    if loaded.1 < 0 then .error loaded.2 else .ok loaded.2

/-- What is returned, the entry point if it is stored, and the state. -/
def elfLoad (readers : ReadCall → FileReader) (s : LoadState) (path : CString) :
    Int × Option Nat × LoadState :=
  let opened := vfsOpen s.toVfs path 0
  if opened.1 < 0 then (-1, none, s)
  else
    let inode := opened.2.getD 0
    match elfHeader readers inode with
    | none => (-1, none, s)
    | some ehdr =>
      match (List.range ehdr.ePhnum).foldlM (loadNext readers inode ehdr) s with
      | .error s => (-1, none, s)
      | .ok s => (0, some ehdr.eEntry, s)

/-! ## The segments of a file -/

instance (phdr : Elf32Phdr) : Decidable phdr.IsLoaded :=
  inferInstanceAs (Decidable (phdr.pType = ptLoad ∧ phdr.pMemsz ≠ 0))

/-- The segment of a program header, if it gets a block. -/
def segment (readers : ReadCall → FileReader) (inode : Nat) (ehdr : Elf32Ehdr) (i : Nat) :
    Option Elf32Phdr :=
  (programHeader readers inode ehdr i).filter fun phdr => phdr.IsLoaded

def segmentsBefore (readers : ReadCall → FileReader) (inode : Nat) (ehdr : Elf32Ehdr) (i : Nat) :
    List Elf32Phdr :=
  (List.range i).filterMap (segment readers inode ehdr)

/-- The image of a segment: the bytes that were read of the file, and zeros behind
those that the file has. -/
def HoldsImage (contents : Nat → UInt8) (reader : FileReader) (phdr : Elf32Phdr)
    (inode : Nat) : Prop :=
  ∀ k < phdr.pMemsz,
    (∀ h : k < (fileBytes reader phdr inode).length,
      contents k = (fileBytes reader phdr inode)[k]) ∧
    (phdr.pFilesz ≤ k → contents k = 0)

theorem length_fileBytes_le (reader : FileReader) (phdr : Elf32Phdr) (inode : Nat) :
    (fileBytes reader phdr inode).length ≤ phdr.pFilesz := by
  rw [fileBytes]
  split
  · rw [reader.length_bytes]
    have hle := reader.result_le inode phdr.pFilesz phdr.pOffset
    omega
  · exact Nat.zero_le _

theorem holdsImage_loadedBytes (f : Nat → UInt8) (reader : FileReader) (phdr : Elf32Phdr)
    (inode : Nat) : HoldsImage (loadedBytes f reader phdr inode) reader phdr inode := by
  have hlen := length_fileBytes_le reader phdr inode
  intro k hlt
  constructor
  · intro hk
    rw [loadedBytes, overwrite_below (Nat.lt_of_lt_of_le hk hlen)]
    have hin := @overwrite_inside _ f _ 0 k hk
    rwa [Nat.zero_add] at hin
  · intro hle
    have hk : k - phdr.pFilesz <
        (List.replicate (phdr.pMemsz - phdr.pFilesz) (0 : UInt8)).length := by
      rw [List.length_replicate]
      omega
    have hin := @overwrite_inside _ (overwrite f 0 (fileBytes reader phdr inode)) _
      phdr.pFilesz _ hk
    rwa [Nat.add_sub_cancel' hle, List.getElem_replicate] at hin

section Load
variable (readers : ReadCall → FileReader) (s : LoadState) (ehdr : Elf32Ehdr)

/-- The number of blocks that the segments before a program header get. -/
def blocksBefore (i : Nat) : Nat := (segmentsBefore readers s.rootInode ehdr i).length

/-- The block that the segment of a program header gets. -/
def segmentBlock (i : Nat) : Nat := s.heap.requests + blocksBefore readers s ehdr i + 1

/-- The load stops at this program header: it is not read, or its segment is refused
memory or comes short. -/
def HeaderFails (i : Nat) : Prop :=
  match programHeader readers s.rootInode ehdr i with
  | none => True
  | some phdr => phdr.IsLoaded ∧
      (s.heap.grants (s.heap.requests + blocksBefore readers s ehdr i) = false ∨
        ¬ ReadsAll (readers (.segment i)) phdr s.rootInode)

/-- A store to the block that the segment of a program header got, of no more than it
has in memory or of what was read of it. -/
def StoredTo (i : Nat) (w : Store) : Prop :=
  ∃ phdr, segment readers s.rootInode ehdr i = some phdr ∧
    s.heap.grants (s.heap.requests + blocksBefore readers s ehdr i) = true ∧
    w.block = segmentBlock readers s ehdr i ∧
    w.offset + w.length ≤
      max phdr.pMemsz (fileBytes (readers (.segment i)) phdr s.rootInode).length

/-- What was stored since `s` was stored to the blocks of the first `n` segments. -/
def StoresOf (n : Nat) (s' : LoadState) : Prop :=
  ∃ new, s'.stores = new ++ s.stores ∧ ∀ w ∈ new, ∃ i < n, StoredTo readers s ehdr i w

/-- The slots of the directory after `n` program headers. -/
def installed : Nat → Nat → Nat
  | 0 => s.tables
  | n + 1 =>
    match segment readers s.rootInode ehdr n with
    | none => installed n
    | some phdr => Function.update (installed n) phdr.slot (segmentBlock readers s ehdr n)

/-- The state after `n` program headers. -/
structure LoadedTo (n : Nat) (mid : LoadState) : Prop where
  vfs : mid.toVfs = { s.toVfs with heap := s.heap.after (blocksBefore readers s ehdr n) }
  tables : mid.tables = installed readers s ehdr n
  granted : s.heap.GrantsNext (blocksBefore readers s ehdr n)
  images : ∀ i < n, ∀ phdr, segment readers s.rootInode ehdr i = some phdr →
    HoldsImage (mid.bytes (segmentBlock readers s ehdr i)) (readers (.segment i)) phdr s.rootInode
  stores : StoresOf readers s ehdr n mid

/-- A failed load leaves what the program headers before the failure did. -/
def FailedAt (i : Nat) (s' : LoadState) : Prop :=
  StoresOf readers s ehdr (i + 1) s' ∧ ∃ mid, LoadedTo readers s ehdr i mid ∧
    s'.tables = mid.tables ∧ ∀ block, s'.heap.Live block ↔ mid.heap.Live block

variable {readers s ehdr} {i n : Nat} {mid : LoadState} {phdr : Elf32Phdr}

theorem blocksBefore_succ_none (h : segment readers s.rootInode ehdr i = none) :
    blocksBefore readers s ehdr (i + 1) = blocksBefore readers s ehdr i := by
  rw [blocksBefore, segmentsBefore, List.range_succ, List.filterMap_append, blocksBefore,
    segmentsBefore, List.filterMap_cons_none h, List.filterMap_nil, List.append_nil]

theorem blocksBefore_succ_some (h : segment readers s.rootInode ehdr i = some phdr) :
    blocksBefore readers s ehdr (i + 1) = blocksBefore readers s ehdr i + 1 := by
  rw [blocksBefore, segmentsBefore, List.range_succ, List.filterMap_append, blocksBefore,
    segmentsBefore, List.filterMap_cons_some h, List.filterMap_nil, List.length_append,
    List.length_singleton]

theorem blocksBefore_le_succ (i : Nat) :
    blocksBefore readers s ehdr i ≤ blocksBefore readers s ehdr (i + 1) := by
  cases h : segment readers s.rootInode ehdr i with
  | none => exact Nat.le_of_eq (blocksBefore_succ_none h).symm
  | some phdr => exact Nat.le_of_succ_le (Nat.le_of_eq (blocksBefore_succ_some h).symm)

theorem blocksBefore_mono {j : Nat} (h : i ≤ j) :
    blocksBefore readers s ehdr i ≤ blocksBefore readers s ehdr j := by
  induction h with
  | refl => exact Nat.le_refl _
  | step _ ih => exact Nat.le_trans ih (blocksBefore_le_succ _)

/-- Different segments get different blocks. -/
theorem segmentBlock_lt {j : Nat} (h : segment readers s.rootInode ehdr i = some phdr)
    (hij : i < j) :
    segmentBlock readers s ehdr i < segmentBlock readers s ehdr j := by
  have hsucc := blocksBefore_succ_some h
  have hle : blocksBefore readers s ehdr (i + 1) ≤ _ := blocksBefore_mono hij
  rw [segmentBlock, segmentBlock]
  omega

theorem segment_of_loaded (hp : programHeader readers s.rootInode ehdr i = some phdr)
    (hl : phdr.IsLoaded) : segment readers s.rootInode ehdr i = some phdr := by
  rw [segment, hp, Option.filter_some, if_pos (decide_eq_true hl)]

theorem isLoaded_of_segment (h : segment readers s.rootInode ehdr i = some phdr) :
    phdr.IsLoaded := by
  rw [segment, Option.filter_eq_some_iff] at h
  exact of_decide_eq_true h.2

theorem segment_of_not_loaded (hp : programHeader readers s.rootInode ehdr i = some phdr)
    (hl : ¬ phdr.IsLoaded) : segment readers s.rootInode ehdr i = none := by
  rw [segment, hp, Option.filter_some, if_neg (mt of_decide_eq_true hl)]

theorem loadedTo_zero : LoadedTo readers s ehdr 0 s :=
  ⟨rfl, rfl, BlockHeap.grantsNext_zero _, fun i hi => absurd hi (Nat.not_lt_zero i),
    [], rfl, fun _ hw => absurd hw List.not_mem_nil⟩

/-- More stores, to the block of the next segment. -/
theorem StoresOf.append {s' : LoadState} {new : List Store} (h : StoresOf readers s ehdr i mid)
    (hs : s'.stores = new ++ mid.stores) (hnew : ∀ w ∈ new, StoredTo readers s ehdr i w) :
    StoresOf readers s ehdr (i + 1) s' := by
  obtain ⟨old, hold, hw⟩ := h
  refine ⟨new ++ old, by rw [hs, hold, List.append_assoc], fun w hm => ?_⟩
  rcases List.mem_append.mp hm with hm | hm
  · exact ⟨i, Nat.lt_succ_self i, hnew w hm⟩
  · obtain ⟨j, hj, hstored⟩ := hw w hm
    exact ⟨j, Nat.lt_succ_of_lt hj, hstored⟩

theorem StoresOf.same {s' : LoadState} (h : StoresOf readers s ehdr i mid)
    (hs : s'.stores = mid.stores) : StoresOf readers s ehdr (i + 1) s' :=
  @StoresOf.append _ _ _ _ _ _ [] h hs fun _ hw => absurd hw List.not_mem_nil

/-- The heap gives the next segment the block that comes next. -/
theorem LoadedTo.heap (h : LoadedTo readers s ehdr i mid) :
    mid.heap = s.heap.after (blocksBefore readers s ehdr i) ∧
      mid.heap.grants mid.heap.requests =
        s.heap.grants (s.heap.requests + blocksBefore readers s ehdr i) ∧
      mid.heap.requests + 1 = segmentBlock readers s ehdr i := by
  have hheap : mid.heap = s.heap.after (blocksBefore readers s ehdr i) := congrArg Vfs.heap h.vfs
  rw [hheap]
  exact ⟨rfl, rfl, rfl⟩

theorem loadNext_ok {s' : LoadState} (hp : programHeader readers s.rootInode ehdr i = some phdr)
    (he : elfLoadSegment (readers (.segment i)) mid phdr s.rootInode = (0, s')) :
    loadNext readers s.rootInode ehdr mid i = .ok s' := by
  simp only [loadNext, hp, he]
  rfl

theorem loadNext_error {s' : LoadState}
    (hp : programHeader readers s.rootInode ehdr i = some phdr)
    (he : elfLoadSegment (readers (.segment i)) mid phdr s.rootInode = (-1, s')) :
    loadNext readers s.rootInode ehdr mid i = .error s' := by
  simp only [loadNext, hp, he]
  rfl

/-- What is stored for a segment. -/
theorem LoadedTo.storedTo {w : Store} (h : LoadedTo readers s ehdr i mid)
    (hseg : segment readers s.rootInode ehdr i = some phdr)
    (hyes : mid.heap.grants mid.heap.requests = true)
    (hw : w ∈ clearStores mid phdr ++ readStores (readers (.segment i)) mid phdr s.rootInode) :
    StoredTo readers s ehdr i w := by
  obtain ⟨-, hgrants, hblock⟩ := h.heap
  refine ⟨phdr, hseg, hgrants.symm.trans hyes, ?_⟩
  rw [← hblock]
  rcases List.mem_append.mp hw with hw | hw
  · rw [clearStores] at hw
    split at hw
    · obtain rfl := List.mem_singleton.mp hw
      exact ⟨rfl, by simp only; omega⟩
    · exact absurd hw List.not_mem_nil
  · rw [readStores] at hw
    split at hw
    · obtain rfl := List.mem_singleton.mp hw
      exact ⟨rfl, by simp only; omega⟩
    · exact absurd hw List.not_mem_nil

/-- A program header without a segment changes nothing. -/
theorem LoadedTo.skip (h : LoadedTo readers s ehdr i mid)
    (hseg : segment readers s.rootInode ehdr i = none) : LoadedTo readers s ehdr (i + 1) mid := by
  refine ⟨?_, ?_, ?_, fun j hj q hq => ?_, h.stores.same rfl⟩
  · rw [blocksBefore_succ_none hseg]
    exact h.vfs
  · simp only [installed, hseg]
    exact h.tables
  · rw [blocksBefore_succ_none hseg]
    exact h.granted
  · rcases Nat.lt_succ_iff_lt_or_eq.mp hj with hj | rfl
    · exact h.images j hj q hq
    · exact absurd (hseg.symm.trans hq) (Option.some_ne_none q).symm

/-- One with a segment that is loaded adds its block, its slot and its image. -/
theorem LoadedTo.load (h : LoadedTo readers s ehdr i mid)
    (hseg : segment readers s.rootInode ehdr i = some phdr)
    (hyes : mid.heap.grants mid.heap.requests = true) :
    LoadedTo readers s ehdr (i + 1) (afterLoad (readers (.segment i)) mid phdr s.rootInode) := by
  obtain ⟨hheap, hgrants, hblock⟩ := h.heap
  obtain ⟨hvfs, htables⟩ := afterLoad_frame (readers (.segment i)) mid phdr s.rootInode
  refine ⟨?_, ?_, ?_, fun j hj q hq => ?_, h.stores.append (afterLoad_stores _ _ _ _)
    fun w hw => h.storedTo hseg hyes hw⟩
  · rw [blocksBefore_succ_some hseg, hvfs, hheap, h.vfs,
      BlockHeap.kmalloc_after _ (isLoaded_of_segment hseg).2]
  · rw [htables, h.tables, hblock]
    simp only [installed, hseg]
  · rw [blocksBefore_succ_some hseg]
    exact h.granted.succ (hgrants.symm.trans hyes)
  · rw [afterLoad_bytes, hblock]
    rcases Nat.lt_succ_iff_lt_or_eq.mp hj with hj | rfl
    · rw [Function.update_of_ne (Nat.ne_of_lt (segmentBlock_lt hq hj))]
      exact h.images j hj q hq
    · obtain rfl := Option.some.inj (hseg.symm.trans hq)
      rw [Function.update_self]
      exact holdsImage_loadedBytes _ _ _ _

/-- **A program header at which the load goes on.** -/
theorem LoadedTo.next (h : LoadedTo readers s ehdr i mid) (hok : ¬ HeaderFails readers s ehdr i) :
    ∃ mid', loadNext readers s.rootInode ehdr mid i = .ok mid' ∧
      LoadedTo readers s ehdr (i + 1) mid' := by
  obtain ⟨-, hgrants, -⟩ := h.heap
  rw [HeaderFails] at hok
  cases hp : programHeader readers s.rootInode ehdr i with
  | none =>
    rw [hp] at hok
    exact absurd trivial hok
  | some phdr =>
    simp only [hp] at hok
    rcases elfLoadSegment_cases (readers (.segment i)) mid phdr s.rootInode with
      ⟨hno, he⟩ | ⟨hl, hrefused, he⟩ | ⟨hl, hyes, hshort, he⟩ | ⟨hl, hyes, hall, he⟩
    · exact ⟨mid, loadNext_ok hp he, h.skip (segment_of_not_loaded hp hno)⟩
    · exact absurd ⟨hl, .inl (hgrants.symm.trans hrefused)⟩ hok
    · exact absurd ⟨hl, .inr hshort⟩ hok
    · exact ⟨_, loadNext_ok hp he, h.load (segment_of_loaded hp hl) hyes⟩

/-- **A program header at which it stops.** -/
theorem LoadedTo.fails (h : LoadedTo readers s ehdr i mid) (hf : HeaderFails readers s ehdr i) :
    ∃ s', loadNext readers s.rootInode ehdr mid i = .error s' ∧ FailedAt readers s ehdr i s' := by
  obtain ⟨-, hgrants, -⟩ := h.heap
  rw [HeaderFails] at hf
  cases hp : programHeader readers s.rootInode ehdr i with
  | none =>
    refine ⟨mid, ?_, h.stores.same rfl, mid, h, rfl, fun _ => Iff.rfl⟩
    simp only [loadNext, hp]
  | some phdr =>
    simp only [hp] at hf
    rcases elfLoadSegment_cases (readers (.segment i)) mid phdr s.rootInode with
      ⟨hno, he⟩ | ⟨hl, hrefused, he⟩ | ⟨hl, hyes, hshort, he⟩ | ⟨hl, hyes, hall, he⟩
    · exact absurd hf.1 hno
    · refine ⟨_, loadNext_error hp he, h.stores.same rfl, mid, h, rfl, fun block => ?_⟩
      exact @BlockHeap.live_kmalloc_refused _ _ phdr.pMemsz hrefused
    · obtain ⟨hfreed, htables⟩ := afterShort_frame (readers (.segment i)) mid phdr s.rootInode
      have hstores := h.stores.append (afterShort_stores (readers (.segment i)) mid phdr s.rootInode)
        fun w hw => h.storedTo (segment_of_loaded hp hl) hyes (List.mem_append_right _ hw)
      refine ⟨_, loadNext_error hp he, hstores, mid, h, htables, fun block => ?_⟩
      rw [hfreed]
      exact BlockHeap.live_kmalloc_kfree
    · rcases hf.2 with hno | hshort
      · rw [← hgrants, hyes] at hno
        cases hno
      · exact absurd hall hshort

/-- Everything `elf_load` can do. -/
theorem elfLoad_cases (readers : ReadCall → FileReader) (s : LoadState) (path : CString) :
    (elfHeader readers s.rootInode = none ∧ elfLoad readers s path = (-1, none, s)) ∨
    ∃ ehdr, elfHeader readers s.rootInode = some ehdr ∧
      (((∀ i < ehdr.ePhnum, ¬ HeaderFails readers s ehdr i) ∧
        ∃ s', elfLoad readers s path = (0, some ehdr.eEntry, s') ∧
          LoadedTo readers s ehdr ehdr.ePhnum s') ∨
      ∃ i < ehdr.ePhnum, HeaderFails readers s ehdr i ∧ (∀ j < i, ¬ HeaderFails readers s ehdr j) ∧
        ∃ s', elfLoad readers s path = (-1, none, s') ∧ FailedAt readers s ehdr i s') := by
  have hopen : ¬ (vfsOpen s.toVfs path 0).1 < 0 := Int.lt_irrefl 0
  have hinode : (vfsOpen s.toVfs path 0).2.getD 0 = s.rootInode := rfl
  cases hhead : elfHeader readers s.rootInode with
  | none =>
    refine .inl ⟨rfl, ?_⟩
    simp only [elfLoad, if_neg hopen, hinode, hhead]
  | some ehdr =>
    refine .inr ⟨ehdr, rfl, ?_⟩
    rcases foldlM_range_cases (@loadedTo_zero readers s ehdr) (fun i mid h => h.next)
        (fun i mid h => h.fails) ehdr.ePhnum with
      ⟨hno, s', hs', hloaded⟩ | ⟨i, hi, hf, hno, s', hs', hfailed⟩
    · refine .inl ⟨hno, s', ?_, hloaded⟩
      simp only [elfLoad, if_neg hopen, hinode, hhead, hs']
    · refine .inr ⟨i, hi, hf, hno, s', ?_, hfailed⟩
      simp only [elfLoad, if_neg hopen, hinode, hhead, hs']

/-- With the stub of vfs.c no file is loaded, and nothing changes. -/
theorem elfLoad_vfsRead (s : LoadState) (path : CString) :
    elfLoad (fun _ => vfsRead) s path = (-1, none, s) := by
  have hhead : elfHeader (fun _ => vfsRead) s.rootInode = none := rfl
  rcases elfLoad_cases (fun _ => vfsRead) s path with ⟨-, he⟩ | ⟨ehdr, hsome, -⟩
  · exact he
  · rw [hhead] at hsome
    cases hsome

theorem installed_none (h : ∀ j < n, segment readers s.rootInode ehdr j = none) :
    installed readers s ehdr n = s.tables := by
  induction n with
  | zero => rfl
  | succ n ih =>
    simp only [installed, h n (Nat.lt_succ_self n)]
    exact ih fun j hj => h j (Nat.lt_succ_of_lt hj)

theorem blocksBefore_eq_zero :
    blocksBefore readers s ehdr n = 0 ↔ ∀ j < n, segment readers s.rootInode ehdr j = none := by
  rw [blocksBefore, List.length_eq_zero_iff, segmentsBefore, List.filterMap_eq_nil_iff]
  simp only [List.mem_range]

end Load

/-! ## Loads that fail -/

/-- What was stored since `s` is inside of blocks that segments of the file got. -/
def StoresOwned (readers : ReadCall → FileReader) (s : LoadState) (s' : LoadState) : Prop :=
  ∃ new, s'.stores = new ++ s.stores ∧ ∀ w ∈ new, ∃ ehdr i phdr,
    segment readers s.rootInode ehdr i = some phdr ∧ w.block = segmentBlock readers s ehdr i ∧
      w.offset + w.length ≤ usable phdr.pMemsz

/-- Every segment that is given a block on the way has its size there and no more bytes
are read for it. -/
def LoadContained (readers : ReadCall → FileReader) (s : LoadState) : Prop :=
  ∀ ehdr, elfHeader readers s.rootInode = some ehdr → ∀ i < ehdr.ePhnum,
    (∀ j < i, ¬ HeaderFails readers s ehdr j) → ∀ phdr,
      segment readers s.rootInode ehdr i = some phdr →
      s.heap.grants (s.heap.requests + blocksBefore readers s ehdr i) = true →
        phdr.pMemsz ≤ maxSize ∧
          (fileBytes (readers (.segment i)) phdr s.rootInode).length ≤ phdr.pMemsz

theorem LoadContained.owned {readers : ReadCall → FileReader} {s s' : LoadState} {ehdr : Elf32Ehdr}
    {n : Nat} (hc : LoadContained readers s) (hhead : elfHeader readers s.rootInode = some ehdr)
    (hn : n ≤ ehdr.ePhnum) (hno : ∀ i < n, ∀ j < i, ¬ HeaderFails readers s ehdr j)
    (h : StoresOf readers s ehdr n s') : StoresOwned readers s s' := by
  obtain ⟨new, hnew, hw⟩ := h
  refine ⟨new, hnew, fun w hm => ?_⟩
  obtain ⟨i, hi, phdr, hseg, hyes, hblock, hle⟩ := hw w hm
  obtain ⟨hsize, hbytes⟩ := hc ehdr hhead i (Nat.lt_of_lt_of_le hi hn) (hno i hi) phdr hseg hyes
  refine ⟨ehdr, i, phdr, hseg, hblock, ?_⟩
  rwa [usable, if_pos hsize, ← Nat.max_eq_left hbytes]

/-- A load that returns `-1` leaves the slots and the live blocks as they were, and
stored to blocks of its own only. -/
def LoadAtomic (readers : ReadCall → FileReader) (s : LoadState) (path : CString) : Prop :=
  let r := elfLoad readers s path
  r.1 = -1 → r.2.2.tables = s.tables ∧ (∀ block, r.2.2.heap.Live block ↔ s.heap.Live block) ∧
    StoresOwned readers s r.2.2

/-- Before the first program header at which the load stops there is no segment. -/
def StopsFirst (readers : ReadCall → FileReader) (s : LoadState) : Prop :=
  ∀ ehdr, elfHeader readers s.rootInode = some ehdr → ∀ i < ehdr.ePhnum,
    HeaderFails readers s ehdr i → (∀ j < i, ¬ HeaderFails readers s ehdr j) →
      ∀ j < i, segment readers s.rootInode ehdr j = none

/-- **A load that fails is undone** exactly if it fails before the first segment that
gets a block: the blocks and slots of those before the failure stay. -/
theorem elfLoad_atomic_iff (readers : ReadCall → FileReader) (s : LoadState) (path : CString)
    (hs : s.heap.Sane) (hc : LoadContained readers s) :
    LoadAtomic readers s path ↔ StopsFirst readers s := by
  rw [LoadAtomic]
  rcases elfLoad_cases readers s path with ⟨hhead, he⟩ | ⟨ehdr, hhead, ⟨hno, s', he, hl⟩ |
    ⟨i, hi, hf, hno, s', he, hstores, mid, hl, ht, hlive⟩⟩
  · rw [he]
    refine iff_of_true (fun _ => ⟨rfl, fun _ => Iff.rfl, [], rfl, fun _ hw => ?_⟩) fun ehdr h => ?_
    · exact absurd hw List.not_mem_nil
    · rw [hhead] at h
      cases h
  · rw [he]
    refine iff_of_true (fun h => ?_) fun ehdr' h i hi hf => ?_
    · exact absurd (show (0 : Int) = -1 from h) (by decide)
    · rw [hhead] at h
      cases h
      exact absurd hf (hno i hi)
  · rw [he]
    obtain ⟨hheap, -, -⟩ := hl.heap
    have howned := hc.owned hhead hi
      (fun k hk j hj => hno j (Nat.lt_of_lt_of_le hj (Nat.le_of_lt_succ hk))) hstores
    simp only [true_implies, ht, hl.tables, hlive, hheap, BlockHeap.live_after hs hl.granted,
      howned, and_true]
    constructor
    · intro ⟨_, hsame⟩ ehdr' h k hk hkf hkno
      rw [hhead] at h
      cases h
      -- the first failure is at `i`
      have hki : k = i := Nat.le_antisymm (Nat.le_of_not_lt fun hlt => hkno i hlt hf)
        (Nat.le_of_not_lt fun hlt => hno k hlt hkf)
      rw [hki]
      refine blocksBefore_eq_zero.mp ?_
      by_contra hpos
      have hnew := (hsame (s.heap.requests + 1)).mp (.inr ⟨Nat.lt_succ_self _, by omega⟩)
      exact absurd hnew.le (Nat.not_succ_le_self _)
    · intro hfirst
      have hnone := hfirst ehdr hhead i hi hf hno
      refine ⟨installed_none hnone, fun block => or_iff_left ?_⟩
      rw [blocksBefore_eq_zero.mpr hnone]
      omega

/-- A reader of a file that does not change. -/
def fileReader (file : List UInt8) (h : file.length < 2 ^ 31) : FileReader where
  result := fun _ count offset => ((file.drop offset).take count).length
  bytes := fun _ count offset => (file.drop offset).take count
  length_bytes := fun _ _ _ => (Int.toNat_natCast _).symm
  result_le := fun _ _ _ => Int.ofNat_le.mpr (List.length_take_le _ _)
  result_ssize := fun _ count offset => by
    have hle := List.length_take_le' count (file.drop offset)
    rw [List.length_drop] at hle
    omega

def leBytes : Nat → Nat → List UInt8
  | 0, _ => []
  | width + 1, n => UInt8.ofNat n :: leBytes width (n / 256)

/-- A file header with the program headers right behind it. -/
def ehdrBytes (phnum : Nat) : List UInt8 :=
  elfIdent ++ List.replicate 10 0 ++ leBytes 2 etExec ++ leBytes 2 3 ++ leBytes 4 1 ++
    leBytes 4 0x8048000 ++ leBytes 4 ehdrSize ++ leBytes 4 0 ++ leBytes 4 0 ++
    leBytes 2 ehdrSize ++ leBytes 2 phdrSize ++ leBytes 2 phnum ++ List.replicate 6 0

/-- A segment of zeros, with `p_flags` of `7` and no alignment. -/
def zerosBytes (vaddr memsz : Nat) : List UInt8 :=
  leBytes 4 ptLoad ++ leBytes 4 0 ++ leBytes 4 vaddr ++ leBytes 4 vaddr ++ leBytes 4 0 ++
    leBytes 4 memsz ++ leBytes 4 7 ++ leBytes 4 1

/-- A file that ends behind the first of its two program headers. -/
def cutFile : List UInt8 := ehdrBytes 2 ++ zerosBytes 0x8048000 16

def cutReaders (_ : ReadCall) : FileReader := fileReader cutFile (by decide)

theorem loadContained_cut : LoadContained cutReaders emptyState := by
  have hhead : elfHeader cutReaders emptyState.rootInode = some (decodeEhdr (ehdrBytes 2)) := rfl
  intro ehdr h i hi _ phdr hseg _
  obtain rfl := Option.some.inj (hhead.symm.trans h)
  have hi' : i < 2 := hi
  rcases (show i = 0 ∨ i = 1 by omega) with rfl | rfl
  · obtain rfl := Option.some.inj ((rfl : segment cutReaders _ _ 0 =
      some ⟨ptLoad, 0, 0x8048000, 0, 16⟩).symm.trans hseg)
    decide
  · exact absurd ((rfl : segment cutReaders _ _ 1 = none).symm.trans hseg) (by simp)

/-- The load fails with the first segment in its slot. -/
theorem cut_load_stays : ¬ LoadAtomic cutReaders emptyState slashPath := by
  intro h
  obtain ⟨htables, -⟩ := h (by decide)
  exact absurd (congrFun htables 128) (by decide)

theorem elfLoad_atomic_iff_cut :
    LoadAtomic cutReaders emptyState slashPath ↔ StopsFirst cutReaders emptyState :=
  elfLoad_atomic_iff cutReaders emptyState slashPath (fun _ hp => absurd hp List.not_mem_nil)
    loadContained_cut

/-! ## Slots of the directory -/

abbrev pageDirEntries : Nat := 1024

/-- The slot of every segment is one of the directory, and designates its block, in which
its image is; nothing was stored to anything but those blocks. -/
def SegmentsReachable (readers : ReadCall → FileReader) (s : LoadState) (path : CString) : Prop :=
  let s' := (elfLoad readers s path).2.2
  StoresOwned readers s s' ∧ ∀ ehdr, elfHeader readers s.rootInode = some ehdr → ∀ i < ehdr.ePhnum, ∀ phdr,
    segment readers s.rootInode ehdr i = some phdr →
      phdr.slot < pageDirEntries ∧ s'.tables phdr.slot = segmentBlock readers s ehdr i ∧
        s'.heap.Live (s'.tables phdr.slot) ∧
        HoldsImage (s'.bytes (s'.tables phdr.slot)) (readers (.segment i)) phdr s.rootInode

/-- No segment begins at 1 GiB or above, and no two in one MiB. -/
def SlotsApart (readers : ReadCall → FileReader) (s : LoadState) : Prop :=
  ∀ ehdr, elfHeader readers s.rootInode = some ehdr →
    (∀ i < ehdr.ePhnum, ∀ phdr, segment readers s.rootInode ehdr i = some phdr →
      phdr.pVaddr < 2 ^ 30) ∧
    ∀ j < ehdr.ePhnum, ∀ i < j, ∀ p q, segment readers s.rootInode ehdr i = some p →
      segment readers s.rootInode ehdr j = some q → p.pVaddr / 2 ^ 20 ≠ q.pVaddr / 2 ^ 20

theorem slot_lt_iff (phdr : Elf32Phdr) : phdr.slot < pageDirEntries ↔ phdr.pVaddr < 2 ^ 30 := by
  rw [Elf32Phdr.slot, Nat.div_lt_iff_lt_mul (by decide)]
  exact Iff.rfl

section Slots
variable {readers : ReadCall → FileReader} {s : LoadState} {ehdr : Elf32Ehdr} {i n : Nat}
  {phdr : Elf32Phdr}

/-- The last segment of a slot has it. -/
theorem installed_last (hp : segment readers s.rootInode ehdr i = some phdr) (hi : i < n)
    (hlast : ∀ j, i < j → j < n → ∀ q, segment readers s.rootInode ehdr j = some q →
      phdr.slot ≠ q.slot) :
    installed readers s ehdr n phdr.slot = segmentBlock readers s ehdr i := by
  induction n with
  | zero => exact absurd hi (Nat.not_lt_zero i)
  | succ n ih =>
    rcases Nat.lt_succ_iff_lt_or_eq.mp hi with hin | rfl
    · have hrest := ih hin fun j hij hj => hlast j hij (Nat.lt_succ_of_lt hj)
      cases hq : segment readers s.rootInode ehdr n with
      | none =>
        simp only [installed, hq]
        exact hrest
      | some q =>
        simp only [installed, hq]
        rw [Function.update_of_ne (hlast n hin (Nat.lt_succ_self n) q hq)]
        exact hrest
    · simp only [installed, hp, Function.update_self]

theorem LoadedTo.live {s' : LoadState} (h : LoadedTo readers s ehdr n s') (hs : s.heap.Sane)
    (hp : segment readers s.rootInode ehdr i = some phdr) (hi : i < n) :
    s'.heap.Live (segmentBlock readers s ehdr i) := by
  have hsucc := blocksBefore_succ_some hp
  have hle : blocksBefore readers s ehdr (i + 1) ≤ _ := blocksBefore_mono hi
  rw [h.heap.1, BlockHeap.live_after hs h.granted, segmentBlock]
  omega

end Slots

/-- **Every segment that was loaded stays reachable** exactly if none begins at 1 GiB or
above and no two begin in the same MiB. -/
theorem elfLoad_reachable_iff (readers : ReadCall → FileReader) (s : LoadState) (path : CString)
    (hs : s.heap.Sane) (hc : LoadContained readers s) (h0 : (elfLoad readers s path).1 = 0) :
    SegmentsReachable readers s path ↔ SlotsApart readers s := by
  rw [SegmentsReachable]
  rcases elfLoad_cases readers s path with
    ⟨-, he⟩ | ⟨ehdr, hhead, ⟨hno, s', he, hl⟩ | ⟨i, -, -, -, s', he, -⟩⟩
  · rw [he] at h0
    exact absurd (show (-1 : Int) = 0 from h0) (by decide)
  · have howned := hc.owned hhead (Nat.le_refl _)
      (fun i hi j hj => hno j (Nat.lt_trans hj hi)) hl.stores
    simp only [he, howned, true_and, SlotsApart, hhead, Option.some.injEq, forall_eq', hl.tables]
    constructor
    · intro h
      refine ⟨fun i hi p hp => (slot_lt_iff p).mp (h i hi p hp).1,
        fun j hj i hij p q hp hq heq => ?_⟩
      -- one slot cannot designate both blocks
      have hslot : p.slot = q.slot := heq
      have hpb := (h i (Nat.lt_trans hij hj) p hp).2.1
      have hqb := (h j hj q hq).2.1
      rw [hslot, hqb] at hpb
      exact absurd (segmentBlock_lt hp hij) (Nat.not_lt_of_le (Nat.le_of_eq hpb))
    · rintro ⟨hlow, hapart⟩ i hi p hp
      have hblock := installed_last hp hi fun j hij hj q hq => hapart j hj i hij p q hp hq
      rw [hblock]
      exact ⟨(slot_lt_iff p).mpr (hlow i hi p hp), rfl, hl.live hs hp hi, hl.images i hi p hp⟩
  · rw [he] at h0
    exact absurd (show (-1 : Int) = 0 from h0) (by decide)

/-- The address ranges of the segments are disjoint. -/
def SegmentsDisjoint (readers : ReadCall → FileReader) (s : LoadState) : Prop :=
  ∀ ehdr, elfHeader readers s.rootInode = some ehdr →
    (segmentsBefore readers s.rootInode ehdr ehdr.ePhnum).Pairwise fun p q =>
      p.pVaddr + p.pMemsz ≤ q.pVaddr ∨ q.pVaddr + q.pMemsz ≤ p.pVaddr

/-- Two segments, at `0x8048000` and `0x8049000`. -/
def closeFile : List UInt8 := ehdrBytes 2 ++ zerosBytes 0x8048000 16 ++ zerosBytes 0x8049000 16

def closeReaders (_ : ReadCall) : FileReader := fileReader closeFile (by decide)

/-- They are loaded, and the slot of the first one is taken by the second. -/
theorem close_segments_share : SegmentsDisjoint closeReaders emptyState ∧
    (elfLoad closeReaders emptyState slashPath).1 = 0 ∧
    ¬ SegmentsReachable closeReaders emptyState slashPath := by
  have hhead : elfHeader closeReaders emptyState.rootInode = some (decodeEhdr (ehdrBytes 2)) := rfl
  refine ⟨fun ehdr h => ?_, by decide, fun h => ?_⟩
  · obtain rfl := Option.some.inj (hhead.symm.trans h)
    decide
  · have hfirst := (h.2 _ hhead 0 (by decide) ⟨ptLoad, 0, 0x8048000, 0, 16⟩ rfl).2.1
    exact absurd hfirst (by decide)

/-- Two segments with a MiB between them. -/
def apartFile : List UInt8 := ehdrBytes 2 ++ zerosBytes 0x8048000 16 ++ zerosBytes 0x8148000 16

def apartReaders (_ : ReadCall) : FileReader := fileReader apartFile (by decide)

theorem loadContained_apart : LoadContained apartReaders emptyState := by
  have hhead : elfHeader apartReaders emptyState.rootInode = some (decodeEhdr (ehdrBytes 2)) := rfl
  intro ehdr h i hi _ phdr hseg _
  obtain rfl := Option.some.inj (hhead.symm.trans h)
  have hi' : i < 2 := hi
  rcases (show i = 0 ∨ i = 1 by omega) with rfl | rfl
  · obtain rfl := Option.some.inj ((rfl : segment apartReaders _ _ 0 =
      some ⟨ptLoad, 0, 0x8048000, 0, 16⟩).symm.trans hseg)
    decide
  · obtain rfl := Option.some.inj ((rfl : segment apartReaders _ _ 1 =
      some ⟨ptLoad, 0, 0x8148000, 0, 16⟩).symm.trans hseg)
    decide

theorem elfLoad_reachable_iff_apart :
    SegmentsReachable apartReaders emptyState slashPath ↔ SlotsApart apartReaders emptyState :=
  elfLoad_reachable_iff apartReaders emptyState slashPath
    (fun _ hp => absurd hp List.not_mem_nil) loadContained_apart (by decide)

end SynapseKernel.Loader
