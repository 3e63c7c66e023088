import SynapseKernel.Fs.Vfs
import SynapseKernel.Lib.Blocks
import SynapseKernel.Lib.ByteMemory
import SynapseKernel.Lib.Word

/-! # The ELF loader (kernel/loader/elf.c)

The loader reads through `vfs_read`, a stub that reads nothing, so the reader is a
parameter here: a function that says for each read what is returned and which bytes
are put into the buffer. A segment goes into a heap block of `p_memsz` bytes, into which
`p_filesz` bytes are read whether they fit or not, and from `0xFFFFFFE9` bytes on the
block does not have its size (`elfLoadSegment_stays_iff`). -/
namespace SynapseKernel.Loader
open SynapseKernel.Word SynapseKernel.Kheap SynapseKernel.Blocks SynapseKernel.ByteMemory
open SynapseKernel.Str SynapseKernel.Fs

/-! ## Files -/

/-- A function in the place of `vfs_read`: for an inode, a count and an offset the
`ssize_t` that it returns and the bytes that it stores. -/
structure FileReader where
  result : Nat → Nat → Nat → Int
  bytes : Nat → Nat → Nat → List UInt8
  length_bytes : ∀ inode count offset,
    (bytes inode count offset).length = (result inode count offset).toNat
  result_le : ∀ inode count offset, result inode count offset ≤ count
  result_ssize : ∀ inode count offset,
    -2 ^ 31 ≤ result inode count offset ∧ result inode count offset < 2 ^ 31

/-- The stub of kernel/fs/vfs.c. -/
def vfsRead : FileReader where
  result := fun _ _ _ => 0
  bytes := fun _ _ _ => []
  length_bytes := fun _ _ _ => rfl
  result_le := fun _ count _ => Int.natCast_nonneg count
  result_ssize := fun _ _ _ => by decide

/-- The reads of one load, each of which may be answered differently. -/
inductive ReadCall
  | header
  | programHeader (i : Nat)
  | segment (i : Nat)

/-! ## Headers -/

/-- The fields of `elf32_ehdr_t` that are looked at. -/
structure Elf32Ehdr where
  eIdent : List UInt8
  eType : Nat
  eEntry : Nat
  ePhoff : Nat
  ePhentsize : Nat
  ePhnum : Nat

/-- The fields of `elf32_phdr_t` that are looked at. -/
structure Elf32Phdr where
  pType : Nat
  pOffset : Nat
  pVaddr : Nat
  pFilesz : Nat
  pMemsz : Nat

abbrev ehdrSize : Nat := 52
abbrev phdrSize : Nat := 32

/-- A field of a header at its offset, little endian. -/
def field (bytes : List UInt8) (offset width : Nat) : Nat :=
  readLE (fun i => bytes.getD i 0) offset width

def decodeEhdr (bytes : List UInt8) : Elf32Ehdr where
  eIdent := bytes.take 16
  eType := field bytes 16 2
  eEntry := field bytes 24 4
  ePhoff := field bytes 28 4
  ePhentsize := field bytes 42 2
  ePhnum := field bytes 44 2

def decodePhdr (bytes : List UInt8) : Elf32Phdr where
  pType := field bytes 0 4
  pOffset := field bytes 4 4
  pVaddr := field bytes 8 4
  pFilesz := field bytes 16 4
  pMemsz := field bytes 20 4

/-- `ELFMAG0` to `ELFMAG3`, `ELFCLASS32` and `ELFDATA2LSB`. -/
def elfIdent : List UInt8 := [0x7f, 0x45, 0x4c, 0x46, 1, 1]

abbrev etExec : Nat := 2
abbrev ptLoad : Nat := 1

def elfValidateHeader (ehdr : Elf32Ehdr) : Int :=
  if ehdr.eIdent.take 4 ≠ elfIdent.take 4 then -1
  else if ehdr.eIdent.getD 4 0 ≠ elfIdent.getD 4 0 then -1
  else if ehdr.eIdent.getD 5 0 ≠ elfIdent.getD 5 0 then -1
  else if ehdr.eType ≠ etExec then -1
  else 0

/-! ## Segments -/

/-- A store to a heap block. -/
structure Store where
  block : Nat
  offset : Nat
  length : Nat

/-- The file system layer with the heap, what is in its blocks and
`current_task->page_dir->tables`, of which the slots from `1024` on are the words behind
the directory. A store over the end of a block is kept with the block and not followed to
what lies behind it; the stores made so far, which are not in the source, tell whether
there was one. -/
structure LoadState extends Vfs where
  bytes : Nat → Nat → UInt8
  tables : Nat → Nat
  stores : List Store

def LoadState.store (s : LoadState) (block offset : Nat) (buf : List UInt8) : LoadState :=
  { s with
    bytes := Function.update s.bytes block (overwrite (s.bytes block) offset buf)
    stores := ⟨block, offset, buf.length⟩ :: s.stores }

def readFile (reader : FileReader) (s : LoadState) (inode mem count offset : Nat) :
    Int × LoadState :=
  (reader.result inode count offset, s.store mem 0 (reader.bytes inode count offset))

/-- The part of a segment that is in the file is read; whether all of it came. -/
def readSegment (reader : FileReader) (s : LoadState) (phdr : Elf32Phdr) (inode mem : Nat) :
    Bool × LoadState :=
  if 0 < phdr.pFilesz then
    let read := readFile reader s inode mem phdr.pFilesz phdr.pOffset
    -- the comparison is one of words
    (ofInt read.1 = phdr.pFilesz, read.2)
  else (true, s)

/-- The rest of it is cleared. -/
def clearRest (s : LoadState) (phdr : Elf32Phdr) (mem : Nat) : LoadState :=
  if phdr.pFilesz < phdr.pMemsz then
    s.store mem phdr.pFilesz (List.replicate (phdr.pMemsz - phdr.pFilesz) 0)
  else s

/-- The slot of the directory that a segment goes to. -/
def Elf32Phdr.slot (phdr : Elf32Phdr) : Nat := phdr.pVaddr / (1024 * 1024)

def elfLoadSegment (reader : FileReader) (s : LoadState) (phdr : Elf32Phdr) (inode : Nat) :
    Int × LoadState :=
  if phdr.pType ≠ ptLoad then (0, s)
  else if phdr.pMemsz = 0 then (0, s)
  else
    let mem := s.heap.kmalloc phdr.pMemsz
    let s := { s with heap := mem.2 }
    if mem.1 = 0 then (-1, s)
    else
      let read := readSegment reader s phdr inode mem.1
      if read.1 = false then (-1, { read.2 with heap := read.2.heap.kfree mem.1 })
      else
        let s := clearRest read.2 phdr mem.1
        (0, { s with tables := Function.update s.tables phdr.slot mem.1 })

/-- A segment that gets a block of its own. -/
def Elf32Phdr.IsLoaded (phdr : Elf32Phdr) : Prop := phdr.pType = ptLoad ∧ phdr.pMemsz ≠ 0

/-- The reader returns what it was asked for, compared as words. -/
def ReadsAll (reader : FileReader) (phdr : Elf32Phdr) (inode : Nat) : Prop :=
  0 < phdr.pFilesz → ofInt (reader.result inode phdr.pFilesz phdr.pOffset) = phdr.pFilesz

/-- The bytes of the file that belong to the segment. -/
def fileBytes (reader : FileReader) (phdr : Elf32Phdr) (inode : Nat) : List UInt8 :=
  if 0 < phdr.pFilesz then reader.bytes inode phdr.pFilesz phdr.pOffset else []

variable {reader : FileReader} {s s' : LoadState} {phdr : Elf32Phdr} {inode : Nat}

/-! ## What a segment does -/

/-- The state with the segment read into the next block. -/
def afterRead (reader : FileReader) (s : LoadState) (phdr : Elf32Phdr) (inode : Nat) : LoadState :=
  (readSegment reader { s with heap := (s.heap.kmalloc phdr.pMemsz).2 } phdr inode
    (s.heap.requests + 1)).2

/-- The state after a segment of which not all was read. -/
def afterShort (reader : FileReader) (s : LoadState) (phdr : Elf32Phdr) (inode : Nat) : LoadState :=
  let s' := afterRead reader s phdr inode
  { s' with heap := s'.heap.kfree (s.heap.requests + 1) }

/-- The state after a segment that is loaded. -/
def afterLoad (reader : FileReader) (s : LoadState) (phdr : Elf32Phdr) (inode : Nat) : LoadState :=
  let s' := clearRest (afterRead reader s phdr inode) phdr (s.heap.requests + 1)
  { s' with tables := Function.update s'.tables phdr.slot (s.heap.requests + 1) }

theorem afterRead_frame (reader : FileReader) (s : LoadState) (phdr : Elf32Phdr) (inode : Nat) :
    (afterRead reader s phdr inode).toVfs =
        { s.toVfs with heap := (s.heap.kmalloc phdr.pMemsz).2 } ∧
      (afterRead reader s phdr inode).tables = s.tables := by
  rw [afterRead, readSegment]
  split
  · exact ⟨rfl, rfl⟩
  · exact ⟨rfl, rfl⟩

theorem clearRest_frame (s : LoadState) (phdr : Elf32Phdr) (mem : Nat) :
    (clearRest s phdr mem).toVfs = s.toVfs ∧ (clearRest s phdr mem).tables = s.tables := by
  rw [clearRest]
  split
  · exact ⟨rfl, rfl⟩
  · exact ⟨rfl, rfl⟩

/-- A segment that is loaded takes a block and a slot. -/
theorem afterLoad_frame (reader : FileReader) (s : LoadState) (phdr : Elf32Phdr) (inode : Nat) :
    (afterLoad reader s phdr inode).toVfs =
        { s.toVfs with heap := (s.heap.kmalloc phdr.pMemsz).2 } ∧
      (afterLoad reader s phdr inode).tables =
        Function.update s.tables phdr.slot (s.heap.requests + 1) := by
  obtain ⟨hvfs, htables⟩ := afterRead_frame reader s phdr inode
  obtain ⟨hvfs', htables'⟩ :=
    clearRest_frame (afterRead reader s phdr inode) phdr (s.heap.requests + 1)
  refine ⟨hvfs'.trans hvfs, ?_⟩
  rw [← htables, ← htables']
  rfl

/-- One that comes short gives its block back. -/
theorem afterShort_frame (reader : FileReader) (s : LoadState) (phdr : Elf32Phdr) (inode : Nat) :
    (afterShort reader s phdr inode).heap =
        (s.heap.kmalloc phdr.pMemsz).2.kfree (s.heap.requests + 1) ∧
      (afterShort reader s phdr inode).tables = s.tables := by
  obtain ⟨hvfs, htables⟩ := afterRead_frame reader s phdr inode
  exact ⟨congrArg (BlockHeap.kfree · _) (congrArg Vfs.heap hvfs), htables⟩

/-- Everything `elf_load_segment` can do. -/
theorem elfLoadSegment_cases (reader : FileReader) (s : LoadState) (phdr : Elf32Phdr)
    (inode : Nat) :
    (¬ phdr.IsLoaded ∧ elfLoadSegment reader s phdr inode = (0, s)) ∨
    (phdr.IsLoaded ∧ s.heap.grants s.heap.requests = false ∧
      elfLoadSegment reader s phdr inode =
        (-1, { s with heap := (s.heap.kmalloc phdr.pMemsz).2 })) ∨
    (phdr.IsLoaded ∧ s.heap.grants s.heap.requests = true ∧ ¬ ReadsAll reader phdr inode ∧
      elfLoadSegment reader s phdr inode = (-1, afterShort reader s phdr inode)) ∨
    (phdr.IsLoaded ∧ s.heap.grants s.heap.requests = true ∧ ReadsAll reader phdr inode ∧
      elfLoadSegment reader s phdr inode = (0, afterLoad reader s phdr inode)) := by
  by_cases htype : phdr.pType ≠ ptLoad
  · refine .inl ⟨fun h => htype h.1, ?_⟩
    rw [elfLoadSegment, if_pos htype]
  by_cases hsize : phdr.pMemsz = 0
  · refine .inl ⟨fun h => h.2 hsize, ?_⟩
    rw [elfLoadSegment, if_neg htype, if_pos hsize]
  have hloaded : phdr.IsLoaded := ⟨not_not.mp htype, hsize⟩
  refine .inr ?_
  rcases s.heap.kmalloc_cases phdr.pMemsz hsize with ⟨hno, hmem⟩ | ⟨hyes, hmem⟩
  · refine .inl ⟨hloaded, hno, ?_⟩
    simp only [elfLoadSegment, if_neg htype, if_neg hsize, if_pos hmem]
  have hread : (readSegment reader { s with heap := (s.heap.kmalloc phdr.pMemsz).2 } phdr inode
      (s.heap.requests + 1)).1 = true ↔ ReadsAll reader phdr inode := by
    rw [readSegment, ReadsAll]
    by_cases hpos : 0 < phdr.pFilesz
    · rw [if_pos hpos, decide_eq_true_eq]
      exact ⟨fun h _ => h, fun h => h hpos⟩
    · rw [if_neg hpos]
      exact ⟨fun _ h => absurd h hpos, fun _ => rfl⟩
  refine .inr ?_
  by_cases hall : ReadsAll reader phdr inode
  · refine .inr ⟨hloaded, hyes, hall, ?_⟩
    simp only [elfLoadSegment, if_neg htype, if_neg hsize, hmem, Nat.succ_ne_zero, if_false,
      hread.mpr hall, Bool.true_eq_false]
    rfl
  · refine .inl ⟨hloaded, hyes, hall, ?_⟩
    have hfalse := Bool.eq_false_iff.mpr (mt hread.mp hall)
    simp only [elfLoadSegment, if_neg htype, if_neg hsize, hmem, Nat.succ_ne_zero, if_false,
      hfalse, if_true]
    rfl

/-! ## Stores to the block of a segment -/

/-- What was stored since `s` is in the first `size` bytes of the block. -/
def StoresInside (s s' : LoadState) (block size : Nat) : Prop :=
  ∃ new, s'.stores = new ++ s.stores ∧ ∀ w ∈ new, w.block = block ∧ w.offset + w.length ≤ size

/-- The segment is loaded inside what its block has of the `p_memsz` bytes, and a block
that is installed holds the bytes of the file and zeros behind them. -/
def SegmentStays (reader : FileReader) (s : LoadState) (phdr : Elf32Phdr) (inode : Nat) : Prop :=
  let r := elfLoadSegment reader s phdr inode
  let block := (s.heap.kmalloc phdr.pMemsz).1
  StoresInside s r.2 block (usable phdr.pMemsz) ∧
    (r.1 = 0 → phdr.IsLoaded → (fileBytes reader phdr inode).length = phdr.pFilesz ∧
      slice (r.2.bytes block) 0 phdr.pMemsz =
        fileBytes reader phdr inode ++ List.replicate (phdr.pMemsz - phdr.pFilesz) 0)

/-- No more bytes come than the block has, and no error is taken for the size. -/
def SegmentFits (reader : FileReader) (s : LoadState) (phdr : Elf32Phdr) (inode : Nat) : Prop :=
  ¬ phdr.IsLoaded ∨ s.heap.grants s.heap.requests = false ∨
    (phdr.pFilesz = 0 ∧ phdr.pMemsz ≤ maxSize) ∨
    (phdr.pFilesz ≠ 0 ∧
      (reader.bytes inode phdr.pFilesz phdr.pOffset).length ≤ usable phdr.pMemsz ∧
      ¬ (reader.result inode phdr.pFilesz phdr.pOffset < 0 ∧
        ofInt (reader.result inode phdr.pFilesz phdr.pOffset) = phdr.pFilesz))

def readStores (reader : FileReader) (s : LoadState) (phdr : Elf32Phdr) (inode : Nat) :
    List Store :=
  if 0 < phdr.pFilesz then [⟨s.heap.requests + 1, 0, (fileBytes reader phdr inode).length⟩] else []

def clearStores (s : LoadState) (phdr : Elf32Phdr) : List Store :=
  if phdr.pFilesz < phdr.pMemsz then
    [⟨s.heap.requests + 1, phdr.pFilesz, phdr.pMemsz - phdr.pFilesz⟩]
  else []

theorem storesInside_iff {new : List Store} {block size : Nat} (h : s'.stores = new ++ s.stores) :
    StoresInside s s' block size ↔ ∀ w ∈ new, w.block = block ∧ w.offset + w.length ≤ size := by
  constructor
  · rintro ⟨new', he, hw⟩
    rwa [List.append_cancel_right (h.symm.trans he)]
  · exact fun hw => ⟨new, h, hw⟩

theorem storesInside_refl {block size : Nat} (h : s'.stores = s.stores) :
    StoresInside s s' block size :=
  ⟨[], h, fun _ hw => absurd hw List.not_mem_nil⟩

theorem afterRead_stores (reader : FileReader) (s : LoadState) (phdr : Elf32Phdr) (inode : Nat) :
    (afterRead reader s phdr inode).stores = readStores reader s phdr inode ++ s.stores := by
  rw [afterRead, readSegment, readStores, fileBytes]
  split
  · rfl
  · rfl

theorem afterShort_stores (reader : FileReader) (s : LoadState) (phdr : Elf32Phdr) (inode : Nat) :
    (afterShort reader s phdr inode).stores = readStores reader s phdr inode ++ s.stores :=
  afterRead_stores reader s phdr inode

theorem afterLoad_stores (reader : FileReader) (s : LoadState) (phdr : Elf32Phdr) (inode : Nat) :
    (afterLoad reader s phdr inode).stores =
      clearStores s phdr ++ readStores reader s phdr inode ++ s.stores := by
  have hclear : (afterLoad reader s phdr inode).stores =
      clearStores s phdr ++ (afterRead reader s phdr inode).stores := by
    rw [afterLoad, clearRest, clearStores]
    split
    · rw [LoadState.store, List.length_replicate]
      rfl
    · rfl
  rw [hclear, afterRead_stores, List.append_assoc]

/-- The zeros do not leave a block that has its size. -/
theorem clearStores_inside : (∀ w ∈ clearStores s phdr,
      w.block = s.heap.requests + 1 ∧ w.offset + w.length ≤ usable phdr.pMemsz) ↔
    (phdr.pFilesz < phdr.pMemsz → phdr.pMemsz ≤ maxSize) := by
  rw [clearStores]
  split
  · rename_i hlt
    rw [List.forall_mem_singleton, Nat.add_sub_cancel' (Nat.le_of_lt hlt), usable,
      and_iff_right rfl, forall_prop_of_true hlt]
    split <;> omega
  · rename_i hno
    exact iff_of_true (fun _ hw => absurd hw List.not_mem_nil) fun hlt => absurd hlt hno

/-- What is read does not if the file gives no more than the block has. -/
theorem readStores_inside {size : Nat} : (∀ w ∈ readStores reader s phdr inode,
      w.block = s.heap.requests + 1 ∧ w.offset + w.length ≤ size) ↔
    (0 < phdr.pFilesz → (fileBytes reader phdr inode).length ≤ size) := by
  rw [readStores]
  split
  · rename_i hpos
    rw [List.forall_mem_singleton, Nat.zero_add]
    exact ⟨fun h _ => h.2, fun h => ⟨rfl, h hpos⟩⟩
  · rename_i hpos
    exact iff_of_true (fun _ hw => absurd hw List.not_mem_nil) fun h => absurd h hpos

/-- What a block holds after a segment was loaded into it. -/
def loadedBytes (f : Nat → UInt8) (reader : FileReader) (phdr : Elf32Phdr) (inode : Nat) :
    Nat → UInt8 :=
  overwrite (overwrite f 0 (fileBytes reader phdr inode)) phdr.pFilesz
    (List.replicate (phdr.pMemsz - phdr.pFilesz) 0)

theorem afterLoad_bytes (reader : FileReader) (s : LoadState) (phdr : Elf32Phdr) (inode : Nat) :
    (afterLoad reader s phdr inode).bytes = Function.update s.bytes (s.heap.requests + 1)
      (loadedBytes (s.bytes (s.heap.requests + 1)) reader phdr inode) := by
  have hread : (afterRead reader s phdr inode).bytes =
      Function.update s.bytes (s.heap.requests + 1)
        (overwrite (s.bytes (s.heap.requests + 1)) 0 (fileBytes reader phdr inode)) := by
    rw [afterRead, readSegment, fileBytes]
    split
    · rfl
    · rw [overwrite_nil, Function.update_eq_self]
  rw [afterLoad, clearRest, loadedBytes]
  split
  · rw [LoadState.store, hread, Function.update_self, Function.update_idem]
  · rename_i hfull
    rw [Nat.sub_eq_zero_of_le (Nat.le_of_not_lt hfull), List.replicate_zero, overwrite_nil]
    exact hread

/-- The contents of the block of a segment that is loaded. -/
theorem afterLoad_contents (hlen : (fileBytes reader phdr inode).length = phdr.pFilesz)
    (hle : phdr.pFilesz ≤ phdr.pMemsz) :
    slice ((afterLoad reader s phdr inode).bytes (s.heap.requests + 1)) 0 phdr.pMemsz =
      fileBytes reader phdr inode ++ List.replicate (phdr.pMemsz - phdr.pFilesz) 0 := by
  have hload : (afterLoad reader s phdr inode).bytes (s.heap.requests + 1) =
      overwrite (s.bytes (s.heap.requests + 1)) 0 (fileBytes reader phdr inode ++
        List.replicate (phdr.pMemsz - phdr.pFilesz) 0) := by
    rw [afterLoad_bytes, Function.update_self, loadedBytes, ← overwrite_append, Nat.zero_add, hlen]
  have hsize : phdr.pMemsz = (fileBytes reader phdr inode ++
      List.replicate (phdr.pMemsz - phdr.pFilesz) (0 : UInt8)).length := by
    rw [List.length_append, List.length_replicate, hlen]
    omega
  rw [hload]
  exact (congrArg (slice _ 0) hsize).trans slice_overwrite

/-- A result that is taken for the size of the segment is that size, or it is an error. -/
theorem ReadsAll.length_iff (h : ReadsAll reader phdr inode) (hpos : 0 < phdr.pFilesz) :
    (fileBytes reader phdr inode).length = phdr.pFilesz ↔
      ¬ (reader.result inode phdr.pFilesz phdr.pOffset < 0 ∧
        ofInt (reader.result inode phdr.pFilesz phdr.pOffset) = phdr.pFilesz) := by
  have hword := h hpos
  obtain ⟨hlow, hhigh⟩ := reader.result_ssize inode phdr.pFilesz phdr.pOffset
  rw [and_iff_left hword, fileBytes, if_pos hpos, reader.length_bytes]
  rw [ofInt] at hword
  omega

/-- **The load of a segment** stays in its block and gives it its contents exactly if
the file has no more bytes for it than the block. -/
theorem elfLoadSegment_stays_iff (reader : FileReader) (s : LoadState) (phdr : Elf32Phdr)
    (inode : Nat) : SegmentStays reader s phdr inode ↔ SegmentFits reader s phdr inode := by
  rw [SegmentStays, SegmentFits]
  rcases elfLoadSegment_cases reader s phdr inode with
    ⟨hno, he⟩ | ⟨hl, hrefused, he⟩ | ⟨hl, hyes, hshort, he⟩ | ⟨hl, hyes, hall, he⟩
  · refine iff_of_true ⟨storesInside_refl (by rw [he]), fun _ hl => absurd hl hno⟩ (.inl hno)
  · refine iff_of_true ⟨storesInside_refl (by rw [he]), fun h0 => ?_⟩ (.inr (.inl hrefused))
    have h0 : (-1 : Int) = 0 := (congrArg Prod.fst he).symm.trans h0
    exact absurd h0 (by decide)
  · -- the read came back short: what matters is what it stored
    obtain ⟨hpos, hne⟩ := Classical.not_imp.mp hshort
    simp only [he, BlockHeap.kmalloc_granted hyes _ hl.2, hl, hyes, not_true, false_or,
      Bool.true_eq_false, Nat.ne_of_gt hpos, false_and, ne_eq, not_false_eq_true, true_and, hne,
      and_false, and_true]
    rw [storesInside_iff (afterShort_stores reader s phdr inode), readStores_inside, fileBytes,
      if_pos hpos]
    exact ⟨fun h => h.1 hpos, fun h => ⟨fun _ => h, fun h0 => absurd h0 (by decide)⟩⟩
  · simp only [he, BlockHeap.kmalloc_granted hyes _ hl.2, hl, hyes, not_true, false_or,
      Bool.true_eq_false, true_implies]
    rw [storesInside_iff (afterLoad_stores reader s phdr inode), List.forall_mem_append,
      clearStores_inside, readStores_inside]
    by_cases hpos : 0 < phdr.pFilesz
    · have hlen := hall.length_iff hpos
      have hbytes : fileBytes reader phdr inode = reader.bytes inode phdr.pFilesz phdr.pOffset :=
        if_pos hpos
      rw [or_iff_right fun h => Nat.ne_of_gt hpos h.1, and_iff_right (Nat.ne_of_gt hpos), ← hlen,
        ← hbytes]
      constructor
      · exact fun h => ⟨h.1.2 hpos, h.2.1⟩
      · intro ⟨hle, hlen⟩
        -- a block that has room for a byte has its size
        obtain ⟨hmax, hfits⟩ : phdr.pMemsz ≤ maxSize ∧ phdr.pFilesz ≤ phdr.pMemsz := by
          rw [usable] at hle
          split at hle <;> omega
        exact ⟨⟨fun _ => hmax, fun _ => hle⟩, hlen, afterLoad_contents hlen hfits⟩
    · have hzero : phdr.pFilesz = 0 := Nat.eq_zero_of_not_pos hpos
      have hempty : (fileBytes reader phdr inode).length = phdr.pFilesz := by
        rw [fileBytes, if_neg hpos, hzero]
        rfl
      rw [or_iff_left fun h => h.1 hzero, and_iff_right hzero]
      constructor
      · exact fun h => h.1.1 (hzero ▸ Nat.pos_of_ne_zero hl.2)
      · exact fun hmax => ⟨⟨fun _ => hmax, fun h => absurd h hpos⟩, hempty,
          afterLoad_contents hempty (hzero ▸ Nat.zero_le _)⟩

/-- A reader that returns as many zeros as it is asked for, up to `8` of them. -/
def zeroReader : FileReader where
  result := fun _ count _ => (min count 8 : Nat)
  bytes := fun _ count _ => List.replicate (min count 8) 0
  length_bytes := fun _ count _ => List.length_replicate
  result_le := fun _ count _ => Int.ofNat_le.mpr (Nat.min_le_left count 8)
  result_ssize := fun _ count _ => by omega

/-- A kernel in which nothing was loaded, with heap blocks for everybody. -/
def emptyState : LoadState where
  toVfs := { bareVfs with heap := ⟨fun _ => true, id, 0, []⟩ }
  bytes := fun _ _ => 0
  tables := fun _ => 0
  stores := []

/-- A segment with eight bytes in the file and four in memory is read over the end of
its block. -/
theorem segment_leaves_block : ¬ SegmentStays zeroReader emptyState ⟨ptLoad, 52, 0, 8, 4⟩ 1 := by
  intro h
  obtain ⟨hinside, -⟩ := h
  obtain ⟨new, hnew, hw⟩ := hinside
  have hstores : [(⟨1, 0, 8⟩ : Store)] = new := List.append_cancel_right hnew
  exact absurd (hw ⟨1, 0, 8⟩ (hstores ▸ List.mem_cons_self)).2 (by decide)

end SynapseKernel.Loader
