import SynapseKernel.Fs.RamfsBytes

/-! # RamFS directories in memory

A directory is a held inode whose list is a ring of held entries. Nothing that is
written elsewhere disturbs it (`Directory.extend`), a new entry joins it
(`Directory.addEntry`), and the root is one (`createRoot_directory`). -/
namespace SynapseKernel.RamfsBytes
open SynapseKernel.Word SynapseKernel.ByteMemory SynapseKernel.Kheap SynapseKernel.Ring
open SynapseKernel.Str
open SynapseKernel.Fs (FileType)

/-- `dir` is the inode of a directory in the client's heap, and `l` are its entries. -/
structure Directory (c : Client) (dir : Nat) (l : List Nat) : Prop where
  reach : Reach c
  held : (dir, inodeSize) ∈ c.live
  type : typeOf c.heap.mem dir = typeCode .directory
  self : privateData c.heap.mem dir = dir
  first : entries c.heap.mem dir = l.headD 0
  ring : IsRing (next c.heap.mem) (prev c.heap.mem) l
  blocks : ∀ e ∈ l, (e, entrySize) ∈ c.live

variable {c c' : Client} {s s' : Ramfs} {m : Mem} {dir e n : Nat}
  {l : List Nat} {name : CString} {type : FileType}

/-! ## Directories -/

theorem Directory.extend (hd : Directory c dir l) (he : Extends c c') : Directory c' dir l := by
  have hlinks : ∀ x ∈ l, next c'.heap.mem x = next c.heap.mem x ∧
      prev c'.heap.mem x = prev c.heap.mem x := by
    intro x hx
    exact ⟨he.read32 (hd.blocks x hx) (by decide), he.read32 (hd.blocks x hx) (by decide)⟩
  refine ⟨he.reach, he.live _ hd.held, ?_, ?_, ?_, hd.ring.congr hlinks,
    fun x hx => he.live _ (hd.blocks x hx)⟩
  · exact (he.read32 hd.held (by decide)).trans hd.type
  · exact (he.read32 hd.held (by decide)).trans hd.self
  · exact (he.read32 hd.held (by decide)).trans hd.first

/-- Blocks that are held share no memory. -/
theorem placed_of_held (hr : Reach c) (hdir : (dir, inodeSize) ∈ c.live)
    (hl : ∀ x ∈ l, (x, entrySize) ∈ c.live) : Placed dir l := by
  refine ⟨fun x hx y hy => ?_, fun x hx => ?_, fun x hx => ?_⟩
  · by_cases hxy : x = y
    · exact .inl hxy
    · exact .inr (hr.apart (hl x hx) (hl y hy) hxy)
  · refine hr.apart hdir (hl x hx) ?_
    intro he
    exact absurd (hr.size_eq (he ▸ hdir) (hl x hx)) (by decide)
  · have := hr.bounds (hl x hx)
    simp only [kheapStart, kheapSize, entrySize] at this
    omega

theorem Directory.placed (hd : Directory c dir l) : Placed dir l :=
  placed_of_held hd.reach hd.held hd.blocks

/-- The ring is shorter than the addresses are many. -/
theorem Directory.length_lt (hd : Directory c dir l) : l.length < walkFuel := by
  have hsub : l ⊆ List.range (kheapStart + kheapSize) := by
    intro x hx
    have := (hd.reach.bounds (hd.blocks x hx)).2
    simp only [entrySize] at this
    rw [List.mem_range]
    omega
  have hlen := (List.subperm_of_subset hd.ring.nodup hsub).length_le
  rw [List.length_range] at hlen
  exact Nat.lt_of_le_of_lt hlen (by decide)

/-- **What `ramfs_find_entry` returns.** -/
theorem Directory.find_cases (hd : Directory c dir l) (name : CString) :
    (∃ pre x post, l = pre ++ x :: post ∧ Holds c.heap.mem x name.bytes ∧
      (∀ y ∈ pre, ¬ Holds c.heap.mem y name.bytes) ∧
      ramfsFindEntry c.heap.mem dir name = some x) ∨
    ((∀ x ∈ l, ¬ Holds c.heap.mem x name.bytes) ∧
      ramfsFindEntry c.heap.mem dir name = some 0) := by
  have hfirst := hd.first
  unfold ramfsFindEntry
  cases l with
  | nil => exact .inr ⟨fun x hx => absurd hx List.not_mem_nil, if_pos hfirst⟩
  | cons a l =>
    have ha : entries c.heap.mem dir = a := hfirst
    have h0 : a ≠ 0 := Nat.pos_iff_ne_zero.mp (hd.placed.range a List.mem_cons_self).1
    have hlen : l.length < walkFuel := Nat.lt_of_succ_lt hd.length_lt
    rw [ha, if_neg h0, hd.ring.walk_eq hlen]
    rcases Search.foldlM_search (fun x => strcmpAt c.heap.mem x name = 0) (a :: l) with
      ⟨pre, x, post, he, hx, hpre, hr⟩ | ⟨hno, hr⟩
    · refine .inl ⟨pre, x, post, he, strcmpAt_eq_zero.mp hx, fun y hy => ?_, by rw [hr]⟩
      exact fun hh => hpre y hy (strcmpAt_eq_zero.mpr hh)
    · exact .inr ⟨fun x hx hh => hno x hx (strcmpAt_eq_zero.mpr hh), by rw [hr]⟩

/-- Only links, names and the list of the directory differ. -/
def Frames (m m' : Mem) (dir : Nat) (nodes : List Nat) : Prop :=
  ∀ b, (∀ x ∈ nodes, b < x ∨ x + 268 ≤ b) → (b < dir + 40 ∨ dir + 44 ≤ b) → m' b = m b

/-- The fields before the list are not touched. -/
theorem Frames.inode {m' : Mem} (h : Frames m m' dir l) (hp : Placed dir l) :
    typeOf m' dir = typeOf m dir ∧ privateData m' dir = privateData m dir := by
  have hword : ∀ o, o + 4 ≤ 40 → read32 m' (dir + o) = read32 m (dir + o) := by
    intro o ho
    refine readLE_congr fun b hb hb' => h b (fun x hx => ?_) (by omega)
    have := hp.dir x hx
    omega
  exact ⟨hword 4 (by decide), hword 36 (by decide)⟩

/-- All that differs is in blocks that are held. -/
theorem Frames.reach {m' : Mem} (h : Frames c.heap.mem m' dir l) (hr : Reach c)
    (hdir : (dir, inodeSize) ∈ c.live) (hl : ∀ x ∈ l, (x, entrySize) ∈ c.live) :
    Reach (c.setMem m') := by
  refine hr.writes_held fun b hb => h b (fun x hx => hb _ (hl x hx)) ?_
  have hbd : b < dir ∨ dir + 56 ≤ b := hb _ hdir
  omega

/-- A directory again, once its entries are relinked. -/
theorem Frames.directory {m' : Mem} (h : Frames c.heap.mem m' dir l) (hr : Reach c)
    (hdir : (dir, inodeSize) ∈ c.live) (hl : ∀ x ∈ l, (x, entrySize) ∈ c.live)
    (ht : typeOf c.heap.mem dir = typeCode .directory) (hs : privateData c.heap.mem dir = dir)
    (hfirst : entries m' dir = l.headD 0) (hring : IsRing (next m') (prev m') l) :
    Directory (c.setMem m') dir l := by
  obtain ⟨ht', hs'⟩ := h.inode (placed_of_held hr hdir hl)
  exact ⟨h.reach hr hdir hl, hdir, ht'.trans ht, hs'.trans hs, hfirst, hring, hl⟩

/-- Linking a new entry keeps the directory and the names in it. -/
theorem Directory.addEntry (hd : Directory c dir l) (hx : (e, entrySize) ∈ c.live) (he : e ∉ l) :
    Directory (c.setMem (addEntry c.heap.mem dir e)) dir (l ++ [e]) ∧
      ∀ x ∈ l ++ [e], ∀ b, x ≤ b → b < x + 256 →
        RamfsBytes.addEntry c.heap.mem dir e b = c.heap.mem b := by
  have hblocks : ∀ x ∈ l ++ [e], (x, entrySize) ∈ c.live := by
    intro x hx'
    rcases List.mem_append.mp hx' with hm | hm
    · exact hd.blocks x hm
    · exact List.mem_singleton.mp hm ▸ hx
  have hp := placed_of_held hd.reach hd.held hblocks
  have hr := relinked_addEntry hp hd.ring hd.first he
  have hframes : Frames c.heap.mem (RamfsBytes.addEntry c.heap.mem dir e) dir (l ++ [e]) := by
    intro b hb hbd
    refine hr.frame b (fun x hx' => ?_) hbd
    have := hb x hx'
    omega
  refine ⟨hframes.directory hd.reach hd.held hblocks hd.type hd.self hr.first hr.ring,
    fun x hx' b hb hb' => ?_⟩
  refine hr.frame b (fun y hy => ?_) ?_
  · have := hp.apart x hx' y hy
    omega
  · have := hp.dir x hx'
    omega

/-! ## New inodes -/

theorem ramfsAllocInode_some {i : Nat} (h : ramfsAllocInode s type = some (i, s')) (h0 : i ≠ 0) :
    ∃ heap, kmalloc s.heap inodeSize = some (i, heap) ∧
      s' = ⟨{ heap with mem := initInode heap.mem i s.nextInode (typeCode type) },
        u32 (s.nextInode + 1)⟩ := by
  unfold ramfsAllocInode at h
  obtain ⟨⟨ramfsInode, heap⟩, hk, hs⟩ := Option.map_eq_some_iff.mp h
  by_cases hi : ramfsInode = 0
  · simp only [if_pos hi, Prod.mk.injEq] at hs
    exact absurd hs.1.symm h0
  · simp only [if_neg hi, Prod.mk.injEq] at hs
    obtain ⟨rfl, rfl⟩ := hs
    exact ⟨heap, hk, rfl⟩

/-- A new inode, in a client that goes on holding what it held. -/
theorem extends_allocInode (hr : Reach c) {i : Nat}
    (h : ramfsAllocInode ⟨c.heap, n⟩ type = some (i, s)) (h0 : i ≠ 0) :
    Extends c ⟨s.heap, (i, inodeSize) :: c.live⟩ := by
  obtain ⟨heap, hk, rfl⟩ := ramfsAllocInode_some h h0
  have he := (Extends.refl hr).kmalloc (by decide) hk h0
  refine he.writes List.mem_cons_self (fun q k hq => he.reach.fresh hq) fun a ha => ?_
  exact initInode_frame ha

/-- What `ramfs_alloc_inode` puts into the fields a directory is known by. -/
theorem fields_initInode {i inode type : Nat} (hi : i < 2 ^ 32) (ht : type < 2 ^ 32) :
    typeOf (initInode m i inode type) i = type ∧ privateData (initInode m i inode type) i = i := by
  constructor
  · unfold typeOf initInode
    repeat rw [read32_write32_ne (by omega)]
    rw [read32_write32, Nat.mod_eq_of_lt ht]
  · unfold privateData initInode
    repeat rw [read32_write32_ne (by omega)]
    rw [read32_write32, Nat.mod_eq_of_lt hi]

/-! ## The root -/

/-- `.` and `..` make a ring, and the inode keeps what is before its list. -/
theorem relinked_linkDots {dot dotdot : Nat} (hp : Placed dir [dot, dotdot]) (hne : dot ≠ dotdot) :
    IsRing (next (linkDots m dir dot dotdot)) (prev (linkDots m dir dot dotdot)) [dot, dotdot] ∧
      entries (linkDots m dir dot dotdot) dir = dot ∧
      Frames m (linkDots m dir dot dotdot) dir [dot, dotdot] := by
  have hdot : dot ∈ [dot, dotdot] := List.mem_cons_self
  have hdotdot : dotdot ∈ [dot, dotdot] := List.mem_cons_of_mem _ (List.mem_singleton_self _)
  have hd := hp.dir dot hdot
  have hdd := hp.dir dotdot hdotdot
  have hr := hp.range dot hdot
  have hrr := hp.range dotdot hdotdot
  have hapart := (hp.apart dot hdot dotdot hdotdot).resolve_left hne
  have hcopy : ∀ (m : Mem) (x : Nat) (nm : CString) (b : Nat), nm.bytes.length ≤ 255 →
      x + 268 < 2 ^ 32 → (b + 4 ≤ x ∨ x + 256 ≤ b) →
      read32 (strcpy m x nm) b = read32 m b := by
    intro m x nm b hnm hx hb
    exact readLE_congr fun a ha ha' => strcpy_entry_frame hnm hx (by omega)
  have hlen := Fs.dotName.fits
  have hlen' := Fs.dotdotName.fits
  refine ⟨isRing_pair hne ?_ ?_ ?_ ?_, ?_, fun b hb hbd => ?_⟩
  · unfold linkDots next setEntries setPrev setNext setInode
    rw [read32_write32_ne (by omega), read32_write32_ne (by omega), read32_write32_ne (by omega),
      read32_write32_ne (by omega), hcopy _ _ _ _ hlen' hrr.2 (by omega),
      read32_write32_ne (by omega), read32_write32, Nat.mod_eq_of_lt (by omega)]
  · unfold linkDots prev setEntries setPrev setNext setInode
    rw [read32_write32_ne (by omega), read32_write32_ne (by omega), read32_write32_ne (by omega),
      read32_write32_ne (by omega), hcopy _ _ _ _ hlen' hrr.2 (by omega), read32_write32,
      Nat.mod_eq_of_lt (by omega)]
  · unfold linkDots next setEntries setPrev setNext
    rw [read32_write32_ne (by omega), read32_write32_ne (by omega), read32_write32,
      Nat.mod_eq_of_lt (by omega)]
  · unfold linkDots prev setEntries setPrev
    rw [read32_write32_ne (by omega), read32_write32, Nat.mod_eq_of_lt (by omega)]
  · unfold linkDots entries setEntries
    rw [read32_write32, Nat.mod_eq_of_lt (by omega)]
  · have hbd' := hb dot hdot
    have hbdd := hb dotdot hdotdot
    unfold linkDots
    rw [setEntries_frame hbd, setPrev_frame (by omega), setNext_frame (by omega),
      setInode_frame (by omega), strcpy_entry_frame hlen' hrr.2 (by omega),
      setPrev_frame (by omega), setNext_frame (by omega), setInode_frame (by omega),
      strcpy_entry_frame hlen hr.2 (by omega)]

theorem holds_linkDots {dot dotdot : Nat} (hp : Placed dir [dot, dotdot]) (hne : dot ≠ dotdot) :
    Holds (linkDots m dir dot dotdot) dot Fs.dotName.bytes ∧
      Holds (linkDots m dir dot dotdot) dotdot Fs.dotdotName.bytes := by
  have hdot : dot ∈ [dot, dotdot] := List.mem_cons_self
  have hdotdot : dotdot ∈ [dot, dotdot] := List.mem_cons_of_mem _ (List.mem_singleton_self _)
  have hd := hp.dir dot hdot
  have hdd := hp.dir dotdot hdotdot
  have hr := hp.range dot hdot
  have hrr := hp.range dotdot hdotdot
  have hapart := (hp.apart dot hdot dotdot hdotdot).resolve_left hne
  have hlen := Fs.dotName.fits
  have hlen' := Fs.dotdotName.fits
  unfold linkDots
  constructor
  · refine (@holds_strcpy m dot Fs.dotName.toCString (by omega)).congr (by omega) fun a ha ha' => ?_
    rw [setEntries_frame (by omega), setPrev_frame (by omega), setNext_frame (by omega),
      setInode_frame (by omega), strcpy_entry_frame hlen' hrr.2 (by omega),
      setPrev_frame (by omega), setNext_frame (by omega), setInode_frame (by omega)]
  · have hdots := @holds_strcpy (setPrev (setNext (setInode (strcpy m dot Fs.dotName.toCString) dot
      dir) dot dotdot) dot dotdot) dotdot Fs.dotdotName.toCString (by omega)
    refine hdots.congr (by omega) fun a ha ha' => ?_
    rw [setEntries_frame (by omega), setPrev_frame (by omega), setNext_frame (by omega),
      setInode_frame (by omega)]

/-- Where the inode of a directory has `.` and `..` linked to it. -/
theorem directory_linkDots {dot dotdot : Nat} (hr : Reach c) (hdir : (dir, inodeSize) ∈ c.live)
    (hdot : (dot, entrySize) ∈ c.live) (hdotdot : (dotdot, entrySize) ∈ c.live)
    (hne : dot ≠ dotdot) (ht : typeOf c.heap.mem dir = typeCode .directory)
    (hself : privateData c.heap.mem dir = dir) :
    Directory (c.setMem (linkDots c.heap.mem dir dot dotdot)) dir [dot, dotdot] := by
  have hblocks : ∀ x ∈ [dot, dotdot], (x, entrySize) ∈ c.live :=
    List.forall_mem_cons.mpr ⟨hdot, List.forall_mem_singleton.mpr hdotdot⟩
  have hp := placed_of_held hr hdir hblocks
  obtain ⟨hring, hfirst, hframe⟩ := @relinked_linkDots c.heap.mem _ _ _ hp hne
  exact hframe.directory hr hdir hblocks ht hself hfirst hring

/-- The inode of a new root has `.` and `..` linked to it. -/
theorem directory_root {i dot dotdot : Nat} {heap heap' : Heap} (hr : Reach c)
    (ha : ramfsAllocInode ⟨c.heap, n⟩ .directory = some (i, s)) (hi : i ≠ 0)
    (hk : kmalloc s.heap entrySize = some (dot, heap)) (hd : dot ≠ 0)
    (hk' : kmalloc heap entrySize = some (dotdot, heap')) (hdd : dotdot ≠ 0) :
    Directory (Client.setMem ⟨heap', (dotdot, entrySize) :: (dot, entrySize) :: (i, inodeSize) ::
      c.live⟩ (linkDots heap'.mem i dot dotdot)) i [dot, dotdot] := by
  have hinode := (extends_allocInode hr ha hi).reach
  have hext := ((Extends.refl hinode).kmalloc (by decide) hk hd).kmalloc (by decide) hk' hdd
  obtain ⟨heap₀, -, rfl⟩ := ramfsAllocInode_some ha hi
  have hroot := hinode.bounds List.mem_cons_self
  simp only [kheapStart, kheapSize, inodeSize] at hroot
  obtain ⟨ht, hself⟩ := @fields_initInode heap₀.mem i n (typeCode .directory) (by omega) (by decide)
  have hkeeps : ∀ o, o + 4 ≤ inodeSize → read32 heap'.mem (i + o) =
      read32 (initInode heap₀.mem i n (typeCode .directory)) (i + o) := by
    intro o ho
    exact hext.read32 List.mem_cons_self ho
  have hne : dot ≠ dotdot := hext.reach.fresh List.mem_cons_self
  exact @directory_linkDots ⟨heap', (dotdot, entrySize) :: (dot, entrySize) :: (i, inodeSize) ::
    c.live⟩ i dot dotdot hext.reach (by simp) (by simp) (by simp) hne
    ((hkeeps 4 (by decide)).trans ht) ((hkeeps 36 (by decide)).trans hself)

/-- What a `ramfs_create_root` that returns an inode has done. -/
theorem ramfsCreateRoot_some {root : Nat} (h : ramfsCreateRoot s = some (root, s'))
    (h0 : root ≠ 0) :
    ∃ t dot heap dotdot heap', ramfsAllocInode s .directory = some (root, t) ∧
      kmalloc t.heap entrySize = some (dot, heap) ∧ dot ≠ 0 ∧
      kmalloc heap entrySize = some (dotdot, heap') ∧ dotdot ≠ 0 ∧
      s' = Ramfs.setMem ⟨heap', t.nextInode⟩ (linkDots heap'.mem root dot dotdot) := by
  have hno : ∀ t, some ((0 : Nat), t) ≠ some (root, s') := by
    intro t he
    simp only [Option.some.injEq, Prod.mk.injEq] at he
    exact h0 he.1.symm
  unfold ramfsCreateRoot at h
  cases ha : ramfsAllocInode s .directory with
  | none => simp only [ha, reduceCtorEq] at h
  | some r =>
    obtain ⟨i, t⟩ := r
    simp only [ha] at h
    by_cases hi : i = 0
    · rw [if_pos hi] at h
      exact absurd h (hno _)
    rw [if_neg hi] at h
    cases hk : kmalloc t.heap entrySize with
    | none => simp only [hk, reduceCtorEq] at h
    | some r =>
      obtain ⟨dot, heap⟩ := r
      simp only [hk] at h
      cases hk' : kmalloc heap entrySize with
      | none => simp only [hk', reduceCtorEq] at h
      | some r =>
        obtain ⟨dotdot, heap'⟩ := r
        simp only [hk'] at h
        by_cases hd : dot = 0 ∨ dotdot = 0
        · rw [if_pos hd] at h
          exact absurd h (hno _)
        rw [if_neg hd] at h
        obtain ⟨hd, hdd⟩ := not_or.mp hd
        simp only [Option.some.injEq, Prod.mk.injEq] at h
        obtain ⟨rfl, rfl⟩ := h
        exact ⟨t, dot, heap, dotdot, heap', rfl, hk, hd, hk', hdd, rfl⟩

/-- **The root is a directory** of `.` and `..`. -/
theorem createRoot_directory {root : Nat} (hr : Reach c)
    (h : ramfsCreateRoot ⟨c.heap, n⟩ = some (root, s')) (h0 : root ≠ 0) :
    ∃ dot dotdot,
      Directory ⟨s'.heap, (dotdot, entrySize) :: (dot, entrySize) :: (root, inodeSize) :: c.live⟩
        root [dot, dotdot] := by
  obtain ⟨t, dot, heap, dotdot, heap', ha, hk, hd, hk', hdd, rfl⟩ := ramfsCreateRoot_some h h0
  exact ⟨dot, dotdot, directory_root hr ha h0 hk hd hk' hdd⟩

theorem allocInode_room {top : Nat} (hr : Room c top) (hfit : top + 96 ≤ kheapStart + kheapSize) :
    ∃ s, ramfsAllocInode ⟨c.heap, n⟩ type = some (top + 16, s) ∧
      Room ⟨s.heap, (top + 16, inodeSize) :: c.live⟩ (top + 72) := by
  obtain ⟨heap, hk, hroom⟩ := hr.kmalloc (show inodeSize ≠ 0 by decide) (by decide) hfit
  have halloc : ramfsAllocInode ⟨c.heap, n⟩ type = some (top + 16,
      ⟨{ heap with mem := initInode heap.mem (top + 16) n (typeCode type) }, u32 (n + 1)⟩) := by
    unfold ramfsAllocInode
    rw [hk, Option.map_some]
    rfl
  refine ⟨_, halloc, hroom.writes_held fun a ha => ?_⟩
  exact initInode_frame (ha _ List.mem_cons_self)

theorem createRoot_eq {m : Ramfs} {i dot dotdot : Nat} {heap heap' : Heap}
    (ha : ramfsAllocInode m .directory = some (i, s)) (hi : i ≠ 0)
    (hk : kmalloc s.heap entrySize = some (dot, heap)) (hd : dot ≠ 0)
    (hk' : kmalloc heap entrySize = some (dotdot, heap')) (hdd : dotdot ≠ 0) :
    ramfsCreateRoot m = some (i, Ramfs.setMem ⟨heap', s.nextInode⟩
      (linkDots heap'.mem i dot dotdot)) := by
  unfold ramfsCreateRoot
  rw [ha]
  simp only
  rw [if_neg hi, hk]
  simp only
  rw [hk']
  simp only
  rw [if_neg (not_or.mpr ⟨hd, hdd⟩)]

/-- The root of a fresh heap, with room behind it. -/
theorem exists_root : ∃ c root dot dotdot s, Room c (kheapStart + 648) ∧
    ramfsCreateRoot ⟨initKheap fun _ => 0, 1⟩ = some (root, s) ∧ c.heap = s.heap ∧
    Directory c root [dot, dotdot] ∧ Holds c.heap.mem dot Fs.dotName.bytes ∧
    Holds c.heap.mem dotdot Fs.dotdotName.bytes := by
  obtain ⟨t, ha, hroom⟩ := @allocInode_room _ 1 .directory _ (Room.init fun _ => 0) (by decide)
  obtain ⟨heap, hk, hroom⟩ := hroom.kmalloc (show entrySize ≠ 0 by decide) (by decide) (by decide)
  obtain ⟨heap', hk', hroom⟩ := hroom.kmalloc (show entrySize ≠ 0 by decide) (by decide) (by decide)
  have hdir := directory_root (.init fun _ => 0) ha (by decide) hk (by decide) hk' (by decide)
  have hp := hdir.placed
  have hne := hdir.ring.nodup
  simp only [List.nodup_cons, List.mem_singleton] at hne
  obtain ⟨hdot, hdotdot⟩ := @holds_linkDots heap'.mem _ _ _ hp hne.1
  have hframe := (@relinked_linkDots heap'.mem _ _ _ hp hne.1).2.2
  have hcreate := createRoot_eq ha (by decide) hk (by decide) hk' (by decide)
  refine ⟨_, _, _, _, _, hroom.writes_held fun a hb => ?_, hcreate, rfl, hdir, hdot, hdotdot⟩
  refine hframe a (fun x hx => hb (x, entrySize) (hdir.blocks x hx)) ?_
  have hbd : a < kheapStart + 16 ∨ kheapStart + 16 + 56 ≤ a := hb _ hdir.held
  omega

end SynapseKernel.RamfsBytes
