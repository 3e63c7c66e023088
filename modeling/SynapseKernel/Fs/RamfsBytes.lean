import SynapseKernel.Fs.Ramfs
import SynapseKernel.Mm.KheapPayload
import SynapseKernel.Str.Strcpy

/-! # RamFS in memory (kernel/fs/ramfs.c)

The directory operations on the bytes of the kernel heap, every store at its
offset and in the order of the source, so that a copy that runs over the end of
a name does here what it does in the machine. -/
namespace SynapseKernel.RamfsBytes
open SynapseKernel.Word SynapseKernel.ByteMemory SynapseKernel.Kheap SynapseKernel.Ring
open SynapseKernel.Str
open SynapseKernel.Fs (FileType)

/-- The statics of ramfs.c and the heap. -/
structure Ramfs where
  heap : Heap
  nextInode : Nat

abbrev Ramfs.mem (s : Ramfs) : Mem := s.heap.mem

def Ramfs.setMem (s : Ramfs) (m : Mem) : Ramfs := { s with heap := { s.heap with mem := m } }

@[simp] theorem Ramfs.setMem_mem (s : Ramfs) (m : Mem) : (s.setMem m).mem = m := rfl

/-- The enumerators of `file_type_t` count from `0`. -/
def typeCode : FileType → Nat
  | .regular => 0
  | .directory => 1
  | .charDevice => 2
  | .blockDevice => 3
  | .symlink => 4
  | .socket => 5
  | .fifo => 6

/-! ## Fields -/

/-- `inode->type`. -/
def typeOf (m : Mem) (inode : Nat) : Nat := read32 m (inode + 4)
/-- `inode->private_data`. -/
def privateData (m : Mem) (inode : Nat) : Nat := read32 m (inode + 36)
/-- `dir_inode->entries`. -/
def entries (m : Mem) (dirInode : Nat) : Nat := read32 m (dirInode + 40)
def setEntries (m : Mem) (dirInode v : Nat) : Mem := write32 m (dirInode + 40) v

/-- `char name[256]` comes first. -/
abbrev nameSize : Nat := 256

/-- `entry->inode`. -/
def setInode (m : Mem) (entry v : Nat) : Mem := write32 m (entry + 256) v
/-- `entry->next`. -/
def next (m : Mem) (entry : Nat) : Nat := read32 m (entry + 260)
def setNext (m : Mem) (entry v : Nat) : Mem := write32 m (entry + 260) v
/-- `entry->prev`. -/
def prev (m : Mem) (entry : Nat) : Nat := read32 m (entry + 264)
def setPrev (m : Mem) (entry v : Nat) : Mem := write32 m (entry + 264) v

abbrev inodeSize : Nat := 56
abbrev entrySize : Nat := 268

/-! ## The functions -/

/-- The stores of `ramfs_alloc_inode`, in its order. -/
def initInode (m : Mem) (ramfsInode inode type : Nat) : Mem :=
  let m := write32 m ramfsInode inode
  let m := write32 m (ramfsInode + 4) type
  let m := write32 m (ramfsInode + 8) 0
  let m := write32 m (ramfsInode + 12) 0o755
  let m := write32 m (ramfsInode + 16) 0
  let m := write32 m (ramfsInode + 20) 0
  let m := write32 m (ramfsInode + 24) 0
  let m := write32 m (ramfsInode + 28) 0
  let m := write32 m (ramfsInode + 32) 0
  let m := write32 m (ramfsInode + 36) ramfsInode
  let m := write32 m (ramfsInode + 40) 0
  let m := write32 m (ramfsInode + 44) 0
  let m := write32 m (ramfsInode + 48) 0
  write32 m (ramfsInode + 52) 0

def ramfsAllocInode (s : Ramfs) (type : FileType) : Option (Nat × Ramfs) :=
  (kmalloc s.heap inodeSize).map fun (ramfsInode, heap) =>
    if ramfsInode = 0 then (0, { s with heap := heap })
    else
      (ramfsInode,
        { heap := { heap with mem := initInode heap.mem ramfsInode s.nextInode (typeCode type) }
          nextInode := u32 (s.nextInode + 1) })

/-- The entries `.` and `..` of the root. -/
def linkDots (m : Mem) (root dotEntry dotdotEntry : Nat) : Mem :=
  let m := strcpy m dotEntry Fs.dotName.toCString
  let m := setInode m dotEntry root
  let m := setNext m dotEntry dotdotEntry
  let m := setPrev m dotEntry dotdotEntry
  let m := strcpy m dotdotEntry Fs.dotdotName.toCString
  let m := setInode m dotdotEntry root
  let m := setNext m dotdotEntry dotEntry
  let m := setPrev m dotdotEntry dotEntry
  setEntries m root dotEntry

def Ramfs.kfree (s : Ramfs) (p : Nat) : Ramfs := { s with heap := Kheap.kfree s.heap p }

/-- The new root, `0` when an allocation fails. -/
def ramfsCreateRoot (s : Ramfs) : Option (Nat × Ramfs) :=
  match ramfsAllocInode s .directory with
  | none => none
  | some (root, s) =>
    if root = 0 then some (0, s)
    else
      match kmalloc s.heap entrySize with
      | none => none
      | some (dotEntry, heap) =>
        match kmalloc heap entrySize with
        | none => none
        | some (dotdotEntry, heap) =>
          let s := { s with heap := heap }
          if dotEntry = 0 ∨ dotdotEntry = 0 then
            some (0, ((s.kfree dotEntry).kfree dotdotEntry).kfree root)
          else some (root, s.setMem (linkDots s.mem root dotEntry dotdotEntry))

/-- The entry of this name, `0` if there is none. -/
def ramfsFindEntry (m : Mem) (dirInode : Nat) (name : CString) : Option Nat :=
  if entries m dirInode = 0 then some 0
  else
    match Ring.walk (Search.search fun entry => strcmpAt m entry name = 0) (next m)
        (entries m dirInode) walkFuel (entries m dirInode) () with
    | none => none
    | some (.error entry) => some entry
    | some (.ok ()) => some 0

/-- The new entry goes before the first one, which stays the first. -/
def addEntry (m : Mem) (dir newEntry : Nat) : Mem :=
  if entries m dir ≠ 0 then
    let m := setNext m newEntry (entries m dir)
    let m := setPrev m newEntry (prev m (entries m dir))
    let m := setNext m (prev m (entries m dir)) newEntry
    setPrev m (entries m dir) newEntry
  else
    let m := setNext m newEntry newEntry
    let m := setPrev m newEntry newEntry
    setEntries m dir newEntry

/-- The new inode and the new entry where the source returns `0`; where it returns
`-1`, the inode is `0`. -/
def ramfsCreate (s : Ramfs) (parent : Nat) (name : CString) (type : FileType) :
    Option (Nat × Nat × Ramfs) :=
  let dir := privateData s.mem parent
  if typeOf s.mem parent ≠ typeCode .directory then some (0, 0, s)
  else
    match ramfsFindEntry s.mem dir name with
    | none => none
    | some found =>
      if found ≠ 0 then some (0, 0, s)
      else
        match ramfsAllocInode s type with
        | none => none
        | some (newInode, s) =>
          if newInode = 0 then some (0, 0, s)
          else
            match kmalloc s.heap entrySize with
            | none => none
            | some (newEntry, heap) =>
              let s := { s with heap := heap }
              if newEntry = 0 then some (0, 0, s.kfree newInode)
              else
                let m := strcpy s.mem newEntry name
                let m := setInode m newEntry newInode
                some (newInode, newEntry, s.setMem (addEntry m dir newEntry))

/-! ## What a store to a field changes -/

/-- The entries `nodes` and the inode `dir` share no memory and end below 4 GiB. -/
structure Placed (dir : Nat) (nodes : List Nat) : Prop where
  apart : ∀ x ∈ nodes, ∀ y ∈ nodes, x = y ∨ x + 268 ≤ y ∨ y + 268 ≤ x
  dir : ∀ x ∈ nodes, dir + 56 ≤ x ∨ x + 268 ≤ dir
  range : ∀ x ∈ nodes, 0 < x ∧ x + 268 < 2 ^ 32

section Stores
variable {m : Mem} {dir x y v b : Nat} {l : List Nat}

/-- A store to the field at offset `k` of one entry, seen from the same field of
another. -/
theorem read32_field (h : x = y ∨ x + 268 ≤ y ∨ y + 268 ≤ x) (k : Nat) (hv : v < 2 ^ 32) :
    read32 (write32 m (x + k) v) (y + k) = if y = x then v else read32 m (y + k) := by
  by_cases hyx : y = x
  · rw [if_pos hyx, hyx, read32_write32, Nat.mod_eq_of_lt hv]
  · rw [if_neg hyx, read32_write32_ne (by omega)]

/-- Seen from another field. -/
theorem read32_otherField (h : x = y ∨ x + 268 ≤ y ∨ y + 268 ≤ x) {j k : Nat}
    (hj : j + 4 ≤ 268) (hk : k + 4 ≤ 268) (hne : j + 4 ≤ k ∨ k + 4 ≤ j) :
    read32 (write32 m (x + j) v) (y + k) = read32 m (y + k) :=
  read32_write32_ne (by omega)

theorem next_setNext (h : x = y ∨ x + 268 ≤ y ∨ y + 268 ≤ x) (hv : v < 2 ^ 32) :
    next (setNext m x v) y = if y = x then v else next m y :=
  read32_field h _ hv

theorem prev_setPrev (h : x = y ∨ x + 268 ≤ y ∨ y + 268 ≤ x) (hv : v < 2 ^ 32) :
    prev (setPrev m x v) y = if y = x then v else prev m y :=
  read32_field h _ hv

theorem next_setPrev (h : x = y ∨ x + 268 ≤ y ∨ y + 268 ≤ x) :
    next (setPrev m x v) y = next m y :=
  read32_otherField h (by decide) (by decide) (by decide)

theorem prev_setNext (h : x = y ∨ x + 268 ≤ y ∨ y + 268 ≤ x) :
    prev (setNext m x v) y = prev m y :=
  read32_otherField h (by decide) (by decide) (by decide)

theorem entries_setNext (h : dir + 56 ≤ x ∨ x + 268 ≤ dir) :
    entries (setNext m x v) dir = entries m dir := by
  unfold entries setNext
  exact read32_write32_ne (by omega)

theorem entries_setPrev (h : dir + 56 ≤ x ∨ x + 268 ≤ dir) :
    entries (setPrev m x v) dir = entries m dir := by
  unfold entries setPrev
  exact read32_write32_ne (by omega)

theorem setInode_frame (h : b < x + 256 ∨ x + 260 ≤ b) : setInode m x v b = m b :=
  writeLE_frame (by omega)

theorem setNext_frame (h : b < x + 260 ∨ x + 264 ≤ b) : setNext m x v b = m b :=
  writeLE_frame (by omega)

theorem setPrev_frame (h : b < x + 264 ∨ x + 268 ≤ b) : setPrev m x v b = m b :=
  writeLE_frame (by omega)

theorem setEntries_frame (h : b < x + 40 ∨ x + 44 ≤ b) : setEntries m x v b = m b :=
  writeLE_frame (by omega)

theorem initInode_frame {inode type : Nat} (h : b < x ∨ x + 56 ≤ b) :
    initInode m x inode type b = m b := by
  unfold initInode write32
  repeat rw [writeLE_frame (by omega)]

/-- The name ends before the first byte that is stored to. -/
theorem strcpy_entry_frame {name : CString} (hname : name.bytes.length ≤ 255)
    (hx : x + 268 < 2 ^ 32) (h : b < x ∨ x + 256 ≤ b) : strcpy m x name b = m b :=
  strcpy_frame (by omega) (by omega)

/-! ## The ring of a directory -/

/-- In `m'` the ring of the directory is `nodes`, and only links differ from `m`. -/
structure Relinked (m m' : Mem) (dir : Nat) (nodes : List Nat) : Prop where
  ring : IsRing (next m') (prev m') nodes
  first : entries m' dir = nodes.headD 0
  frame : ∀ b, (∀ x ∈ nodes, b < x + 260 ∨ x + 268 ≤ b) → (b < dir + 40 ∨ dir + 44 ≤ b) →
    m' b = m b

theorem addEntry_nil (h0 : entries m dir = 0) :
    addEntry m dir x = setEntries (setPrev (setNext m x x) x x) dir x := by
  unfold addEntry
  exact if_neg (not_not.mpr h0)

/-- The first entry is its own neighbour. -/
theorem relinked_addEntry_nil (hp : Placed dir [x]) (h0 : entries m dir = 0) :
    Relinked m (addEntry m dir x) dir [x] := by
  have hx := List.mem_singleton_self x
  have hdir := hp.dir x hx
  have hrange := hp.range x hx
  rw [addEntry_nil h0]
  refine ⟨isRing_singleton ?_ ?_, ?_, fun b hb hbd => ?_⟩
  · have hkeep : next (setEntries (setPrev (setNext m x x) x x) dir x) x =
        next (setPrev (setNext m x x) x x) x := by
      unfold next setEntries
      exact read32_write32_ne (by omega)
    rw [hkeep, next_setPrev (.inl rfl), next_setNext (.inl rfl) (by omega), if_pos rfl]
  · have hkeep : prev (setEntries (setPrev (setNext m x x) x x) dir x) x =
        prev (setPrev (setNext m x x) x x) x := by
      unfold prev setEntries
      exact read32_write32_ne (by omega)
    rw [hkeep, prev_setPrev (.inl rfl) (by omega), if_pos rfl]
  · unfold entries setEntries
    rw [read32_write32, Nat.mod_eq_of_lt (by omega), List.headD_cons]
  · have hbx := hb x hx
    rw [setEntries_frame hbd, setPrev_frame (by omega), setNext_frame (by omega)]

theorem addEntry_cons {a : Nat} (hp : Placed dir [a, prev m a, x]) (ha : entries m dir = a) :
    addEntry m dir x =
      setPrev (setNext (setPrev (setNext m x a) x (prev m a)) (prev m a) x) a x := by
  have hx : x ∈ [a, prev m a, x] := by simp
  have haN : a ∈ [a, prev m a, x] := by simp
  have hz : prev m a ∈ [a, prev m a, x] := by simp
  have hdirx := hp.dir x hx
  have hdirz := hp.dir _ hz
  have hne : entries m dir ≠ 0 := by
    have := (hp.range a haN).1
    omega
  have hlt : prev m a < 2 ^ 32 := read32_lt m (a + 264)
  have hpa : prev (setNext m x a) a = prev m a := prev_setNext (hp.apart x hx a haN)
  have hpa' : prev (setPrev (setNext m x a) x (prev m a)) a = prev m a := by
    rw [prev_setPrev (hp.apart x hx a haN) hlt, hpa, ite_self]
  unfold addEntry
  rw [if_pos hne]
  simp only [ha, entries_setNext hdirx, entries_setPrev hdirx, hpa, hpa', entries_setNext hdirz]

/-- Any other goes between the last entry and the first. -/
theorem relinked_addEntry_cons {a : Nat} (hp : Placed dir (a :: l ++ [x]))
    (hring : IsRing (next m) (prev m) (a :: l)) (ha : entries m dir = a) (hx : x ∉ a :: l) :
    Relinked m (addEntry m dir x) dir (a :: l ++ [x]) := by
  obtain ⟨hlast, -⟩ := hring.getLast?_eq
  have hz : prev m a ∈ a :: l := List.mem_of_getLast? hlast
  have hxN : x ∈ a :: l ++ [x] := List.mem_append_right _ (List.mem_singleton_self x)
  have haN : a ∈ a :: l ++ [x] := List.mem_append_left _ List.mem_cons_self
  have hzN : prev m a ∈ a :: l ++ [x] := List.mem_append_left _ hz
  have hzx : prev m a ≠ x := fun h => hx (h ▸ hz)
  have hax : a ≠ x := fun h => hx (h ▸ List.mem_cons_self)
  have hsub : ∀ y ∈ [a, prev m a, x], y ∈ a :: l ++ [x] := by
    intro y hy
    simp only [List.mem_cons, List.not_mem_nil, or_false] at hy
    rcases hy with rfl | rfl | rfl
    · exact haN
    · exact hzN
    · exact hxN
  have hp' : Placed dir [a, prev m a, x] :=
    ⟨fun y hy z hz => hp.apart y (hsub y hy) z (hsub z hz), fun y hy => hp.dir y (hsub y hy),
      fun y hy => hp.range y (hsub y hy)⟩
  have hlt : ∀ y ∈ a :: l ++ [x], y < 2 ^ 32 := by
    intro y hy
    have := (hp.range y hy).2
    omega
  rw [addEntry_cons hp' ha]
  refine ⟨?_, ?_, fun b hb hbd => ?_⟩
  · have hinsert : IsRing (fun y => if y = prev m a then x else if y = x then a else next m y)
        (fun y => if y = a then x else if y = x then prev m a else prev m y) (a :: l ++ [x]) := by
      refine hring.insert hx ⟨?_, ?_, ?_, ?_, fun y hyx hyz => ?_, fun y hyx hya => ?_⟩
      · rw [if_neg (Ne.symm hzx), if_pos rfl]
      · rw [if_neg (Ne.symm hax), if_pos rfl]
      · exact if_pos rfl
      · exact if_pos rfl
      · rw [if_neg hyz, if_neg hyx]
      · rw [if_neg hya, if_neg hyx]
    refine hinsert.congr fun y hy => ⟨?_, ?_⟩
    · rw [next_setPrev (hp.apart a haN y hy), next_setNext (hp.apart _ hzN y hy) (hlt x hxN),
        next_setPrev (hp.apart x hxN y hy), next_setNext (hp.apart x hxN y hy) (hlt a haN)]
    · rw [prev_setPrev (hp.apart a haN y hy) (hlt x hxN), prev_setNext (hp.apart _ hzN y hy),
        prev_setPrev (hp.apart x hxN y hy) (hlt _ hzN), prev_setNext (hp.apart x hxN y hy)]
  · rw [entries_setPrev (hp.dir a haN), entries_setNext (hp.dir _ hzN),
      entries_setPrev (hp.dir x hxN), entries_setNext (hp.dir x hxN), ha, List.cons_append,
      List.headD_cons]
  · have hbx := hb x hxN
    have hba := hb a haN
    have hbz := hb _ hzN
    rw [setPrev_frame (by omega), setNext_frame (by omega), setPrev_frame (by omega),
      setNext_frame (by omega)]

/-- **A new entry goes to the end of the ring.** -/
theorem relinked_addEntry (hp : Placed dir (l ++ [x])) (hring : IsRing (next m) (prev m) l)
    (hfirst : entries m dir = l.headD 0) (hx : x ∉ l) :
    Relinked m (addEntry m dir x) dir (l ++ [x]) := by
  cases l with
  | nil => exact relinked_addEntry_nil hp hfirst
  | cons a l => exact relinked_addEntry_cons hp hring hfirst hx

end Stores

end SynapseKernel.RamfsBytes
