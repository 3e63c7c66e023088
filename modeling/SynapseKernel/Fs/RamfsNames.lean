import SynapseKernel.Fs.RamfsRoot

/-! # Names in RamFS directories

The copy of a name into a new entry is not bounded. Up to 255 bytes it stays in the
name, the entry joins the ring (`create_directory`) and the name is found again; a
longer one runs over the links and on (`created_found_iff`). -/
namespace SynapseKernel.RamfsBytes
open SynapseKernel.Word SynapseKernel.ByteMemory SynapseKernel.Kheap SynapseKernel.Ring
open SynapseKernel.Str
open SynapseKernel.Fs (FileType)

/-- The name is stored whole in `char name[256]`, its copy stores to no other field of
the entry, and it is found. -/
structure FoundAgain (m : Mem) (dir entry : Nat) (name : CString) : Prop where
  fits : Holds m entry name.bytes ∧ name.bytes.length + 1 ≤ nameSize
  spares : ∀ m b, entry + nameSize ≤ b → b < entry + entrySize → strcpy m entry name b = m b
  found : ramfsFindEntry m dir name = some entry

variable {c : Client} {s' : Ramfs} {parent newInode newEntry n : Nat} {l : List Nat}
  {name : CString} {type : FileType}

/-! ## Creating an entry -/

/-- What a `ramfs_create` that returns `0` has done. -/
theorem ramfsCreate_some {s : Ramfs}
    (h : ramfsCreate s parent name type = some (newInode, newEntry, s')) (h0 : newInode ≠ 0) :
    ramfsFindEntry s.mem (privateData s.mem parent) name = some 0 ∧
      ∃ t heap, ramfsAllocInode s type = some (newInode, t) ∧
        kmalloc t.heap entrySize = some (newEntry, heap) ∧ newEntry ≠ 0 ∧
        s' = Ramfs.setMem ⟨heap, t.nextInode⟩
          (addEntry (setInode (strcpy heap.mem newEntry name) newEntry newInode)
            (privateData s.mem parent) newEntry) := by
  have hno : ∀ e t, some (0, e, t) ≠ some (newInode, newEntry, s') := by
    intro e t he
    simp only [Option.some.injEq, Prod.mk.injEq] at he
    exact h0 he.1.symm
  unfold ramfsCreate at h
  by_cases hty : typeOf s.mem parent ≠ typeCode .directory
  · rw [if_pos hty] at h
    exact absurd h (hno _ _)
  rw [if_neg hty] at h
  cases hf : ramfsFindEntry s.mem (privateData s.mem parent) name with
  | none => simp only [hf, reduceCtorEq] at h
  | some found =>
    simp only [hf] at h
    by_cases hfound : found ≠ 0
    · rw [if_pos hfound] at h
      exact absurd h (hno _ _)
    rw [if_neg hfound] at h
    refine ⟨congrArg some (not_not.mp hfound), ?_⟩
    cases ha : ramfsAllocInode s type with
    | none => simp only [ha, reduceCtorEq] at h
    | some r =>
      obtain ⟨i, t⟩ := r
      simp only [ha] at h
      by_cases hi : i = 0
      · rw [if_pos hi] at h
        exact absurd h (hno _ _)
      rw [if_neg hi] at h
      cases hk : kmalloc t.heap entrySize with
      | none => simp only [hk, reduceCtorEq] at h
      | some r =>
        obtain ⟨e, heap⟩ := r
        simp only [hk] at h
        by_cases he : e = 0
        · rw [if_pos he] at h
          exact absurd h (hno _ _)
        rw [if_neg he] at h
        simp only [Option.some.injEq, Prod.mk.injEq] at h
        obtain ⟨rfl, rfl, rfl⟩ := h
        exact ⟨t, heap, rfl, hk, he, rfl⟩

/-- The name was in no entry, and all but the stores to the new entry and its links
is as it was. -/
theorem create_stores (hd : Directory c parent l)
    (h : ramfsCreate ⟨c.heap, n⟩ parent name type = some (newInode, newEntry, s'))
    (h0 : newInode ≠ 0) :
    (∀ x ∈ l, ¬ Holds c.heap.mem x name.bytes) ∧
      ∃ t : Ramfs, Extends c ⟨t.heap, (newEntry, entrySize) :: (newInode, inodeSize) :: c.live⟩ ∧
        s' = t.setMem
          (addEntry (setInode (strcpy t.mem newEntry name) newEntry newInode) parent newEntry) := by
  obtain ⟨hf, t, heap, ha, hk, he, rfl⟩ := ramfsCreate_some h h0
  have hself : privateData (Ramfs.mem ⟨c.heap, n⟩) parent = parent := hd.self
  rw [hself] at hf ⊢
  constructor
  · rcases hd.find_cases name with ⟨pre, x, post, rfl, -, -, hx⟩ | ⟨hnone, -⟩
    · have hx0 := (hd.placed.range x (List.mem_append_right _ List.mem_cons_self)).1
      cases hf.symm.trans hx
      exact absurd hx0 (Nat.lt_irrefl 0)
    · exact hnone
  · exact ⟨⟨heap, t.nextInode⟩, (extends_allocInode hd.reach ha h0).kmalloc (by decide) hk he, rfl⟩

/-- **A name of up to 255 bytes joins the directory**, and no other name changes. -/
theorem create_directory (hd : Directory c parent l)
    (h : ramfsCreate ⟨c.heap, n⟩ parent name type = some (newInode, newEntry, s'))
    (h0 : newInode ≠ 0) (hname : name.bytes.length ≤ 255) :
    Directory ⟨s'.heap, (newEntry, entrySize) :: (newInode, inodeSize) :: c.live⟩ parent
        (l ++ [newEntry]) ∧
      Holds s'.mem newEntry name.bytes ∧
      ∀ x ∈ l, Holds s'.mem x name.bytes → Holds c.heap.mem x name.bytes := by
  obtain ⟨-, t, hext, rfl⟩ := create_stores hd h h0
  have hnew : (newEntry, entrySize) ∈
      (newEntry, entrySize) :: (newInode, inodeSize) :: c.live := List.mem_cons_self
  have hfresh : ∀ q k, (q, k) ∈ c.live → q ≠ newEntry := fun q k hq =>
    hext.reach.fresh (List.mem_cons_of_mem _ hq)
  have hrange := hext.reach.bounds hnew
  simp only [kheapStart, kheapSize, entrySize] at hrange
  -- the copy and the store of the inode stay in the new entry
  have hcopy : Extends c (Client.setMem ⟨t.heap, (newEntry, entrySize) :: (newInode, inodeSize) ::
      c.live⟩ (setInode (strcpy t.mem newEntry name) newEntry newInode)) := by
    refine hext.writes hnew hfresh fun a ha => ?_
    have ha' : a < newEntry ∨ newEntry + 268 ≤ a := ha
    rw [setInode_frame (by omega), strcpy_entry_frame hname (by omega) (by omega)]
  have hnl : newEntry ∉ l := fun hm => hfresh _ _ (hd.blocks _ hm) rfl
  obtain ⟨hdir, hnames⟩ := (hd.extend hcopy).addEntry hnew hnl
  have hkeeps := hcopy.keeps
  simp only [Client.setMem_mem] at hnames hkeeps
  simp only [Ramfs.setMem_mem]
  refine ⟨hdir, ?_, fun x hx hh => ?_⟩
  · have hstored := @holds_strcpy t.mem newEntry name (by omega)
    refine hstored.congr (by omega) fun a ha ha' => ?_
    refine (hnames newEntry (List.mem_append_right _ (List.mem_singleton_self _)) a ha
      (by omega)).trans ?_
    exact setInode_frame (by omega)
  · have hxr := (hd.placed.range x hx).2
    refine hh.congr (by omega) fun a ha ha' => ?_
    refine ((hnames x (List.mem_append_left _ hx) a ha (by omega)).trans ?_).symm
    exact hkeeps x entrySize a (hd.blocks x hx) ha (Nat.lt_of_le_of_lt ha' (by
      simp only [entrySize]
      omega))

/-- **A created name is found again exactly when it has at most 255 bytes.** -/
theorem created_found_iff (hd : Directory c parent l)
    (h : ramfsCreate ⟨c.heap, n⟩ parent name type = some (newInode, newEntry, s'))
    (h0 : newInode ≠ 0) :
    FoundAgain s'.mem parent newEntry name ↔ name.bytes.length ≤ 255 := by
  constructor
  · intro hfound
    exact Nat.le_of_succ_le_succ hfound.fits.2
  · intro hname
    obtain ⟨hnone, -⟩ := create_stores hd h h0
    obtain ⟨hdir, hstored, hothers⟩ := create_directory hd h h0 hname
    have hnew := hdir.placed.range newEntry (List.mem_append_right _ (List.mem_singleton_self _))
    refine ⟨⟨hstored, Nat.succ_le_succ hname⟩, fun m b hb _ => ?_, ?_⟩
    · exact strcpy_entry_frame hname hnew.2 (.inr hb)
    · rcases hdir.find_cases name with ⟨pre, x, post, he, hx, -, hf⟩ | ⟨hno, -⟩
      · -- the entries before it do not hold the name
        have hxm : x ∈ l ++ [newEntry] := he ▸ List.mem_append_right _ List.mem_cons_self
        rcases List.mem_append.mp hxm with hm | hm
        · exact absurd (hothers x hm hx) (hnone x hm)
        · rwa [List.mem_singleton.mp hm] at hf
      · exact absurd hstored (hno _ (List.mem_append_right _ (List.mem_singleton_self _)))

/-! ## Running it -/

/-- The letter `a`, `k` times. -/
def letters (k : Nat) : CString :=
  ⟨List.replicate k 97, fun h => absurd (List.eq_of_mem_replicate h) (by decide)⟩

theorem length_letters (k : Nat) : (letters k).bytes.length = k := List.length_replicate

/-- A name that no entry has is created while there is room. -/
theorem create_room {top : Nat} (hr : Room c top) (hd : Directory c parent l)
    (hno : ∀ x ∈ l, ¬ Holds c.heap.mem x name.bytes)
    (hfit : top + 384 ≤ kheapStart + kheapSize) :
    ∃ newInode newEntry s, newInode ≠ 0 ∧
      ramfsCreate ⟨c.heap, n⟩ parent name type = some (newInode, newEntry, s) := by
  obtain ⟨t, ha, hroom⟩ := @allocInode_room c n type top hr (by omega)
  obtain ⟨heap, hk, -⟩ := hroom.kmalloc (show entrySize ≠ 0 by decide) (by decide) hfit
  refine ⟨top + 16, top + 72 + headerSize, Ramfs.setMem ⟨heap, t.nextInode⟩ (addEntry (setInode
    (strcpy heap.mem (top + 72 + headerSize) name) (top + 72 + headerSize) (top + 16)) parent
    (top + 72 + headerSize)), by omega, ?_⟩
  have hf : ramfsFindEntry c.heap.mem parent name = some 0 := by
    rcases hd.find_cases name with ⟨pre, x, post, he, hx, -⟩ | ⟨-, hf⟩
    · exact absurd hx (hno x (he ▸ List.mem_append_right _ List.mem_cons_self))
    · exact hf
  unfold ramfsCreate
  simp only [hd.self, hf, ha, hk]
  rw [if_neg (not_not.mpr hd.type), if_neg (not_not.mpr rfl), if_neg (by omega), if_neg (by omega)]

/-- A name with another first letter than the dots can be created in the root. -/
theorem create_in_root (k : Nat) (type : FileType) :
    ∃ c parent l newInode newEntry s, Directory c parent l ∧ newInode ≠ 0 ∧
      ramfsCreate ⟨c.heap, 2⟩ parent (letters (k + 1)) type = some (newInode, newEntry, s) := by
  obtain ⟨c, root, dot, dotdot, -, hroom, -, -, hdir, hdot, hdotdot⟩ := exists_root
  have hfirst : ∀ x, char c.heap.mem x = 46 → ¬ Holds c.heap.mem x (letters (k + 1)).bytes := by
    intro x hx hh
    have hx' : char c.heap.mem x = 97 := hh.1
    rw [hx] at hx'
    exact absurd hx' (by decide)
  have hno : ∀ x ∈ [dot, dotdot], ¬ Holds c.heap.mem x (letters (k + 1)).bytes :=
    List.forall_mem_cons.mpr
      ⟨hfirst dot hdot.1, List.forall_mem_singleton.mpr (hfirst dotdot hdotdot.1)⟩
  obtain ⟨newInode, newEntry, s, h0, hs⟩ := @create_room c root 2 _ _ type _ hroom hdir hno
    (by decide)
  exact ⟨c, root, _, newInode, newEntry, s, hdir, h0, hs⟩

theorem created_found_iff_letter : ∃ c parent l newInode newEntry s,
    Directory c parent l ∧ newInode ≠ 0 ∧
      ramfsCreate ⟨c.heap, 2⟩ parent (letters 1) .regular = some (newInode, newEntry, s) ∧
      (FoundAgain s.mem parent newEntry (letters 1) ↔ (letters 1).bytes.length ≤ 255) := by
  obtain ⟨c, parent, l, newInode, newEntry, s, hdir, h0, hs⟩ := create_in_root 0 .regular
  exact ⟨c, parent, l, newInode, newEntry, s, hdir, h0, hs, created_found_iff hdir hs h0⟩

/-- A name of 256 letters is created, and its NUL goes to the `inode` of the entry. -/
theorem long_name_not_found : ∃ c parent l newInode newEntry s,
    Directory c parent l ∧ newInode ≠ 0 ∧
      ramfsCreate ⟨c.heap, 2⟩ parent (letters 256) .regular = some (newInode, newEntry, s) ∧
      strcpy (fun _ => 1) newEntry (letters 256) (newEntry + nameSize) = 0 ∧
      ¬ FoundAgain s.mem parent newEntry (letters 256) := by
  obtain ⟨c, parent, l, newInode, newEntry, s, hdir, h0, hs⟩ := create_in_root 255 .regular
  obtain ⟨-, t, hext, -⟩ := create_stores hdir hs h0
  have hrange := hext.reach.bounds List.mem_cons_self
  simp only [kheapStart, kheapSize, entrySize] at hrange
  have hnul := (@holds_strcpy (fun _ => 1) newEntry (letters 256)
    (by rw [length_letters]; omega)).nul
  rw [length_letters, char, u32_of_lt (by omega)] at hnul
  refine ⟨c, parent, l, newInode, newEntry, s, hdir, h0, hs, hnul, fun hfound => ?_⟩
  have hspared := hfound.spares (fun _ => 1) (newEntry + 256) (Nat.le_refl _)
    (by simp only [entrySize]; omega)
  rw [hnul] at hspared
  exact absurd hspared (by decide)

end SynapseKernel.RamfsBytes
