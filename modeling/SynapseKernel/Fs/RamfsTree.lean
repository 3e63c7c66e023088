import SynapseKernel.Fs.Ramfs

/-! # The inodes of a RamFS

`Forest` is what every operation preserves. Beside the pointers it keeps the
list of the entries of each directory and what each block is for (`Role`): an
inode knows the entry it is linked by, so it is linked once. What an operation
does not touch is framed by `NodeOk.frame`. -/
namespace SynapseKernel.Fs
open SynapseKernel.Word SynapseKernel.Kheap SynapseKernel.Blocks SynapseKernel.Str
open SynapseKernel.Ring

/-- What a block is for. An inode is linked by `entry` of the directory `parent`. -/
inductive Role
  | spare
  | inode (parent entry : Nat)
  | entry (dir : Nat)
  | dot (dir : Nat)
  | data (inode : Nat)

variable {s s' : Ramfs} {d e i : Nat} {q : Nat → List Nat} {role role' : Nat → Role}
  {l m : List Nat}

/-- The inode was made and is not freed. -/
def LiveInode (s : Ramfs) (i : Nat) : Prop := i ∈ s.made ∧ s.heap.Live i

/-- An entry made as `.` or `..` refers to the directory itself or to its parent. -/
structure DotOk (s : Ramfs) (role : Nat → Role) (d e : Nat) : Prop where
  dot : e ∈ s.dots
  marked : role e = .dot d
  made : (s.entries e).inode ∈ s.made
  directory : (s.inodes (s.entries e).inode).type = .directory
  refers : (s.entries e).name = dotName ∧ (s.entries e).inode = d ∨
    (s.entries e).name = dotdotName ∧ ∃ f, role d = .inode (s.entries e).inode f

/-- Any other entry refers to an inode made later that is linked nowhere else. -/
structure ChildOk (s : Ramfs) (role : Nat → Role) (d e : Nat) : Prop where
  proper : e ∉ s.dots
  marked : role e = .entry d
  live : LiveInode s (s.entries e).inode
  linked : role (s.entries e).inode = .inode d e
  newer : d < (s.entries e).inode

/-- A live inode, where `l` are its entries. -/
structure NodeOk (s : Ramfs) (role : Nat → Role) (l : List Nat) (i : Nat) : Prop where
  marked : ∃ parent entry, role i = .inode parent entry
  self : (s.inodes i).privateData = i
  head : (s.inodes i).entries = l.headD 0
  ring : IsRing s.next s.prev l
  names : (l.map fun e => (s.entries e).name).Nodup
  live : ∀ e ∈ l, s.heap.Live e
  entry : ∀ e ∈ l, DotOk s role i e ∨ ChildOk s role i e
  data : (s.inodes i).data ≠ 0 →
    s.heap.Live (s.inodes i).data ∧ role (s.inodes i).data = .data i

structure Forest (s : Ramfs) (q : Nat → List Nat) (role : Nat → Role) : Prop where
  sane : s.heap.Sane
  made : ∀ i ∈ s.made, i ≤ s.heap.requests
  dots : ∀ e ∈ s.dots, ∃ d, role e = .dot d
  spare : ∀ p, s.heap.requests < p → role p = .spare
  node : ∀ i, LiveInode s i → NodeOk s role (q i) i

/-! ## What the invariant says of two blocks -/

theorem NodeOk.ne_spare (h : NodeOk s role l i) : role i ≠ .spare := by
  obtain ⟨parent, entry, hr⟩ := h.marked
  rw [hr]
  exact fun he => nomatch he

theorem NodeOk.entry_role (h : NodeOk s role l i) (he : e ∈ l) :
    role e = .dot i ∨ role e = .entry i :=
  (h.entry e he).imp DotOk.marked ChildOk.marked

/-- An entry is in one directory only. -/
theorem NodeOk.apart {j : Nat} (hi : NodeOk s role l i) (hj : NodeOk s role m j) (hel : e ∈ l)
    (hem : e ∈ m) : i = j := by
  rcases hi.entry_role hel with hri | hri <;> rcases hj.entry_role hem with hrj | hrj <;>
    rw [hri] at hrj
  · exact Role.dot.inj hrj
  · cases hrj
  · cases hrj
  · exact Role.entry.inj hrj

theorem NodeOk.entry_ne_inode {j : Nat} (hi : NodeOk s role l i) (hj : NodeOk s role m j)
    (he : e ∈ l) : e ≠ j := by
  rintro rfl
  obtain ⟨parent, entry, hr⟩ := hj.marked
  rcases hi.entry_role he with hr' | hr' <;> rw [hr] at hr' <;> cases hr'

theorem NodeOk.data_ne_inode {j : Nat} (hi : NodeOk s role l i) (hj : NodeOk s role m j)
    (h0 : (s.inodes i).data ≠ 0) : (s.inodes i).data ≠ j := by
  intro he
  obtain ⟨parent, entry, hr⟩ := hj.marked
  have hr' := (hi.data h0).2
  rw [he, hr] at hr'
  cases hr'

theorem NodeOk.data_ne_entry {j : Nat} (hi : NodeOk s role l i) (hj : NodeOk s role m j)
    (h0 : (s.inodes i).data ≠ 0) (he : e ∈ m) : (s.inodes i).data ≠ e := by
  rintro rfl
  have hr := (hi.data h0).2
  rcases hj.entry_role he with hr' | hr' <;> rw [hr] at hr' <;> cases hr'

theorem NodeOk.data_inj {j : Nat} (hi : NodeOk s role l i) (hj : NodeOk s role m j)
    (h0 : (s.inodes i).data ≠ 0) (he : (s.inodes i).data = (s.inodes j).data) : i = j := by
  have hri := (hi.data h0).2
  rw [he] at h0 hri
  have hrj := (hj.data h0).2
  rw [hri] at hrj
  exact Role.data.inj hrj

/-! ## Looking a name up -/

theorem NodeOk.length_le (h : NodeOk s role l i) : l.length ≤ s.heap.requests :=
  BlockHeap.length_le h.ring.nodup fun e he => ⟨(h.live e he).pos, (h.live e he).le⟩

/-- **The lookup ends**, with the entry of that name or with none. -/
theorem NodeOk.find_cases (h : NodeOk s role l i) (name : CString) :
    (∃ e ∈ l, (s.entries e).name.toCString = name ∧ ramfsFindEntry s i name = some e) ∨
    ((∀ e ∈ l, (s.entries e).name.toCString ≠ name) ∧ ramfsFindEntry s i name = some 0) := by
  have hlen := h.length_le
  have hring := h.ring
  have hhead := h.head
  cases l with
  | nil => exact .inr ⟨fun e he => (nomatch he), if_pos hhead⟩
  | cons a l =>
    have hne : (s.inodes i).entries ≠ 0 := by
      rw [hhead]
      exact Nat.ne_of_gt (h.live a List.mem_cons_self).pos
    have ha : (s.inodes i).entries = a := hhead
    rw [ramfsFindEntry, if_neg hne, ha, hring.walk_eq (Nat.lt_of_succ_le hlen)]
    rcases Search.foldlM_search
        (fun e => strcmp (s.entries e).name.toCString name = 0) (a :: l) with
      ⟨pre, e, post, hl, he, -, hr⟩ | ⟨hno, hr⟩
    · rw [hr]
      refine .inl ⟨e, ?_, (strcmp_eq_zero _ _).mp he, rfl⟩
      rw [hl]
      exact List.mem_append_right _ List.mem_cons_self
    · rw [hr]
      exact .inr ⟨fun e he hn => hno e he ((strcmp_eq_zero _ _).mpr hn), rfl⟩

/-! ## Linking and unlinking -/

/-- Assignments to `next` and `prev` of the entries in `m` and to the head of the
directory `d`, with the ring that results. -/
structure Relinks (s s' : Ramfs) (d : Nat) (m l : List Nat) : Prop where
  heap : s'.heap = s.heap
  bytes : s'.bytes = s.bytes
  made : s'.made = s.made
  dots : s'.dots = s.dots
  other : ∀ j, j ≠ d → s'.inodes j = s.inodes j
  dir : s'.inodes d = { s.inodes d with entries := l.headD 0 }
  outside : ∀ e, e ∉ m → s'.entries e = s.entries e
  name : ∀ e, (s'.entries e).name = (s.entries e).name
  inode : ∀ e, (s'.entries e).inode = (s.entries e).inode
  ring : IsRing s'.next s'.prev l

theorem Relinks.fields (h : Relinks s s' d m l) (j : Nat) :
    (s'.inodes j).type = (s.inodes j).type ∧
      (s'.inodes j).privateData = (s.inodes j).privateData ∧
      (s'.inodes j).data = (s.inodes j).data := by
  by_cases hj : j = d
  · rw [hj, h.dir]
    exact ⟨rfl, rfl, rfl⟩
  · rw [h.other j hj]
    exact ⟨rfl, rfl, rfl⟩

/-- A store to a pointer of an entry. -/
theorem Ramfs.next_setNext (s : Ramfs) (e v x : Nat) :
    (s.setNext e v).next x = if x = e then v else s.next x := by
  simp only [setNext, setEntry, Ramfs.next, Function.update_apply]
  split <;> rfl

theorem Ramfs.prev_setPrev (s : Ramfs) (e v x : Nat) :
    (s.setPrev e v).prev x = if x = e then v else s.prev x := by
  simp only [setPrev, setEntry, Ramfs.prev, Function.update_apply]
  split <;> rfl

theorem Ramfs.setNext_fields (s : Ramfs) (e v x : Nat) :
    (s.setNext e v).prev x = s.prev x ∧
      ((s.setNext e v).entries x).name = (s.entries x).name ∧
      ((s.setNext e v).entries x).inode = (s.entries x).inode := by
  simp only [setNext, setEntry, Ramfs.prev, Function.update_apply]
  by_cases hx : x = e
  · simp only [hx, if_true, and_self]
  · simp only [if_neg hx, and_self]

theorem Ramfs.setPrev_fields (s : Ramfs) (e v x : Nat) :
    (s.setPrev e v).next x = s.next x ∧
      ((s.setPrev e v).entries x).name = (s.entries x).name ∧
      ((s.setPrev e v).entries x).inode = (s.entries x).inode := by
  simp only [setPrev, setEntry, Ramfs.next, Function.update_apply]
  by_cases hx : x = e
  · simp only [hx, if_true, and_self]
  · simp only [if_neg hx, and_self]

theorem Ramfs.entries_setNext {x : Nat} (s : Ramfs) (v : Nat) (hx : x ≠ e) :
    (s.setNext e v).entries x = s.entries x :=
  Function.update_of_ne hx _ _

theorem Ramfs.entries_setPrev {x : Nat} (s : Ramfs) (v : Nat) (hx : x ≠ e) :
    (s.setPrev e v).entries x = s.entries x :=
  Function.update_of_ne hx _ _

/-- The pointers of `e` are stored between those of `z` and `a`. -/
theorem Ramfs.fields_between (s : Ramfs) (a z e x : Nat) :
    let s' := (((s.setNext e a).setPrev e z).setNext z e).setPrev a e
    s'.next x = (if x = z then e else if x = e then a else s.next x) ∧
      s'.prev x = (if x = a then e else if x = e then z else s.prev x) ∧
      (s'.entries x).name = (s.entries x).name ∧ (s'.entries x).inode = (s.entries x).inode := by
  refine ⟨?_, ?_, ?_, ?_⟩
  · rw [(Ramfs.setPrev_fields _ _ _ x).1, Ramfs.next_setNext, (Ramfs.setPrev_fields _ _ _ x).1,
      Ramfs.next_setNext]
  · rw [Ramfs.prev_setPrev, (Ramfs.setNext_fields _ _ _ x).1, Ramfs.prev_setPrev,
      (Ramfs.setNext_fields _ _ _ x).1]
  · rw [(Ramfs.setPrev_fields _ _ _ x).2.1, (Ramfs.setNext_fields _ _ _ x).2.1,
      (Ramfs.setPrev_fields _ _ _ x).2.1, (Ramfs.setNext_fields _ _ _ x).2.1]
  · rw [(Ramfs.setPrev_fields _ _ _ x).2.2, (Ramfs.setNext_fields _ _ _ x).2.2,
      (Ramfs.setPrev_fields _ _ _ x).2.2, (Ramfs.setNext_fields _ _ _ x).2.2]

/-- The first entry is its own neighbour. -/
theorem relinks_addEntry_nil (hhead : (s.inodes d).entries = 0) :
    Relinks s (addEntry s d e) d [e] [e] := by
  have hadd : addEntry s d e = ((s.setNext e e).setPrev e e).setHead d e :=
    if_neg (not_not.mpr hhead)
  rw [hadd]
  refine ⟨rfl, rfl, rfl, rfl, fun j hj => Function.update_of_ne hj _ _,
    Function.update_self _ _ _, fun x hx => ?_, fun x => ?_, fun x => ?_, ?_⟩
  · have hxe : x ≠ e := fun h => hx (h ▸ List.mem_singleton_self e)
    exact (Ramfs.entries_setPrev _ e hxe).trans (s.entries_setNext e hxe)
  · exact (Ramfs.setPrev_fields _ e e x).2.1.trans (s.setNext_fields e e x).2.1
  · exact (Ramfs.setPrev_fields _ e e x).2.2.trans (s.setNext_fields e e x).2.2
  · refine isRing_singleton ?_ ?_
    · exact (Ramfs.setPrev_fields _ e e e).1.trans ((s.next_setNext e e e).trans (if_pos rfl))
    · exact (Ramfs.prev_setPrev _ e e e).trans (if_pos rfl)

/-- Any other goes between the last entry and the first. -/
theorem relinks_addEntry_cons {a : Nat} (hring : IsRing s.next s.prev (a :: l))
    (ha : (s.inodes d).entries = a) (h0 : a ≠ 0) (he : e ∉ a :: l) :
    Relinks s (addEntry s d e) d (a :: l ++ [e]) (a :: l ++ [e]) := by
  have hne : (s.inodes d).entries ≠ 0 := ha ▸ h0
  have hae : a ≠ e := fun h => he (h ▸ List.mem_cons_self)
  obtain ⟨hlast, -⟩ := hring.getLast?_eq
  have hz : s.prev a ∈ a :: l := List.mem_of_getLast? hlast
  have hze : s.prev a ≠ e := fun h => he (h ▸ hz)
  have hpa : (s.setNext e a).prev a = s.prev a := (s.setNext_fields e a a).1
  have hpa' : ((s.setNext e a).setPrev e (s.prev a)).prev a = s.prev a := by
    rw [Ramfs.prev_setPrev, if_neg hae, hpa]
  have hadd : addEntry s d e =
      (((s.setNext e a).setPrev e (s.prev a)).setNext (s.prev a) e).setPrev a e := by
    rw [addEntry, if_pos hne]
    simp only [ha, hpa, hpa']
  have hfields := s.fields_between a (s.prev a) e
  rw [hadd]
  refine ⟨rfl, rfl, rfl, rfl, fun j hj => rfl, ?_, fun x hx => ?_, fun x => (hfields x).2.2.1,
    fun x => (hfields x).2.2.2, ?_⟩
  · have hsame : ∀ i : RamfsInode, i.entries = a → i = { i with entries := a } := by
      rintro i rfl
      rfl
    exact hsame _ ha
  · have hx' : x ∉ a :: l ∧ x ≠ e :=
      ⟨fun hm => hx (List.mem_append_left _ hm), fun h =>
        hx (List.mem_append_right _ (h ▸ List.mem_singleton_self e))⟩
    have hxa : x ≠ a := fun h => hx'.1 (h ▸ List.mem_cons_self)
    have hxz : x ≠ s.prev a := fun h => hx'.1 (h ▸ hz)
    rw [Ramfs.entries_setPrev _ _ hxa, Ramfs.entries_setNext _ _ hxz,
      Ramfs.entries_setPrev _ _ hx'.2, Ramfs.entries_setNext _ _ hx'.2]
  · refine hring.insert he ⟨?_, ?_, ?_, ?_, fun y hye hyz => ?_, fun y hye hya => ?_⟩
    · rw [(hfields _).1, if_neg (Ne.symm hze), if_pos rfl]
    · rw [(hfields _).2.1, if_neg (Ne.symm hae), if_pos rfl]
    · rw [(hfields _).1, if_pos rfl]
    · rw [(hfields _).2.1, if_pos rfl]
    · rw [(hfields _).1, if_neg hyz, if_neg hye]
    · rw [(hfields _).2.1, if_neg hya, if_neg hye]

/-- **A new entry goes to the end of the ring.** -/
theorem relinks_addEntry (hring : IsRing s.next s.prev l) (hhead : (s.inodes d).entries = l.headD 0)
    (hl : ∀ e ∈ l, e ≠ 0) (he : e ∉ l) : Relinks s (addEntry s d e) d (l ++ [e]) (l ++ [e]) := by
  cases l with
  | nil => exact relinks_addEntry_nil hhead
  | cons a l => exact relinks_addEntry_cons hring hhead (hl a List.mem_cons_self) he

/-- `ramfs_remove_entry` makes the neighbours of `e` point past it. -/
theorem Ramfs.fields_past (s : Ramfs) (e x : Nat) :
    let s' := (s.setNext (s.prev e) (s.next e)).setPrev (s.next e) (s.prev e)
    s'.next x = (if x = s.prev e then s.next e else s.next x) ∧
      s'.prev x = (if x = s.next e then s.prev e else s.prev x) ∧
      (s'.entries x).name = (s.entries x).name ∧ (s'.entries x).inode = (s.entries x).inode := by
  refine ⟨?_, ?_, ?_, ?_⟩
  · rw [(Ramfs.setPrev_fields _ _ _ x).1, Ramfs.next_setNext]
  · rw [Ramfs.prev_setPrev, (Ramfs.setNext_fields _ _ _ x).1]
  · exact (Ramfs.setPrev_fields _ _ _ x).2.1.trans (Ramfs.setNext_fields _ _ _ x).2.1
  · exact (Ramfs.setPrev_fields _ _ _ x).2.2.trans (Ramfs.setNext_fields _ _ _ x).2.2

/-- An entry that is the head has nothing before it. -/
theorem eq_nil_of_headD {l₁ l₂ : List Nat} (hnodup : (l₁ ++ e :: l₂).Nodup)
    (hhead : (l₁ ++ e :: l₂).headD 0 = e) : l₁ = [] := by
  cases l₁ with
  | nil => rfl
  | cons a l₁ =>
    have hae : a = e := hhead
    refine absurd ?_ (List.nodup_cons.mp hnodup).1
    exact hae ▸ List.mem_append_right l₁ List.mem_cons_self

/-- The head of what is left once the head `e` is gone. -/
theorem headD_of_isRing {next prev : Nat → Nat} (hring : IsRing next prev (e :: l)) :
    (if next e ≠ e then next e else 0) = l.headD 0 := by
  cases l with
  | nil => exact if_neg (not_not.mpr (hring.closed e rfl e rfl).1)
  | cons b l =>
    obtain ⟨⟨t, ht⟩, -⟩ := hring.head_links (List.cons_ne_nil b l)
    have hb : b = next e := (List.cons.inj ht).1
    have hbe : b ≠ e := fun h => (List.nodup_cons.mp hring.nodup).1 (h ▸ List.mem_cons_self)
    rw [← hb, if_pos hbe]
    rfl

/-- **An entry is taken out of the ring.** -/
theorem relinks_removeEntry {l₁ l₂ : List Nat} (hring : IsRing s.next s.prev (l₁ ++ e :: l₂))
    (hhead : (s.inodes d).entries = (l₁ ++ e :: l₂).headD 0) :
    Relinks s (removeEntry s d e) d (l₁ ++ e :: l₂) (l₁ ++ l₂) := by
  set s₂ := (s.setNext (s.prev e) (s.next e)).setPrev (s.next e) (s.prev e) with hs₂
  have hfields := s.fields_past e
  rw [← hs₂] at hfields
  have hmem : s.prev e ∈ l₁ ++ e :: l₂ ∧ s.next e ∈ l₁ ++ e :: l₂ := hring.mem_links
  have hn : (s.setNext (s.prev e) (s.next e)).next e = s.next e := by
    rw [Ramfs.next_setNext]
    exact ite_self _
  have hp : (s.setNext (s.prev e) (s.next e)).prev e = s.prev e :=
    (s.setNext_fields (s.prev e) (s.next e) e).1
  have hne : s₂.next e = s.next e := by
    rw [(hfields e).1]
    exact ite_self _
  have hcall : removeEntry s d e =
      if (s.inodes d).entries = e then s₂.setHead d (if s.next e ≠ e then s.next e else 0)
      else s₂ := by
    simp only [removeEntry, hn, hp, ← hs₂, hne]
    rfl
  have hring' : IsRing s₂.next s₂.prev (l₁ ++ l₂) := by
    refine hring.remove ⟨?_, ?_, fun y hy => ?_, fun y hy => ?_⟩
    · rw [(hfields _).1, if_pos rfl]
    · rw [(hfields _).2.1, if_pos rfl]
    · rw [(hfields _).1, if_neg hy]
    · rw [(hfields _).2.1, if_neg hy]
  have houtside : ∀ x, x ∉ l₁ ++ e :: l₂ → s₂.entries x = s.entries x := by
    intro x hx
    have hxn : x ≠ s.next e := fun h => hx (h ▸ hmem.2)
    have hxp : x ≠ s.prev e := fun h => hx (h ▸ hmem.1)
    rw [hs₂, Ramfs.entries_setPrev _ _ hxn, Ramfs.entries_setNext _ _ hxp]
  by_cases hfirst : (s.inodes d).entries = e
  · rw [hcall, if_pos hfirst]
    have hnil := eq_nil_of_headD hring.nodup (hhead.symm.trans hfirst)
    subst hnil
    refine ⟨rfl, rfl, rfl, rfl, fun j hj => Function.update_of_ne hj _ _, ?_, houtside,
      fun x => (hfields x).2.2.1, fun x => (hfields x).2.2.2, hring'⟩
    rw [headD_of_isRing hring]
    exact Function.update_self _ _ _
  · rw [hcall, if_neg hfirst]
    refine ⟨rfl, rfl, rfl, rfl, fun j hj => rfl, ?_, houtside, fun x => (hfields x).2.2.1,
      fun x => (hfields x).2.2.2, hring'⟩
    have hsame : (s.inodes d).entries = (l₁ ++ l₂).headD 0 := by
      cases l₁ with
      | nil => exact absurd hhead hfirst
      | cons a l₁ => exact hhead
    rw [← hsame]
    rfl

/-! ## Frames -/

/-- What blocks in use are for, which of them are `.` or `..`, and of what type
the inodes are stays. -/
structure SameRoles (s s' : Ramfs) (role role' : Nat → Role) : Prop where
  same : ∀ p, role p ≠ .spare → role' p = role p
  dots : ∀ p, role p ≠ .spare → (p ∈ s'.dots ↔ p ∈ s.dots)
  made : ∀ p ∈ s.made, p ∈ s'.made
  type : ∀ p ∈ s.made, (s'.inodes p).type = (s.inodes p).type

/-- An entry that is linked anew at most. -/
theorem frame_entry (h : DotOk s role d e ∨ ChildOk s role d e) (hs : SameRoles s s' role role')
    (hd : role d ≠ .spare) (hname : (s'.entries e).name = (s.entries e).name)
    (hinode : (s'.entries e).inode = (s.entries e).inode)
    (hchild : ChildOk s role d e → LiveInode s' (s.entries e).inode) :
    DotOk s' role' d e ∨ ChildOk s' role' d e := by
  rcases h with hdot | hc
  · have he : role e ≠ .spare := fun h => nomatch hdot.marked.symm.trans h
    refine .inl ⟨(hs.dots e he).mpr hdot.dot, (hs.same e he).trans hdot.marked, ?_, ?_, ?_⟩
    · rw [hinode]
      exact hs.made _ hdot.made
    · rw [hinode, hs.type _ hdot.made]
      exact hdot.directory
    · rw [hname, hinode, hs.same d hd]
      exact hdot.refers
  · have he : role e ≠ .spare := fun h => nomatch hc.marked.symm.trans h
    have hi : role (s.entries e).inode ≠ .spare := fun h => nomatch hc.linked.symm.trans h
    refine .inr ⟨mt (hs.dots e he).mp hc.proper, (hs.same e he).trans hc.marked, ?_, ?_, ?_⟩
    · rw [hinode]
      exact hchild hc
    · rw [hinode, hs.same _ hi]
      exact hc.linked
    · rw [hinode]
      exact hc.newer

/-- An inode whose data may have been moved. -/
theorem NodeOk.same (h : NodeOk s role l i) (hs : SameRoles s s' role role')
    (hself : (s'.inodes i).privateData = (s.inodes i).privateData)
    (hhead : (s'.inodes i).entries = (s.inodes i).entries)
    (hentry : ∀ e ∈ l, s'.entries e = s.entries e) (hlive : ∀ e ∈ l, s'.heap.Live e)
    (hchild : ∀ e ∈ l, ChildOk s role i e → LiveInode s' (s.entries e).inode)
    (hdata : (s'.inodes i).data ≠ 0 →
      s'.heap.Live (s'.inodes i).data ∧ role' (s'.inodes i).data = .data i) :
    NodeOk s' role' l i := by
  obtain ⟨parent, entry, hr⟩ := h.marked
  refine ⟨⟨parent, entry, (hs.same i h.ne_spare).trans hr⟩, hself.trans h.self,
    hhead.trans h.head, ?_, ?_, hlive, fun e he => ?_, hdata⟩
  · refine h.ring.congr fun e he => ?_
    rw [Ramfs.next, Ramfs.prev, hentry e he]
    exact ⟨rfl, rfl⟩
  · rw [List.map_congr_left fun e he => by rw [hentry e he]]
    exact h.names
  · have hsame := hentry e he
    exact frame_entry (h.entry e he) hs h.ne_spare (by rw [hsame]) (by rw [hsame]) (hchild e he)

/-- An inode that is not touched. -/
theorem NodeOk.frame (h : NodeOk s role l i) (hs : SameRoles s s' role role')
    (hinode : s'.inodes i = s.inodes i) (hentry : ∀ e ∈ l, s'.entries e = s.entries e)
    (hlive : ∀ e ∈ l, s'.heap.Live e)
    (hchild : ∀ e ∈ l, ChildOk s role i e → LiveInode s' (s.entries e).inode)
    (hdata : (s.inodes i).data ≠ 0 → s'.heap.Live (s.inodes i).data) : NodeOk s' role' l i := by
  refine h.same hs (by rw [hinode]) (by rw [hinode]) hentry hlive hchild ?_
  rw [hinode]
  intro h0
  have hd : role (s.inodes i).data ≠ .spare := fun he => nomatch (h.data h0).2.symm.trans he
  exact ⟨hdata h0, (hs.same _ hd).trans (h.data h0).2⟩

/-- A directory whose ring was changed. -/
theorem NodeOk.relink {l' : List Nat} (h : NodeOk s role l d) (hs : SameRoles s s' role role')
    (hdir : s'.inodes d = { s.inodes d with entries := l'.headD 0 })
    (hname : ∀ e, (s'.entries e).name = (s.entries e).name) (hring : IsRing s'.next s'.prev l')
    (hnames : (l'.map fun e => (s.entries e).name).Nodup) (hlive : ∀ e ∈ l', s'.heap.Live e)
    (hentry : ∀ e ∈ l', DotOk s' role' d e ∨ ChildOk s' role' d e)
    (hdata : (s.inodes d).data ≠ 0 → s'.heap.Live (s.inodes d).data) : NodeOk s' role' l' d := by
  obtain ⟨parent, entry, hp⟩ := h.marked
  refine ⟨⟨parent, entry, (hs.same d h.ne_spare).trans hp⟩, ?_, ?_, hring, ?_, hlive, hentry, ?_⟩
  · rw [hdir]
    exact h.self
  · rw [hdir]
  · rw [List.map_congr_left fun e _ => hname e]
    exact hnames
  · rw [hdir]
    intro h0
    have hd : role (s.inodes d).data ≠ .spare := fun he => nomatch (h.data h0).2.symm.trans he
    exact ⟨hdata h0, (hs.same _ hd).trans (h.data h0).2⟩

/-! ## Requests -/

/-- Requests that came to nothing yet: what was handed out before is as it was. -/
structure Quiet (s s' : Ramfs) : Prop where
  heap : s.heap.Later s'.heap
  inodes : ∀ p ≤ s.heap.requests, s'.inodes p = s.inodes p
  entries : ∀ p ≤ s.heap.requests, s'.entries p = s.entries p
  made : ∀ i ∈ s.made, i ∈ s'.made
  dead : ∀ i ∈ s'.made, i ∈ s.made ∨ i ≤ s'.heap.requests ∧ i ∈ s'.heap.freed
  dots : s'.dots = s.dots

theorem Quiet.refl (s : Ramfs) : Quiet s s :=
  ⟨.refl _, fun _ _ => rfl, fun _ _ => rfl, fun _ => id, fun _ => .inl, rfl⟩

theorem Quiet.liveInode (hq : Quiet s s') (hmade : ∀ i ∈ s.made, i ≤ s.heap.requests) :
    LiveInode s' i ↔ LiveInode s i := by
  constructor
  · intro ⟨hm, hl⟩
    rcases hq.dead i hm with hm | ⟨-, hf⟩
    · exact ⟨hm, (hq.heap.live i (hmade i hm)).mp hl⟩
    · exact absurd hf hl.kept
  · intro ⟨hm, hl⟩
    exact ⟨hq.made i hm, (hq.heap.live i (hmade i hm)).mpr hl⟩

theorem Forest.quiet (h : Forest s q role) (hq : Quiet s s') : Forest s' q role := by
  have hlive : ∀ p, s.heap.Live p → s'.heap.Live p := fun p hp => (hq.heap.live p hp.le).mpr hp
  refine ⟨hq.heap.sane h.sane, fun i hi => ?_, fun e he => h.dots e (hq.dots ▸ he),
    fun p hp => h.spare p (Nat.lt_of_le_of_lt hq.heap.le hp), fun i hi => ?_⟩
  · rcases hq.dead i hi with hi | ⟨hle, -⟩
    · exact Nat.le_trans (h.made i hi) hq.heap.le
    · exact hle
  · have hi' := (hq.liveInode h.made).mp hi
    have hn := h.node i hi'
    have hs : SameRoles s s' role role := ⟨fun _ _ => rfl, fun p _ => by rw [hq.dots], hq.made,
      fun p hp => by rw [hq.inodes p (h.made p hp)]⟩
    exact hn.frame hs (hq.inodes i hi'.2.le)
      (fun e he => hq.entries e (hn.live e he).le) (fun e he => hlive e (hn.live e he))
      (fun e he hc => (hq.liveInode h.made).mpr hc.live) fun h0 => hlive _ (hn.data h0).1

end SynapseKernel.Fs
