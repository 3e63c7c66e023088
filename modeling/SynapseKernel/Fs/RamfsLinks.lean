import SynapseKernel.Fs.RamfsTree

/-! # How the inodes of a RamFS change

An operation makes an inode (`Forest.adopt`), links it (`Forest.link`), gives it
`.` and `..` (`Forest.linkDots`), takes an entry out and frees what it linked
(`Forest.unlink`), or moves the data of a file (`Forest.setData`). -/
namespace SynapseKernel.Fs
open SynapseKernel.Word SynapseKernel.Kheap SynapseKernel.Blocks SynapseKernel.Str
open SynapseKernel.Ring

variable {s s' : Ramfs} {d e c i : Nat} {q : Nat → List Nat} {role : Nat → Role} {l m : List Nat}

theorem sameRoles_update (hc : role c = .spare) (hd : s'.dots = s.dots)
    (hm : ∀ p ∈ s.made, p ∈ s'.made) (ht : ∀ p ∈ s.made, (s'.inodes p).type = (s.inodes p).type)
    (r : Role) : SameRoles s s' role (Function.update role c r) := by
  refine ⟨fun p hp => Function.update_of_ne ?_ _ _, fun p _ => by rw [hd], hm, ht⟩
  rintro rfl
  exact hp hc

theorem Forest.spare_update (h : Forest s q role) (hreq : s'.heap.requests = s.heap.requests)
    (hc : c ≤ s.heap.requests) (r : Role) :
    ∀ p, s'.heap.requests < p → Function.update role c r p = .spare := by
  intro p hp
  rw [hreq] at hp
  rw [Function.update_of_ne (Nat.ne_of_gt (Nat.lt_of_le_of_lt hc hp))]
  exact h.spare p hp

theorem Forest.dots_update (h : Forest s q role) (hc : role c = .spare) (r : Role) :
    ∀ e ∈ s.dots, ∃ d, Function.update role c r e = .dot d := by
  intro e he
  obtain ⟨d, hd⟩ := h.dots e he
  refine ⟨d, ?_⟩
  rw [Function.update_of_ne ?_]
  · exact hd
  · rintro rfl
    exact nomatch hc.symm.trans hd

/-- A new inode, not linked yet. -/
theorem Forest.adopt (h : Forest s q role) (hl : s.heap.Live c) (hc : role c = .spare)
    (hself : (s.inodes c).privateData = c) (hentries : (s.inodes c).entries = 0)
    (hdata : (s.inodes c).data = 0) (parent entry : Nat) :
    Forest { s with made := c :: s.made } (Function.update q c [])
      (Function.update role c (.inode parent entry)) := by
  refine ⟨h.sane, fun i hi => ?_, h.dots_update hc _, h.spare_update rfl hl.le _, fun i hi => ?_⟩
  · rcases List.mem_cons.mp hi with rfl | hi
    · exact hl.le
    · exact h.made i hi
  · by_cases hic : i = c
    · subst hic
      rw [Function.update_self]
      refine ⟨⟨parent, entry, Function.update_self _ _ _⟩, hself, hentries, ?_, List.nodup_nil,
        fun e he => (nomatch he), fun e he => (nomatch he), fun h0 => absurd hdata h0⟩
      exact ⟨List.nodup_nil, List.isChain_nil, fun x hx => nomatch hx⟩
    · rw [Function.update_of_ne hic]
      have hi' : LiveInode s i := ⟨(List.mem_cons.mp hi.1).resolve_left hic, hi.2⟩
      have hn := h.node i hi'
      have hs := @sameRoles_update s { s with made := c :: s.made } c role hc rfl
        (fun _ => List.mem_cons_of_mem c) (fun _ _ => rfl) (.inode parent entry)
      exact hn.frame hs rfl (fun e _ => rfl) hn.live
        (fun e _ hchild => ⟨List.mem_cons_of_mem _ hchild.live.1, hchild.live.2⟩)
        fun h0 => (hn.data h0).1

theorem Relinks.liveInode (hr : Relinks s s' d m l) (i : Nat) :
    LiveInode s' i ↔ LiveInode s i := by
  rw [LiveInode, LiveInode, hr.made, hr.heap]

/-- The directory with the new entry. -/
theorem NodeOk.link {role' : Nat → Role} (h : NodeOk s role l d) (hs : SameRoles s s' role role')
    (hl : s.heap.Live e) (hchild : ChildOk s' role' d e)
    (hname : ∀ x ∈ l, (s.entries x).name ≠ (s.entries e).name)
    (hr : Relinks s s' d (l ++ [e]) (l ++ [e])) : NodeOk s' role' (l ++ [e]) d := by
  refine h.relink hs hr.dir hr.name hr.ring ?_ (fun x hx => ?_) (fun x hx => ?_) fun h0 => ?_
  · rw [List.map_append, List.nodup_append_comm, List.map_singleton, List.singleton_append,
      List.nodup_cons]
    refine ⟨fun hm => ?_, h.names⟩
    obtain ⟨x, hx, hxe⟩ := List.mem_map.mp hm
    exact hname x hx hxe
  · rw [hr.heap]
    rcases List.mem_append.mp hx with hx | hx
    · exact h.live x hx
    · exact List.mem_singleton.mp hx ▸ hl
  · rcases List.mem_append.mp hx with hx | hx
    · exact frame_entry (h.entry x hx) hs h.ne_spare (hr.name x) (hr.inode x) fun hchild =>
        (hr.liveInode _).mpr hchild.live
    · exact .inr (List.mem_singleton.mp hx ▸ hchild)
  · rw [hr.heap]
    exact (h.data h0).1

/-- A new entry `e` of the directory `d`. -/
theorem Forest.link (h : Forest s q role) (hd : LiveInode s d) (hl : s.heap.Live e)
    (he : role e = .spare) (hc : LiveInode s (s.entries e).inode)
    (hlinked : role (s.entries e).inode = .inode d e) (hnew : d < (s.entries e).inode)
    (hname : ∀ x ∈ q d, (s.entries x).name ≠ (s.entries e).name)
    (hr : Relinks s s' d (q d ++ [e]) (q d ++ [e])) :
    Forest s' (Function.update q d (q d ++ [e])) (Function.update role e (.entry d)) := by
  have hs := sameRoles_update he hr.dots (fun p hp => hr.made.symm ▸ hp) (fun p _ => (hr.fields p).1)
    (.entry d)
  have hused : ∀ i, LiveInode s i → ∀ x ∈ q i, x ≠ e := by
    rintro i hi x hx rfl
    rcases (h.node i hi).entry_role hx with hx | hx <;> rw [he] at hx <;> cases hx
  have hreq : s'.heap.requests = s.heap.requests := by rw [hr.heap]
  have hchild : ChildOk s' (Function.update role e (.entry d)) d e := by
    have hce : (s.entries e).inode ≠ e := by
      intro hce
      rw [hce, he] at hlinked
      cases hlinked
    refine ⟨fun hm => ?_, Function.update_self _ _ _, ?_, ?_, ?_⟩
    · obtain ⟨d', hd'⟩ := h.dots e (hr.dots ▸ hm)
      exact nomatch he.symm.trans hd'
    · rw [hr.inode]
      exact (hr.liveInode _).mpr hc
    · rw [hr.inode, Function.update_of_ne hce]
      exact hlinked
    · rw [hr.inode]
      exact hnew
  refine ⟨hr.heap.symm ▸ h.sane, fun i hi => ?_, fun x hx => ?_, h.spare_update hreq hl.le _,
    fun i hi => ?_⟩
  · rw [hreq]
    exact h.made i (hr.made ▸ hi)
  · rw [hr.dots] at hx
    exact h.dots_update he _ x hx
  · have hi' := (hr.liveInode i).mp hi
    have hn := h.node i hi'
    by_cases hid : i = d
    · subst hid
      rw [Function.update_self]
      exact hn.link hs hl hchild hname hr
    · rw [Function.update_of_ne hid]
      refine hn.frame hs (hr.other i hid) (fun x hx => hr.outside x fun hm => ?_)
        (fun x hx => ?_) (fun x _ hchild => (hr.liveInode _).mpr hchild.live) fun h0 => ?_
      · rcases List.mem_append.mp hm with hm | hm
        · exact hid (hn.apart (h.node d hd) hx hm)
        · exact hused i hi' x hx (List.mem_singleton.mp hm)
      · rw [hr.heap]
        exact hn.live x hx
      · rw [hr.heap]
        exact (hn.data h0).1

/-! ## `.` and `..` -/

section LinkDots
variable {parent dot dotdot f : Nat}

theorem entries_linkDots_dot (hne : dot ≠ dotdot) :
    (linkDots s c parent dot dotdot).entries dot = ⟨dotName, c, dotdot, dotdot⟩ :=
  (Function.update_of_ne hne _ _).trans (Function.update_self _ _ _)

theorem entries_linkDots_dotdot :
    (linkDots s c parent dot dotdot).entries dotdot = ⟨dotdotName, parent, dot, dot⟩ :=
  Function.update_self _ _ _

theorem entries_linkDots {x : Nat} (hx : x ≠ dot) (hx' : x ≠ dotdot) :
    (linkDots s c parent dot dotdot).entries x = s.entries x :=
  (Function.update_of_ne hx' _ _).trans (Function.update_of_ne hx _ _)

theorem inodes_linkDots_self :
    (linkDots s c parent dot dotdot).inodes c = { s.inodes c with entries := dot } :=
  Function.update_self _ _ _

theorem inodes_linkDots {j : Nat} (hj : j ≠ c) :
    (linkDots s c parent dot dotdot).inodes j = s.inodes j := Function.update_of_ne hj _ _

theorem type_linkDots (j : Nat) :
    ((linkDots s c parent dot dotdot).inodes j).type = (s.inodes j).type := by
  by_cases hj : j = c
  · rw [hj, inodes_linkDots_self]
  · rw [inodes_linkDots hj]

/-- The entries `.` and `..` are those of the directory `c`. -/
def dotRoles (role : Nat → Role) (c dot dotdot : Nat) : Nat → Role :=
  Function.update (Function.update role dot (.dot c)) dotdot (.dot c)

theorem dotRoles_of_ne {p : Nat} (h : p ≠ dot) (h' : p ≠ dotdot) :
    dotRoles role c dot dotdot p = role p := by
  rw [dotRoles, Function.update_of_ne h', Function.update_of_ne h]

/-- Blocks in use keep their roles. -/
theorem dotRoles_of_used {p : Nat} (hdot : role dot = .spare) (hdotdot : role dotdot = .spare)
    (hp : role p ≠ .spare) : dotRoles role c dot dotdot p = role p :=
  dotRoles_of_ne (fun he => hp (he ▸ hdot)) fun he => hp (he ▸ hdotdot)

theorem dotRoles_dot (hne : dot ≠ dotdot) : dotRoles role c dot dotdot dot = .dot c := by
  rw [dotRoles, Function.update_of_ne hne, Function.update_self]

theorem dotRoles_dotdot : dotRoles role c dot dotdot dotdot = .dot c := Function.update_self _ _ _

theorem sameRoles_linkDots (hdot : role dot = .spare) (hdotdot : role dotdot = .spare) :
    SameRoles s (linkDots s c parent dot dotdot) role (dotRoles role c dot dotdot) := by
  refine ⟨fun p hp => ?_, fun p hp => ⟨fun hm => ?_, fun hm => ?_⟩, fun _ => id,
    fun p _ => type_linkDots p⟩
  · exact dotRoles_of_used hdot hdotdot hp
  · rcases List.mem_cons.mp hm with rfl | hm
    · exact absurd hdot hp
    · exact (List.mem_cons.mp hm).resolve_left fun he => hp (he ▸ hdotdot)
  · exact List.mem_cons_of_mem _ (List.mem_cons_of_mem _ hm)

/-- The directory that gets them. -/
theorem NodeOk.linkDots (hn : NodeOk s role l c) (hc : c ∈ s.made)
    (hrole : role c = .inode parent f) (hparent : parent ∈ s.made)
    (htype : (s.inodes c).type = .directory) (htype' : (s.inodes parent).type = .directory)
    (hl : s.heap.Live dot) (hl' : s.heap.Live dotdot) (hdot : role dot = .spare)
    (hdotdot : role dotdot = .spare) (hne : dot ≠ dotdot) :
    NodeOk (linkDots s c parent dot dotdot) (dotRoles role c dot dotdot) [dot, dotdot] c := by
  have hfirst := @entries_linkDots_dot s c parent dot dotdot hne
  have hsecond := @entries_linkDots_dotdot s c parent dot dotdot
  have hrole' : dotRoles role c dot dotdot c = .inode parent f :=
    (dotRoles_of_used hdot hdotdot hn.ne_spare).trans hrole
  refine ⟨⟨parent, f, hrole'⟩, ?_, ?_, ?_, ?_, fun x hx => ?_, fun x hx => .inl ?_, ?_⟩
  · rw [inodes_linkDots_self]
    exact hn.self
  · rw [inodes_linkDots_self]
    rfl
  · refine isRing_pair hne ?_ ?_ ?_ ?_
    · rw [Ramfs.next, hfirst]
    · rw [Ramfs.prev, hfirst]
    · rw [Ramfs.next, hsecond]
    · rw [Ramfs.prev, hsecond]
  · have hnames : [dotName, dotdotName].Nodup := by decide
    rw [List.map_cons, List.map_singleton, hfirst, hsecond]
    exact hnames
  · rcases List.mem_cons.mp hx with rfl | hx
    · exact hl
    · exact List.mem_singleton.mp hx ▸ hl'
  · rcases List.mem_cons.mp hx with rfl | hx
    · refine ⟨List.mem_cons_self, dotRoles_dot hne, ?_, ?_, .inl ?_⟩
      · rw [hfirst]
        exact hc
      · rw [hfirst, type_linkDots]
        exact htype
      · rw [hfirst]
        exact ⟨rfl, rfl⟩
    · obtain rfl := List.mem_singleton.mp hx
      refine ⟨List.mem_cons_of_mem _ List.mem_cons_self, dotRoles_dotdot, ?_, ?_, .inr ?_⟩
      · rw [hsecond]
        exact hparent
      · rw [hsecond, type_linkDots]
        exact htype'
      · rw [hsecond]
        exact ⟨rfl, f, hrole'⟩
  · rw [inodes_linkDots_self]
    intro h0
    obtain ⟨hlive, hdata⟩ := hn.data h0
    have hspare : role (s.inodes c).data ≠ .spare := fun he => by cases hdata.symm.trans he
    exact ⟨hlive, (dotRoles_of_used hdot hdotdot hspare).trans hdata⟩

/-- The entries `.` and `..` of a directory without entries. -/
theorem Forest.linkDots (h : Forest s q role) (hc : LiveInode s c)
    (hrole : role c = .inode parent f) (hparent : parent ∈ s.made)
    (htype : (s.inodes c).type = .directory) (htype' : (s.inodes parent).type = .directory)
    (hl : s.heap.Live dot) (hl' : s.heap.Live dotdot) (hdot : role dot = .spare)
    (hdotdot : role dotdot = .spare) (hne : dot ≠ dotdot) : Forest (linkDots s c parent dot dotdot)
      (Function.update q c [dot, dotdot])
      (Function.update (Function.update role dot (.dot c)) dotdot (.dot c)) := by
  refine ⟨h.sane, h.made, fun x hx => ?_, fun p hp => ?_, fun i hi => ?_⟩
  · by_cases hx' : x = dotdot
    · exact ⟨c, (congrArg _ hx').trans dotRoles_dotdot⟩
    by_cases hx'' : x = dot
    · exact ⟨c, (congrArg _ hx'').trans (dotRoles_dot hne)⟩
    · have hold := (List.mem_cons.mp ((List.mem_cons.mp hx).resolve_left hx'')).resolve_left hx'
      obtain ⟨d', hd'⟩ := h.dots x hold
      exact ⟨d', (dotRoles_of_ne hx'' hx').trans hd'⟩
  · refine (dotRoles_of_ne ?_ ?_).trans (h.spare p hp)
    · exact Nat.ne_of_gt (Nat.lt_of_le_of_lt hl.le hp)
    · exact Nat.ne_of_gt (Nat.lt_of_le_of_lt hl'.le hp)
  · have hn := h.node i hi
    by_cases hic : i = c
    · subst hic
      rw [Function.update_self]
      exact hn.linkDots hi.1 hrole hparent htype htype' hl hl' hdot hdotdot hne
    · rw [Function.update_of_ne hic]
      refine hn.frame (sameRoles_linkDots hdot hdotdot) (inodes_linkDots hic) (fun x hx => ?_)
        hn.live (fun x _ hchild => hchild.live) fun h0 => (hn.data h0).1
      have hx' : role x ≠ .spare := fun he => by
        rcases hn.entry_role hx with hr | hr <;> rw [he] at hr <;> cases hr
      exact entries_linkDots (fun he => hx' (he ▸ hdot)) fun he => hx' (he ▸ hdotdot)

end LinkDots

/-! ## Freeing -/

/-- `kfree` of these blocks, one after the other. -/
def Ramfs.kfreeAll (s : Ramfs) (blocks : List Nat) : Ramfs := blocks.foldl Ramfs.kfree s

theorem Ramfs.kfreeAll_same (s : Ramfs) (blocks : List Nat) :
    s.kfreeAll blocks = { s with heap := (s.kfreeAll blocks).heap } := by
  induction blocks generalizing s with
  | nil => rfl
  | cons p blocks ih => exact ih (s.kfree p)

theorem Ramfs.requests_kfreeAll (s : Ramfs) (blocks : List Nat) :
    (s.kfreeAll blocks).heap.requests = s.heap.requests := by
  induction blocks generalizing s with
  | nil => rfl
  | cons p blocks ih => exact ih (s.kfree p)

theorem Ramfs.live_kfreeAll {p : Nat} (s : Ramfs) (blocks : List Nat) :
    (s.kfreeAll blocks).heap.Live p ↔ s.heap.Live p ∧ p ∉ blocks := by
  induction blocks generalizing s with
  | nil => exact (and_iff_left (fun hm => nomatch hm)).symm
  | cons b blocks ih =>
    have hfirst : (s.kfree b).heap.Live p ↔ s.heap.Live p ∧ p ≠ b := BlockHeap.live_kfree
    rw [Ramfs.kfreeAll, List.foldl_cons]
    refine (ih (s.kfree b)).trans ?_
    rw [hfirst, and_assoc, List.mem_cons, not_or]

theorem Ramfs.sane_kfreeAll {s : Ramfs} {blocks : List Nat} (hs : s.heap.Sane)
    (hle : ∀ p ∈ blocks, p ≤ s.heap.requests) : (s.kfreeAll blocks).heap.Sane := by
  induction blocks generalizing s with
  | nil => exact hs
  | cons b blocks ih =>
    obtain ⟨hb, hle⟩ := List.forall_mem_cons.mp hle
    exact @ih (s.kfree b) (hs.kfree hb) hle

/-- The blocks are the entry `e`, the inode it links and the data of that. -/
def OwnedBy (s : Ramfs) (role : Nat → Role) (e : Nat) (blocks : List Nat) : Prop :=
  ∀ p ∈ blocks, p = e ∨ p = (s.entries e).inode ∨ p ≤ s.heap.requests ∧
    role p = .data (s.entries e).inode

section OwnedBy
variable {blocks : List Nat}

theorem Forest.inode_notMem (h : Forest s q role) (hd : LiveInode s d) (he : e ∈ q d)
    (hb : OwnedBy s role e blocks) (hi : LiveInode s i) (hic : i ≠ (s.entries e).inode) :
    i ∉ blocks := by
  intro hm
  rcases hb i hm with hie | hie | ⟨-, hdata⟩
  · exact (h.node d hd).entry_ne_inode (h.node i hi) he hie.symm
  · exact hic hie
  · obtain ⟨parent, entry, hrole⟩ := (h.node i hi).marked
    exact nomatch hrole.symm.trans hdata

theorem Forest.entry_notMem {x : Nat} (h : Forest s q role) (hc : LiveInode s (s.entries e).inode)
    (hb : OwnedBy s role e blocks) (hi : LiveInode s i) (hx : x ∈ q i) (hxe : x ≠ e) :
    x ∉ blocks := by
  intro hm
  rcases hb x hm with hxe' | hxc | ⟨-, hdata⟩
  · exact hxe hxe'
  · exact (h.node i hi).entry_ne_inode (h.node _ hc) hx hxc
  · rcases (h.node i hi).entry_role hx with hrole | hrole <;> exact nomatch hrole.symm.trans hdata

theorem Forest.data_notMem (h : Forest s q role) (hd : LiveInode s d) (he : e ∈ q d)
    (hc : LiveInode s (s.entries e).inode) (hb : OwnedBy s role e blocks) (hi : LiveInode s i)
    (hic : i ≠ (s.entries e).inode) (h0 : (s.inodes i).data ≠ 0) : (s.inodes i).data ∉ blocks := by
  intro hm
  have hrole := ((h.node i hi).data h0).2
  rcases hb _ hm with hie | hie | ⟨-, hdata⟩
  · exact (h.node i hi).data_ne_entry (h.node d hd) h0 he hie
  · exact (h.node i hi).data_ne_inode (h.node _ hc) h0 hie
  · exact hic (Role.data.inj (hrole.symm.trans hdata))

theorem Relinks.live_kfreeAll {p : Nat} (hr : Relinks s s' d m l) (blocks : List Nat) :
    (s'.kfreeAll blocks).heap.Live p ↔ s.heap.Live p ∧ p ∉ blocks := by
  rw [s'.live_kfreeAll blocks, hr.heap]

theorem Forest.liveInode_kfreeAll (h : Forest s q role) (hd : LiveInode s d) (he : e ∈ q d)
    (hb : OwnedBy s role e blocks) (hr : Relinks s s' d m l) (hc : (s.entries e).inode ∈ blocks)
    (i : Nat) :
    LiveInode (s'.kfreeAll blocks) i ↔ LiveInode s i ∧ i ≠ (s.entries e).inode := by
  have hmade : (s'.kfreeAll blocks).made = s.made := by
    rw [s'.kfreeAll_same]
    exact hr.made
  rw [LiveInode, hmade, hr.live_kfreeAll, ← and_assoc]
  exact and_congr_right fun hi =>
    ⟨fun hm hic => hm (hic ▸ hc), fun hic => h.inode_notMem hd he hb hi hic⟩

/-- An inode is linked by one entry. -/
theorem ChildOk.same_link {x : Nat} (h : ChildOk s role d e) (hx : ChildOk s role i x)
    (he : (s.entries x).inode = (s.entries e).inode) : i = d ∧ x = e := by
  have hlinked := hx.linked
  rw [he, h.linked] at hlinked
  obtain ⟨hd, he⟩ := Role.inode.inj hlinked
  exact ⟨hd.symm, he.symm⟩

theorem Relinks.sameRoles_kfreeAll (hr : Relinks s s' d m l) (blocks : List Nat) :
    SameRoles s (s'.kfreeAll blocks) role role := by
  rw [s'.kfreeAll_same]
  exact ⟨fun _ _ => rfl, fun p _ => by rw [hr.dots], fun p hp => hr.made.symm ▸ hp,
    fun p _ => (hr.fields p).1⟩

/-- The directory without the entry. -/
theorem Forest.unlink_dir {l₁ l₂ : List Nat} (h : Forest s q role) (hd : LiveInode s d)
    (hq : q d = l₁ ++ e :: l₂) (hchild : ChildOk s role d e)
    (hr : Relinks s s' d (q d) (l₁ ++ l₂)) (hc : (s.entries e).inode ∈ blocks)
    (hblocks : OwnedBy s role e blocks) : NodeOk (s'.kfreeAll blocks) role (l₁ ++ l₂) d := by
  have hn := h.node d hd
  have heq : e ∈ q d := hq ▸ List.mem_append_right l₁ List.mem_cons_self
  have hnodup : e ∉ l₁ ++ l₂ := fun hm =>
    (List.nodup_cons.mp ((List.perm_middle.nodup_iff).mp (hq ▸ hn.ring.nodup))).1 hm
  have hcd : d ≠ (s.entries e).inode := Nat.ne_of_lt hchild.newer
  have hlive := fun p => @Relinks.live_kfreeAll _ _ _ _ _ p hr blocks
  have hsame := s'.kfreeAll_same blocks
  have hsub : ∀ x ∈ l₁ ++ l₂, x ∈ q d ∧ x ≠ e := by
    refine fun x hx => ⟨?_, fun hxe => hnodup (hxe ▸ hx)⟩
    rw [hq]
    exact (List.sublist_cons_self e l₂).append_left l₁ |>.subset hx
  refine hn.relink (hr.sameRoles_kfreeAll blocks) ?_ ?_ ?_ ?_ ?_ ?_ fun h0 => ?_
  · rw [hsame]
    exact hr.dir
  · rw [hsame]
    exact hr.name
  · rw [hsame]
    exact hr.ring
  · rw [hq] at hn
    exact (((List.sublist_cons_self e l₂).append_left l₁).map _).nodup hn.names
  · exact fun x hx => (hlive x).mpr
      ⟨hn.live x (hsub x hx).1,
        h.entry_notMem hchild.live hblocks hd (hsub x hx).1 (hsub x hx).2⟩
  · intro x hx
    refine frame_entry (hn.entry x (hsub x hx).1) (hr.sameRoles_kfreeAll blocks) hn.ne_spare ?_ ?_
      fun hx' => ?_
    · rw [hsame]
      exact hr.name x
    · rw [hsame]
      exact hr.inode x
    · exact (h.liveInode_kfreeAll hd heq hblocks hr hc _).mpr
        ⟨hx'.live, fun he => (hsub x hx).2 (hchild.same_link hx' he).2⟩
  · exact (hlive _).mpr ⟨(hn.data h0).1, h.data_notMem hd heq hchild.live hblocks hd hcd h0⟩

/-- Any other directory or file. -/
theorem Forest.unlink_other (h : Forest s q role) (hd : LiveInode s d) (heq : e ∈ q d)
    (hchild : ChildOk s role d e) (hr : Relinks s s' d (q d) l)
    (hc : (s.entries e).inode ∈ blocks) (hblocks : OwnedBy s role e blocks) (hi : LiveInode s i)
    (hic : i ≠ (s.entries e).inode) (hid : i ≠ d) : NodeOk (s'.kfreeAll blocks) role (q i) i := by
  have hnd := h.node d hd
  have hn := h.node i hi
  have hlive := fun p => @Relinks.live_kfreeAll _ _ _ _ _ p hr blocks
  have hsame := s'.kfreeAll_same blocks
  have hne : ∀ x ∈ q i, x ≠ e := by
    rintro x hx rfl
    exact hid (hn.apart hnd hx heq)
  refine hn.frame (hr.sameRoles_kfreeAll blocks) ?_ (fun x hx => ?_) (fun x hx => ?_)
    (fun x _ hx => ?_) fun h0 => ?_
  · rw [hsame]
    exact hr.other i hid
  · rw [hsame]
    exact hr.outside x fun hm => hid (hn.apart hnd hx hm)
  · exact (hlive x).mpr ⟨hn.live x hx, h.entry_notMem hchild.live hblocks hi hx (hne x hx)⟩
  · exact (h.liveInode_kfreeAll hd heq hblocks hr hc _).mpr
      ⟨hx.live, fun he => hid (hchild.same_link hx he).1⟩
  · exact (hlive _).mpr ⟨(hn.data h0).1, h.data_notMem hd heq hchild.live hblocks hi hic h0⟩

end OwnedBy

/-- A child of the directory `d` is unlinked and freed with all that is its own. -/
theorem Forest.unlink {l₁ l₂ blocks : List Nat} (h : Forest s q role) (hd : LiveInode s d)
    (hq : q d = l₁ ++ e :: l₂) (hchild : ChildOk s role d e)
    (hr : Relinks s s' d (q d) (l₁ ++ l₂)) (hc : (s.entries e).inode ∈ blocks)
    (hblocks : OwnedBy s role e blocks) :
    Forest (s'.kfreeAll blocks) (Function.update q d (l₁ ++ l₂)) role ∧
      ∀ i, LiveInode (s'.kfreeAll blocks) i ↔ LiveInode s i ∧ i ≠ (s.entries e).inode := by
  have heq : e ∈ q d := hq ▸ List.mem_append_right l₁ List.mem_cons_self
  have hle : e ≤ s'.heap.requests := hr.heap ▸ ((h.node d hd).live e heq).le
  have hliveInode := h.liveInode_kfreeAll hd heq hblocks hr hc
  refine ⟨⟨?_, fun i hi => ?_, fun x hx => ?_, fun p hp => ?_, fun i hi => ?_⟩, hliveInode⟩
  · refine Ramfs.sane_kfreeAll (hr.heap ▸ h.sane) fun p hp => ?_
    rcases hblocks p hp with rfl | rfl | ⟨hp, -⟩
    · exact hle
    · exact hr.heap ▸ hchild.live.2.le
    · exact hr.heap ▸ hp
  · rw [s'.requests_kfreeAll, hr.heap]
    rw [s'.kfreeAll_same] at hi
    exact h.made i (hr.made ▸ hi)
  · rw [s'.kfreeAll_same] at hx
    exact h.dots x (hr.dots ▸ hx)
  · rw [s'.requests_kfreeAll, hr.heap] at hp
    exact h.spare p hp
  · obtain ⟨hi', hic⟩ := (hliveInode i).mp hi
    by_cases hid : i = d
    · subst hid
      rw [Function.update_self]
      exact h.unlink_dir hd hq hchild hr hc hblocks
    · rw [Function.update_of_ne hid]
      exact h.unlink_other hd heq hchild hr hc hblocks hi' hic hid

/-! ## Data -/

/-- Only the data of files and the sizes differ. -/
structure SameTree (s s' : Ramfs) : Prop where
  requests : s'.heap.requests = s.heap.requests
  entries : s'.entries = s.entries
  made : s'.made = s.made
  dots : s'.dots = s.dots
  inode : ∀ j, (s'.inodes j).privateData = (s.inodes j).privateData ∧
    (s'.inodes j).entries = (s.inodes j).entries ∧ (s'.inodes j).type = (s.inodes j).type

/-- The same tree, where blocks that were not in use may be for something now. -/
structure Rewrites (s s' : Ramfs) (q : Nat → List Nat) (role : Nat → Role) : Prop where
  forest : ∃ role', Forest s' q role' ∧ ∀ p, role p ≠ .spare → role' p = role p
  live : ∀ i, LiveInode s' i ↔ LiveInode s i

/-- What is written to a file leaves the tree as it is. -/
theorem Forest.setData {role' : Nat → Role} (h : Forest s q role) (ht : SameTree s s')
    (hsane : s'.heap.Sane) (hsame : ∀ p, role p ≠ .spare → role' p = role p)
    (hspare : ∀ p, s.heap.requests < p → role' p = .spare)
    (hback : ∀ p, s'.heap.Live p → s.heap.Live p)
    (hkeep : ∀ p, (∀ j, role p ≠ .data j) → s.heap.Live p → s'.heap.Live p)
    (hdata : ∀ j, LiveInode s j → (s'.inodes j).data ≠ 0 →
      s'.heap.Live (s'.inodes j).data ∧ role' (s'.inodes j).data = .data j) :
    Rewrites s s' q role := by
  have hliveInode : ∀ i, LiveInode s' i ↔ LiveInode s i := by
    intro i
    refine ⟨fun hi => ⟨ht.made ▸ hi.1, hback i hi.2⟩, fun hi => ⟨ht.made.symm ▸ hi.1, ?_⟩⟩
    obtain ⟨parent, entry, hr⟩ := (h.node i hi).marked
    exact hkeep i (fun j hj => nomatch hr.symm.trans hj) hi.2
  have hs : SameRoles s s' role role' :=
    ⟨hsame, fun p _ => by rw [ht.dots], fun p hp => ht.made.symm ▸ hp, fun p _ => (ht.inode p).2.2⟩
  refine ⟨⟨role', ⟨hsane, fun i hi => ?_, fun e he => ?_, fun p hp => ?_, fun i hi => ?_⟩, hsame⟩,
    hliveInode⟩
  · rw [ht.requests]
    exact h.made i (ht.made ▸ hi)
  · obtain ⟨d', hd'⟩ := h.dots e (ht.dots ▸ he)
    exact ⟨d', (hsame e fun hr => nomatch hd'.symm.trans hr).trans hd'⟩
  · exact hspare p (ht.requests ▸ hp)
  · have hi' := (hliveInode i).mp hi
    have hn := h.node i hi'
    refine hn.same hs (ht.inode i).1 (ht.inode i).2.1 (fun e _ => by rw [ht.entries])
      (fun e he => hkeep e (fun j hj => ?_) (hn.live e he))
      (fun e _ hc => (hliveInode _).mpr hc.live) (hdata i hi')
    rcases hn.entry_role he with hr | hr <;> exact nomatch hr.symm.trans hj

end SynapseKernel.Fs
