import SynapseKernel.Fs.RamfsUndo

/-! # What `ramfs_rmdir` takes for an empty directory

The test for emptiness looks at the two pointers and the name of the first entry. It
holds of `.` and `..`, and of a lone entry or a pair of entries as well when the first
is a child that is called `.` (`rmdir_discards_nothing_iff`). A directory made by
`ramfs_create`, or by a failed `ramfs_mkdir`, can have such a child. -/
namespace SynapseKernel.Fs
open SynapseKernel.Word SynapseKernel.Kheap SynapseKernel.Str SynapseKernel.Ring

/-- The entries made as `.` and `..` are both there, as the first two, or not at all. -/
def Shaped (s : Ramfs) (l : List Nat) : Prop :=
  (∀ e ∈ l, e ∉ s.dots) ∨
  ∃ dot dotdot rest, l = dot :: dotdot :: rest ∧ dot ∈ s.dots ∧ dotdot ∈ s.dots ∧
    ∀ e ∈ rest, e ∉ s.dots

variable {m m' : Mount} {s s' : Ramfs} {d e c i p : Nat} {q q' : Nat → List Nat}
  {role role' : Nat → Role} {name : FileName} {type : FileType} {l l₁ l₂ : List Nat}
  {op : RamfsOp} {gone : Nat → Prop}

/-! ## How the rings are built -/

theorem Shaped.congr (h : Shaped s l) (hd : ∀ e ∈ l, e ∈ s'.dots ↔ e ∈ s.dots) : Shaped s' l := by
  rcases h with hno | ⟨dot, dotdot, rest, rfl, hdot, hdotdot, hrest⟩
  · exact .inl fun e he => mt (hd e he).mp (hno e he)
  · refine .inr ⟨dot, dotdot, rest, rfl, (hd _ ?_).mpr hdot, (hd _ ?_).mpr hdotdot,
      fun e he => mt (hd e ?_).mp (hrest e he)⟩
    · exact List.mem_cons_self
    · exact List.mem_cons_of_mem _ List.mem_cons_self
    · exact List.mem_cons_of_mem _ (List.mem_cons_of_mem _ he)

/-- A child goes to the end. -/
theorem Shaped.append (h : Shaped s l) (he : e ∉ s.dots) : Shaped s (l ++ [e]) := by
  have hlast : ∀ {l : List Nat}, (∀ x ∈ l, x ∉ s.dots) → ∀ x ∈ l ++ [e], x ∉ s.dots := by
    intro l hl x hx
    rcases List.mem_append.mp hx with hx | hx
    · exact hl x hx
    · exact List.mem_singleton.mp hx ▸ he
  rcases h with hno | ⟨dot, dotdot, rest, rfl, hdot, hdotdot, hrest⟩
  · exact .inl (hlast hno)
  · exact .inr ⟨dot, dotdot, rest ++ [e], rfl, hdot, hdotdot, hlast hrest⟩

/-- A child is taken out. -/
theorem Shaped.remove (h : Shaped s (l₁ ++ e :: l₂)) (he : e ∉ s.dots) : Shaped s (l₁ ++ l₂) := by
  have hsub : ∀ {l : List Nat} {x : Nat}, x ∈ l ++ l₂ → x ∈ l ++ e :: l₂ := fun hx =>
    ((List.sublist_cons_self e l₂).append_left _).subset hx
  rcases h with hno | ⟨dot, dotdot, rest, hl, hdot, hdotdot, hrest⟩
  · exact .inl fun x hx => hno x (hsub hx)
  cases l₁ with
  | nil =>
    obtain ⟨rfl, -⟩ := List.cons.inj hl
    exact absurd hdot he
  | cons a l₁ =>
    obtain ⟨rfl, hl'⟩ := List.cons.inj hl
    cases l₁ with
    | nil =>
      obtain ⟨rfl, -⟩ := List.cons.inj hl'
      exact absurd hdotdot he
    | cons b l₁ =>
      obtain ⟨rfl, rfl⟩ := List.cons.inj hl'
      exact .inr ⟨a, b, l₁ ++ l₂, rfl, hdot, hdotdot, fun x hx => hrest x (hsub hx)⟩

theorem dots_addEntry (s : Ramfs) (d e : Nat) : (addEntry s d e).dots = s.dots := by
  simp only [addEntry]
  split <;> rfl

theorem dots_removeEntry (s : Ramfs) (d e : Nat) : (removeEntry s d e).dots = s.dots := by
  simp only [removeEntry]
  split <;> rfl

theorem Forest.notMem_dots (h : Forest s q role) (hp : s.heap.requests < p) : p ∉ s.dots := by
  intro hm
  obtain ⟨d, hd⟩ := h.dots p hm
  cases (h.spare p hp).symm.trans hd

/-- The live inodes after a creation. -/
theorem Created.liveInode (hc : Created s s' q role d name type c e)
    (hmade : ∀ i ∈ s.made, i ≤ s.heap.requests) (hi : LiveInode s' i) : i = c ∨ LiveInode s i := by
  have hm := hi.1
  rw [hc.made] at hm
  rcases List.mem_cons.mp hm with rfl | hm
  · exact .inl rfl
  · exact .inr ⟨hm, (hc.heap.live i (hmade i hm)).mp hi.2⟩

theorem Whole.of_forest (h : Whole m q role) (hroot : m'.root = m.root) (hf : Forest m'.fs q' role')
    (hl : LiveInode m'.fs m.root) (hr : role' m.root = role m.root) : Whole m' q' role' := by
  refine ⟨hf, ?_, ?_⟩
  · rw [hroot]
    exact hl
  · rw [hroot]
    exact hr.trans h.root

/-- A whole tree of directories that are built so. -/
def ShapedTree (m : Mount) : Prop :=
  ∃ q role, Whole m q role ∧ ∀ i, LiveInode m.fs i → Shaped m.fs (q i)

section Step
variable (h : Whole m q role) (hsh : ∀ i, LiveInode m.fs i → Shaped m.fs (q i))
  (hroot : m'.root = m.root)
include h hsh hroot

/-- A new inode has no entries, and its own is no `.` or `..`. -/
theorem shapedTree_linked (hd : LiveInode m.fs d) (hc : Created m.fs (accept m.fs d name type) q role
      d name type (m.fs.heap.requests + 1) (m.fs.heap.requests + 2))
    (hq : Quiet (accept m.fs d name type) m'.fs) : ShapedTree m' := by
  have hmade := (hc.made' h.forest).quiet hd hq
  have hle := h.live.2.le
  refine ⟨_, _, h.of_forest hroot (hc.forest.quiet hq) (hmade.kept _ h.live) ?_, fun i hi => ?_⟩
  · rw [Function.update_of_ne (by omega), Function.update_of_ne (by omega)]
  have hdots : m'.fs.dots = m.fs.dots := hq.dots.trans (dots_addEntry _ _ _)
  have hi := hc.liveInode h.forest.made ((hq.liveInode hc.forest.made).mp hi)
  have hdc : d ≠ m.fs.heap.requests + 1 := Nat.ne_of_lt (Nat.lt_succ_of_le hd.2.le)
  have hshape : Shaped m.fs (Function.update (Function.update q (m.fs.heap.requests + 1) []) d
      (q d ++ [m.fs.heap.requests + 2]) i) := by
    by_cases hid : i = d
    · rw [hid, Function.update_self]
      exact (hsh d hd).append (h.forest.notMem_dots (by omega))
    · rw [Function.update_of_ne hid]
      rcases hi with rfl | hi
      · rw [Function.update_self]
        exact .inl fun e he => nomatch he
      · rw [Function.update_of_ne (Nat.ne_of_lt (Nat.lt_succ_of_le hi.2.le))]
        exact hsh i hi
  exact hshape.congr fun e _ => by rw [hdots]

/-- A new directory has `.` and `..`. -/
theorem shapedTree_madeDir (hd : LiveInode m.fs d) (htype : (m.fs.inodes d).type = .directory)
    (hname : ∀ e ∈ q d, (m.fs.entries e).name ≠ name) (hg : m.fs.heap.GrantsNext 4)
    (hs' : m'.fs = withDir m.fs d name) : ShapedTree m' := by
  have hc := @created_accept m.fs d q role .directory name h.forest hd hname fun i hi =>
    hg i (by omega)
  have hmade := made_mkdir h.forest hd htype hname hg
  have hf := forest_mkdir h.forest hd htype hname hg
  rw [← withDir, ← hs'] at hmade hf
  have hle := h.live.2.le
  refine ⟨_, _, h.of_forest hroot hf (hmade.kept _ h.live) ?_, fun i hi => ?_⟩
  · rw [dotRoles_of_ne (by omega) (by omega), Function.update_of_ne (by omega),
      Function.update_of_ne (by omega)]
  have hdots : m'.fs.dots =
      (m.fs.heap.requests + 3) :: (m.fs.heap.requests + 4) :: m.fs.dots := by
    have haccept : (accept m.fs d name .directory).dots = m.fs.dots := dots_addEntry _ _ _
    rw [hs', ← haccept]
    rfl
  have hdc : d ≠ m.fs.heap.requests + 1 := Nat.ne_of_lt (Nat.lt_succ_of_le hd.2.le)
  by_cases hic : i = m.fs.heap.requests + 1
  · rw [hic, Function.update_self]
    refine .inr ⟨_, _, [], rfl, ?_, ?_, fun e he => absurd he List.not_mem_nil⟩ <;> rw [hdots]
    · exact List.mem_cons_self
    · exact List.mem_cons_of_mem _ List.mem_cons_self
  rw [Function.update_of_ne hic]
  have hi' : LiveInode m.fs i := by
    rw [hs'] at hi
    have hi₁ := ((quiet_roomForDots (accept m.fs d name .directory)).liveInode hc.forest.made).mp hi
    exact (hc.liveInode h.forest.made hi₁).resolve_left hic
  have hnew : ∀ x, x ≤ m.fs.heap.requests + 2 → (x ∈ m'.fs.dots ↔ x ∈ m.fs.dots) := by
    intro x hx
    rw [hdots, List.mem_cons, List.mem_cons]
    refine ⟨fun hm => ?_, fun hm => .inr (.inr hm)⟩
    rcases hm with rfl | rfl | hm
    · omega
    · omega
    · exact hm
  have hold : ∀ x ∈ q i, x ≤ m.fs.heap.requests := fun x hx =>
    ((h.forest.node i hi').live x hx).le
  by_cases hid : i = d
  · subst hid
    rw [Function.update_self]
    refine ((hsh i hi').append (h.forest.notMem_dots (by omega))).congr fun x hx => hnew x ?_
    rcases List.mem_append.mp hx with hx | hx
    · exact Nat.le_add_right_of_le (hold x hx)
    · exact Nat.le_of_eq (List.mem_singleton.mp hx)
  · rw [Function.update_of_ne hid, Function.update_of_ne hic]
    exact (hsh i hi').congr fun x hx => hnew x (Nat.le_add_right_of_le (hold x hx))

/-- A child is removed from its directory. -/
theorem shapedTree_removed {blocks : List Nat} (hd : LiveInode m.fs d) (he : e ∈ q d)
    (hs' : m'.fs = (removeEntry m.fs d e).kfreeAll blocks) (hr : Removed m.fs m'.fs q role d e) :
    ShapedTree m' := by
  obtain ⟨l₁, l₂, hq, hf, -⟩ := hr.forest
  have hne : m.root ≠ (m.fs.entries e).inode := by
    intro hre
    have hlinked := hr.child.linked
    rw [← hre, h.root] at hlinked
    exact Nat.ne_of_gt ((h.forest.node d hd).live e he).pos (Role.inode.inj hlinked).2.symm
  have hdots : m'.fs.dots = m.fs.dots := by
    rw [hs', Ramfs.kfreeAll_same]
    exact dots_removeEntry _ _ _
  refine ⟨_, _, h.of_forest hroot hf ((hr.live _).mpr ⟨h.live, hne⟩) rfl, fun i hi => ?_⟩
  have hi' := ((hr.live i).mp hi).1
  have hshape : Shaped m.fs (Function.update q d (l₁ ++ l₂) i) := by
    by_cases hid : i = d
    · rw [hid, Function.update_self]
      have hsd := hsh d hd
      rw [hq] at hsd
      exact hsd.remove hr.child.proper
    · rw [Function.update_of_ne hid]
      exact hsh i hi'
  exact hshape.congr fun x _ => by rw [hdots]

end Step

/-- **A sound step** keeps the directories so. -/
theorem ShapedTree.step (h : ShapedTree m) (hs : Sound m.fs op) (hstep : ramfsStep m op = some m') :
    ShapedTree m' := by
  obtain ⟨q, role, h, hsh⟩ := h
  obtain ⟨m'', hstep', hroot, heffect⟩ := h.effect hs
  obtain rfl := Option.some.inj (hstep'.symm.trans hstep)
  cases heffect with
  | quiet hq =>
    have hlive : ∀ i, LiveInode m''.fs i ↔ LiveInode m.fs i := fun i => hq.liveInode h.forest.made
    refine ⟨q, role, h.of_forest hroot (h.forest.quiet hq) ((hlive _).mpr h.live) rfl,
      fun i hi => ?_⟩
    exact (hsh i ((hlive i).mp hi)).congr fun x _ => by rw [hq.dots]
  | linked hd hc hq => exact shapedTree_linked h hsh hroot hd hc hq
  | madeDir hd htype hname hg hs' => exact shapedTree_madeDir h hsh hroot hd htype hname hg hs'
  | removed hd he hs' hr _ => exact shapedTree_removed h hsh hroot hd he hs' hr
  | rewrites hdots hr =>
    obtain ⟨role', hf, hrole⟩ := hr.forest
    have hused := (h.forest.node _ h.live).ne_spare
    refine ⟨q, role', h.of_forest hroot hf ((hr.live _).mpr h.live) (hrole _ hused), fun i hi => ?_⟩
    exact (hsh i ((hr.live i).mp hi)).congr fun x _ => by rw [hdots]

/-- The state after the operation. -/
def after (m : Mount) (op : RamfsOp) : Mount := (ramfsStep m op).getD m

theorem RamfsReach.after (h : RamfsReach m) (hs : Sound m.fs op) : RamfsReach (after m op) := by
  obtain ⟨q, role, hw⟩ := h.whole
  obtain ⟨m', hstep, -⟩ := hw.step hs
  refine h.step hs ?_
  rw [Fs.after, hstep]
  rfl

end SynapseKernel.Fs
