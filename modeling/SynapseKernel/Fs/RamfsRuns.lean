import SynapseKernel.Fs.RamfsWrites

/-! # Runs of a RamFS

A run starts with `ramfs_create_root` and goes on with operations on directories
and files in any order. An entry other than `.` and `..` is all that
`ramfs_rmdir` may remove for the tree to stay whole (`Sound`). -/
namespace SynapseKernel.Fs
open SynapseKernel.Word SynapseKernel.Kheap SynapseKernel.Blocks SynapseKernel.Str

/-- A RamFS with its root and the files that are open. -/
structure Mount where
  fs : Ramfs
  root : Nat
  files : List RamfsFile

inductive RamfsOp
  | create (parent : Nat) (name : CString) (type : FileType)
  | mkdir (parent : Nat) (name : CString)
  | rmdir (parent : Nat) (name : CString)
  | unlink (parent : Nat) (name : CString)
  | openFile (inode : Nat) (file : RamfsFile)
  | closeFile (fd : Nat)
  | read (file : RamfsFile) (count offset : Nat)
  | write (file : RamfsFile) (buf : List UInt8) (offset : Nat)

def Mount.set {α : Type} (m : Mount) (r : α × Ramfs) : Mount := { m with fs := r.2 }

/-- The next state. It is not told where a lookup does not end, or where `strcpy`
would run over the end of the name of an entry. -/
def ramfsStep (m : Mount) : RamfsOp → Option Mount
  | .create parent name type =>
    if h : name.bytes.length ≤ 255 then (ramfsCreate m.fs parent ⟨name, h⟩ type).map m.set else none
  | .mkdir parent name =>
    if h : name.bytes.length ≤ 255 then (ramfsMkdir m.fs parent ⟨name, h⟩).map m.set else none
  | .rmdir parent name => (ramfsRmdir m.fs parent name).map m.set
  | .unlink parent name => (ramfsUnlink m.fs parent name).map m.set
  | .openFile inode file => some { m with files := ramfsOpen inode file :: m.files }
  | .closeFile fd => some { m with files := m.files.eraseIdx fd }
  | .read _ _ _ => some m
  | .write file buf offset => some (m.set (ramfsWrite m.fs file buf offset))

def mountStep (m : Option Mount) (op : RamfsOp) : Option Mount := m.bind fun m => ramfsStep m op

/-- The RamFS that `ramfs_create_root` makes. -/
def mountRoot (s : Ramfs) : Mount := ⟨(ramfsCreateRoot s).2, (ramfsCreateRoot s).1, []⟩

/-- Nothing made yet, in a heap that grants everything. -/
def freshRamfs : Ramfs :=
  { heap := ⟨fun _ => true, fun block => block, 0, []⟩
    inodes := fun _ => ⟨0, .regular, 0, 0, 0, 0, 0, 0, 0, 0, 0, 0, 0, 0⟩
    entries := fun _ => ⟨dotName, 0, 0, 0⟩
    bytes := fun _ _ => 0
    nextInode := 1
    made := []
    dots := [] }

def aName : FileName := ⟨⟨[97], by decide⟩, by decide⟩

theorem liveInode_freshRoot : LiveInode (mountRoot freshRamfs).fs (mountRoot freshRamfs).root :=
  ⟨by decide, by decide, by decide, by decide, by decide⟩

/-- What `Always` is asked of, where a step may have no next state. -/
def Mounted (P : Mount → Prop) (m : Option Mount) : Prop := ∃ m', m = some m' ∧ P m'

/-- The operation frees the inode `i`. -/
def Frees (s : Ramfs) : RamfsOp → Nat → Prop
  | .rmdir parent name, i => ∃ e, RmdirTarget s parent name e ∧ (s.entries e).inode = i
  | .unlink parent name, i => ∃ e, UnlinkTarget s parent name e ∧ (s.entries e).inode = i
  | _, _ => False

/-- Names fit, only live inodes are worked on and neither `.` nor `..` is removed. -/
def Sound (s : Ramfs) : RamfsOp → Prop
  | .create parent name _ => LiveInode s parent ∧ name.bytes.length ≤ 255
  | .mkdir parent name => LiveInode s parent ∧ name.bytes.length ≤ 255
  | .rmdir parent name => LiveInode s parent ∧ ∀ e, RmdirTarget s parent name e → e ∉ s.dots
  | .unlink parent _ => LiveInode s parent
  | .write file _ _ => LiveInode s file.inode
  | _ => True

/-- A whole tree with a root that is no one's child. -/
structure Whole (m : Mount) (q : Nat → List Nat) (role : Nat → Role) : Prop where
  forest : Forest m.fs q role
  live : LiveInode m.fs m.root
  root : role m.root = .inode m.root 0

variable {m m' : Mount} {s s' : Ramfs} {d : Nat} {q : Nat → List Nat} {role : Nat → Role}
  {type : FileType} {name : FileName} {op : RamfsOp}

/-- What a step keeps: a whole tree, its root and every inode it does not free. -/
structure Carries (m m' : Mount) (gone : Nat → Prop) : Prop where
  whole : ∃ q role, Whole m' q role
  root : m'.root = m.root
  live : ∀ i, LiveInode m.fs i → ¬ gone i → LiveInode m'.fs i

variable {gone : Nat → Prop}

/-- All that a sound operation does to the tree. -/
inductive Effect (s s' : Ramfs) (q : Nat → List Nat) (role : Nat → Role) (gone : Nat → Prop) : Prop
  | quiet : Quiet s s' → Effect s s' q role gone
  | linked {d : Nat} {name : FileName} {type : FileType} : LiveInode s d →
    Created s (accept s d name type) q role d name type (s.heap.requests + 1)
      (s.heap.requests + 2) → Quiet (accept s d name type) s' → Effect s s' q role gone
  | madeDir {d : Nat} {name : FileName} : LiveInode s d → (s.inodes d).type = .directory →
    (∀ e ∈ q d, (s.entries e).name ≠ name) → s.heap.GrantsNext 4 →
    s' = linkDots (roomForDots (accept s d name .directory)) (s.heap.requests + 1) d
      (s.heap.requests + 3) (s.heap.requests + 4) → Effect s s' q role gone
  | removed {d e : Nat} {blocks : List Nat} : LiveInode s d → e ∈ q d →
    s' = (removeEntry s d e).kfreeAll blocks → Removed s s' q role d e →
    gone (s.entries e).inode → Effect s s' q role gone
  | rewrites : s'.dots = s.dots → Rewrites s s' q role → Effect s s' q role gone

theorem Forest.effect_create (h : Forest s q role) (hd : LiveInode s d) (name : FileName)
    (type : FileType) :
    ∃ r s', ramfsCreate s d name type = some (r, s') ∧ Effect s s' q role gone := by
  by_cases hname : (s.inodes d).type ≠ .directory ∨ ∃ e ∈ q d, (s.entries e).name = name
  · exact ⟨0, s, ramfsCreate_refused h hd hname, .quiet (.refl s)⟩
  obtain ⟨htype, hname⟩ := not_or.mp hname
  have habsent : ∀ e ∈ q d, (s.entries e).name ≠ name := fun e he hen => hname ⟨e, he, hen⟩
  rcases @ramfsCreate_absent _ _ _ _ type _ h hd (not_not.mp htype) habsent with
    ⟨-, s', hcall, hq⟩ | ⟨hg, hcall⟩
  · exact ⟨0, s', hcall, .quiet hq⟩
  · exact ⟨_, _, hcall, .linked hd (created_accept h hd habsent hg) (.refl _)⟩

theorem Forest.effect_mkdir (h : Forest s q role) (hd : LiveInode s d) (name : FileName) :
    ∃ r s', ramfsMkdir s d name = some (r, s') ∧ Effect s s' q role gone := by
  by_cases hname : (s.inodes d).type ≠ .directory ∨ ∃ e ∈ q d, (s.entries e).name = name
  · exact ⟨-1, s, ramfsMkdir_refused h hd hname, .quiet (.refl s)⟩
  obtain ⟨htype, hname⟩ := not_or.mp hname
  have htype := not_not.mp htype
  have habsent : ∀ e ∈ q d, (s.entries e).name ≠ name := fun e he hen => hname ⟨e, he, hen⟩
  rcases ramfsMkdir_absent h hd htype habsent with
    ⟨-, s', hcall, hq | ⟨hg, hq⟩⟩ | ⟨hg, hcall⟩
  · exact ⟨-1, s', hcall, .quiet hq⟩
  · -- the directory was made, but there was no room for its entries
    exact ⟨-1, s', hcall, .linked hd (created_accept h hd habsent hg) hq⟩
  · exact ⟨0, _, hcall, .madeDir hd htype habsent hg rfl⟩

theorem Forest.effect_rmdir (h : Forest s q role) (hd : LiveInode s d) {n : CString}
    (hdots : ∀ e, RmdirTarget s d n e → e ∉ s.dots) :
    ∃ r s', ramfsRmdir s d n = some (r, s') ∧ Effect s s' q role (Frees s (.rmdir d n)) := by
  rcases ramfsRmdir_cases h hd n with hcall | ⟨e, he, -, ht, s', hcall, hremoved⟩
  · exact ⟨-1, s, hcall, .quiet (.refl s)⟩
  · have hremoved := hremoved (hdots e ht)
    have hs' : s' = (removeEntry s d e).kfreeAll
        [e, (s.inodes (s.entries e).inode).privateData] := by
      rw [ramfsRmdir_eq ht, (h.node d hd).self] at hcall
      exact (Prod.mk.inj (Option.some.inj hcall)).2.symm
    exact ⟨0, s', hcall, .removed hd he hs' hremoved ⟨e, ht, rfl⟩⟩

theorem Forest.effect_unlink (h : Forest s q role) (hd : LiveInode s d) (n : CString) :
    ∃ r s', ramfsUnlink s d n = some (r, s') ∧ Effect s s' q role (Frees s (.unlink d n)) := by
  rcases ramfsUnlink_cases h hd n with hcall | ⟨e, he, -, ht, s', hcall, hremoved⟩
  · exact ⟨-1, s, hcall, .quiet (.refl s)⟩
  · have hs' : s' = (removeEntry s d e).kfreeAll (ownBlocks s e) := by
      rw [ramfsUnlink_eq h hd he hremoved.child ht] at hcall
      exact (Prod.mk.inj (Option.some.inj hcall)).2.symm
    exact ⟨0, s', hcall, .removed hd he hs' hremoved ⟨e, ht, rfl⟩⟩

/-- **A sound operation** does one of these. -/
theorem Whole.effect (h : Whole m q role) (hs : Sound m.fs op) :
    ∃ m', ramfsStep m op = some m' ∧ m'.root = m.root ∧
      Effect m.fs m'.fs q role (Frees m.fs op) := by
  cases op with
  | create parent name type =>
    obtain ⟨r, s', hcall, heffect⟩ :=
      @Forest.effect_create m.fs parent q role (Frees m.fs (.create parent name type)) h.forest
        hs.1 ⟨name, hs.2⟩ type
    rw [ramfsStep, dif_pos hs.2, hcall]
    exact ⟨_, rfl, rfl, heffect⟩
  | mkdir parent name =>
    obtain ⟨r, s', hcall, heffect⟩ :=
      @Forest.effect_mkdir m.fs parent q role (Frees m.fs (.mkdir parent name)) h.forest hs.1
        ⟨name, hs.2⟩
    rw [ramfsStep, dif_pos hs.2, hcall]
    exact ⟨_, rfl, rfl, heffect⟩
  | rmdir parent name =>
    obtain ⟨r, s', hcall, heffect⟩ := h.forest.effect_rmdir hs.1 hs.2
    rw [ramfsStep, hcall]
    exact ⟨_, rfl, rfl, heffect⟩
  | unlink parent name =>
    obtain ⟨r, s', hcall, heffect⟩ := h.forest.effect_unlink hs name
    rw [ramfsStep, hcall]
    exact ⟨_, rfl, rfl, heffect⟩
  | openFile inode file => exact ⟨_, rfl, rfl, .quiet (.refl _)⟩
  | closeFile fd => exact ⟨_, rfl, rfl, .quiet (.refl _)⟩
  | read file count offset => exact ⟨_, rfl, rfl, .quiet (.refl _)⟩
  | write file buf offset =>
    have hmoves := @dataMoves_write m.fs file buf offset h.forest.sane (h.forest.node _ hs).self
    exact ⟨_, rfl, rfl, .rewrites hmoves.dots (ramfsWrite_forest h.forest hs buf offset)⟩

theorem Whole.quiet (h : Whole m q role) (hroot : m'.root = m.root) (hq : Quiet m.fs m'.fs) :
    Carries m m' gone := by
  have hlive : ∀ i, LiveInode m'.fs i ↔ LiveInode m.fs i := fun i => hq.liveInode h.forest.made
  refine ⟨⟨q, role, h.forest.quiet hq, ?_, ?_⟩, hroot, fun i hi _ => (hlive i).mpr hi⟩
  · rw [hroot]
    exact (hlive _).mpr h.live
  · rw [hroot]
    exact h.root

theorem Whole.made {c : Nat} (h : Whole m q role) (hroot : m'.root = m.root)
    (hm : Made m.fs m'.fs q role d name type c) : Carries m m' gone := by
  obtain ⟨q', role', e, hf, -, hrole, -⟩ := hm.forest
  refine ⟨⟨q', role', hf, ?_, ?_⟩, hroot, fun i hi _ => hm.kept i hi⟩
  · rw [hroot]
    exact hm.kept _ h.live
  · rw [hroot]
    exact (hrole _ (h.forest.node _ h.live).ne_spare).trans h.root

theorem Whole.removed {e : Nat} (h : Whole m q role) (hroot : m'.root = m.root)
    (hd : LiveInode m.fs d) (he : e ∈ q d) (hm : Removed m.fs m'.fs q role d e)
    (hgone : gone (m.fs.entries e).inode) : Carries m m' gone := by
  obtain ⟨l₁, l₂, -, hf, -⟩ := hm.forest
  -- the root is linked by no entry
  have hne : m.root ≠ (m.fs.entries e).inode := by
    intro hre
    have hlinked := hm.child.linked
    rw [← hre, h.root] at hlinked
    have hpos := ((h.forest.node d hd).live e he).pos
    exact Nat.ne_of_gt hpos (Role.inode.inj hlinked).2.symm
  refine ⟨⟨_, role, hf, ?_, ?_⟩, hroot, fun i hi hg => ?_⟩
  · rw [hroot]
    exact (hm.live _).mpr ⟨h.live, hne⟩
  · rw [hroot]
    exact h.root
  · exact (hm.live i).mpr ⟨hi, fun hie => hg (hie ▸ hgone)⟩

theorem Whole.rewrites (h : Whole m q role) (hroot : m'.root = m.root)
    (hr : Rewrites m.fs m'.fs q role) : Carries m m' gone := by
  obtain ⟨role', hf, hrole⟩ := hr.forest
  refine ⟨⟨q, role', hf, ?_, ?_⟩, hroot, fun i hi _ => (hr.live i).mpr hi⟩
  · rw [hroot]
    exact (hr.live _).mpr h.live
  · rw [hroot]
    exact (hrole _ (h.forest.node _ h.live).ne_spare).trans h.root

/-- **A sound step** keeps the tree whole. -/
theorem Whole.step (h : Whole m q role) (hs : Sound m.fs op) :
    ∃ m', ramfsStep m op = some m' ∧ Carries m m' (Frees m.fs op) := by
  obtain ⟨m', hstep, hroot, heffect⟩ := h.effect hs
  refine ⟨m', hstep, ?_⟩
  cases heffect with
  | quiet hq => exact h.quiet hroot hq
  | linked hd hc hq => exact h.made hroot ((hc.made' h.forest).quiet hd hq)
  | madeDir hd htype hname hg hs' =>
    have hmade := made_mkdir h.forest hd htype hname hg
    rw [← hs'] at hmade
    exact h.made hroot hmade
  | removed hd he _ hr hgone => exact h.removed hroot hd he hr hgone
  | rewrites _ hr => exact h.rewrites hroot hr

theorem whole_mountRoot (hs : s.heap.Sane) (hm : s.made = []) (hd : s.dots = [])
    (h0 : (ramfsCreateRoot s).1 ≠ 0) : ∃ q role, Whole (mountRoot s) q role := by
  obtain ⟨q, role, hf, hl, hr⟩ := forest_createRoot hs hm hd h0
  exact ⟨q, role, hf, hl, hr⟩

end SynapseKernel.Fs
