import SynapseKernel.Fs.TmpfsMount

/-! # Removal in tmpfs (kernel/fs/tmpfs.c)

`rmdir` and `unlink` free the inode that the path resolves to, which is the root of
what is mounted, whatever follows the mount point in the path. The roots and the inodes
of open descriptors stay allocated in the runs in which nothing is removed
(`outlives_iff`). -/
namespace SynapseKernel.Fs
open SynapseKernel.Word SynapseKernel.Kheap SynapseKernel.Str SynapseKernel.Runs

def TmpfsMounts.kfree (s : TmpfsMounts) (block : Nat) : TmpfsMounts :=
  { s with heap := s.heap.kfree block }

/-- `tmpfs_unlink`, and `unlink` with it. -/
def unlink (s : TmpfsMounts) (path : CString) : Option (Int × TmpfsMounts) :=
  match resolvePath s path with
  | none => none
  | some inode =>
    if inode = 0 ∨ (s.inodes inode).type = ftDirectory then some (-1, s)
    else
      let data := (s.inodes inode).data
      let s := if data ≠ 0 then s.kfree data else s
      some (0, s.kfree inode)

/-- `tmpfs_rmdir`, and `rmdir` with it. -/
def rmdir (s : TmpfsMounts) (path : CString) : Option (Int × TmpfsMounts) :=
  match resolvePath s path with
  | none => none
  | some inode =>
    if inode = 0 ∨ (s.inodes inode).type ≠ ftDirectory ∨ 0 < (s.info inode).childCount then
      some (-1, s)
    else
      let children := (s.info inode).children
      let s := if children ≠ 0 then s.kfree children else s
      some (0, s.kfree inode)

/-! ## Runs -/

inductive PathOp
  | open (path : CString) (flags : Nat)
  | mkdir (path : CString) (mode : Nat)
  | rmdir (path : CString)
  | unlink (path : CString)

def pathCall (s : TmpfsMounts) : PathOp → Option (Int × TmpfsMounts)
  | .open path flags => openPath s path flags
  | .mkdir path mode => mkdir s path mode
  | .rmdir path => rmdir s path
  | .unlink path => unlink s path

/-- The path that the operation creates when it succeeds. -/
def PathOp.creates : PathOp → Option CString
  | .open path flags => if flags &&& oCreat ≠ 0 then some path else none
  | .mkdir path _ => some path
  | .rmdir _ => none
  | .unlink _ => none

/-- The file system, with the paths created so far. -/
structure NamedTmpfs where
  fs : TmpfsMounts
  created : List CString

def pathNext (t : NamedTmpfs) (op : PathOp) : NamedTmpfs :=
  match pathCall t.fs op with
  | none => t
  | some (result, s) =>
    ⟨s, if result = -1 then t.created else op.creates.toList ++ t.created⟩

/-- Everything that is mounted has a root, and the root is allocated. -/
def RootsLive (s : TmpfsMounts) : Prop :=
  ∀ m ∈ s.mountPoints, ∃ root, m.fsData = some root ∧ s.heap.Live root

/-- The inodes of open descriptors are allocated. -/
def DescriptorsLive (s : TmpfsMounts) : Prop :=
  ∀ fd, IsOpen s.toTmpfs fd → s.heap.Live (s.file fd)

/-- The operation leaves roots and open inodes allocated, and `rmdir` fails on a path that
nothing created. -/
def Outlives (t : NamedTmpfs) (op : PathOp) : Prop :=
  ∃ result s', pathCall t.fs op = some (result, s') ∧ RootsLive s' ∧ DescriptorsLive s' ∧
    ∀ path, op = .rmdir path → path ∉ t.created → result = -1

/-- No `rmdir` of a path under a mount with an empty directory as its root, and no
`unlink` of one under a mount with another root. -/
def RemovesNothing (s : TmpfsMounts) : PathOp → Prop
  | .open _ _ => True
  | .mkdir _ _ => True
  | .rmdir path => ∀ m root, findMountPoint s.mountPoints path = some m → m.fsData = some root →
      (s.inodes root).type ≠ ftDirectory ∨ 0 < (s.info root).childCount
  | .unlink path => ∀ m root, findMountPoint s.mountPoints path = some m →
      m.fsData = some root → (s.inodes root).type = ftDirectory

variable {s s' : TmpfsMounts} {path : CString} {inode : Nat} {op : PathOp}

/-- The state between two operations. -/
structure Rooted (s : TmpfsMounts) : Prop where
  sane : s.heap.Sane
  roots : RootsLive s
  descriptors : DescriptorsLive s

/-- A path leads nowhere or to a root. -/
theorem RootsLive.resolve (h : RootsLive s) (path : CString) :
    (findMountPoint s.mountPoints path = none ∧ resolvePath s path = some 0) ∨
    ∃ m root, findMountPoint s.mountPoints path = some m ∧ m ∈ s.mountPoints ∧
      m.fsData = some root ∧ s.heap.Live root ∧ resolvePath s path = some root := by
  rw [resolvePath]
  cases hfind : findMountPoint s.mountPoints path with
  | none => exact .inl ⟨rfl, rfl⟩
  | some m =>
    have hm : m ∈ s.mountPoints := List.mem_of_find?_eq_some hfind
    obtain ⟨root, hroot, hlive⟩ := h m hm
    exact .inr ⟨m, root, rfl, hm, hroot, hlive, hroot⟩

/-- Roots and descriptors through what only adds blocks. -/
theorem Rooted.adds (h : Rooted s) (ha : Adds s s') : Rooted s' := by
  have hlive : ∀ b, s.heap.Live b → s'.heap.Live b := fun b hb => (ha.heap.live b hb.le).mpr hb
  refine ⟨ha.heap.sane h.sane, fun m hm => ?_, fun fd hopen => ?_⟩
  · rw [ha.mountPoints] at hm
    obtain ⟨root, hroot, hl⟩ := h.roots m hm
    exact ⟨root, hroot, hlive root hl⟩
  · simp only [IsOpen, Tmpfs.file, ha.fileDescriptors] at hopen ⊢
    exact hlive _ (h.descriptors fd hopen)

/-- A descriptor on an inode that is allocated. -/
theorem Rooted.allocFileDescriptor (h : Rooted s) (hl : s.heap.Live inode) (flags : Nat) :
    Rooted (allocFileDescriptor s inode flags).2 := by
  rw [Fs.allocFileDescriptor]
  split
  · exact h
  · next i _ =>
    refine ⟨h.sane, h.roots, fun fd hopen => ?_⟩
    by_cases hi : fd.toNat = i
    · simp only [Tmpfs.file, hi, Function.update_self]
      exact hl
    · simp only [IsOpen, Tmpfs.file, Function.update_of_ne hi] at hopen ⊢
      exact h.descriptors fd hopen

/-! ## One operation -/

theorem Rooted.open (h : Rooted s) (path : CString) (flags : Nat) :
    ∃ result s', openPath s path flags = some (result, s') ∧ Rooted s' := by
  rw [openPath_eq]
  rcases h.roots.resolve path with ⟨-, hr⟩ | ⟨m, root, -, -, -, hl, hr⟩
  · rw [hr, Option.map_some, if_pos rfl]
    exact ⟨-1, s, rfl, h⟩
  · rw [hr, Option.map_some, if_neg (Nat.ne_of_gt hl.pos)]
    exact ⟨_, _, rfl, h.allocFileDescriptor hl flags⟩

theorem Rooted.mkdir (h : Rooted s) (path : CString) (mode : Nat) :
    ∃ result s', mkdir s path mode = some (result, s') ∧ Rooted s' := by
  rw [Fs.mkdir]
  rcases tmpfsCreate_cases s path ftDirectory mode with
    ⟨hnull, -⟩ | ⟨s', -, -, hc, ha⟩ | ⟨-, hc⟩
  · rcases h.roots.resolve path with ⟨-, hr⟩ | ⟨_, root, -, -, -, -, hr⟩
    · rw [hnull] at hr
      cases hr
    · rw [hnull] at hr
      cases hr
  · rw [hc]
    exact ⟨_, s', rfl, h.adds ha⟩
  · rw [hc]
    exact ⟨_, _, rfl, h.adds (adds_withInode s ftDirectory mode)⟩

/-- A root that is freed is not allocated any more. -/
theorem not_rootsLive_kfree {m : MountPoint} {root : Nat} (hm : m ∈ s.mountPoints)
    (hroot : m.fsData = some root) : ¬ RootsLive (s.kfree root) := by
  intro h
  obtain ⟨root', hroot', hl⟩ := h m hm
  obtain rfl := Option.some.inj (hroot.symm.trans hroot')
  exact (BlockHeap.live_kfree.mp hl).2 rfl

/-- What holds of the root that the path leads to. -/
theorem forall_root_iff {m : MountPoint} {root : Nat} {P : Nat → Prop}
    (hfind : findMountPoint s.mountPoints path = some m) (hroot : m.fsData = some root) :
    (∀ m' root', findMountPoint s.mountPoints path = some m' → m'.fsData = some root' →
      P root') ↔ P root := by
  refine ⟨fun h => h m root hfind hroot, fun h m' root' hfind' hroot' => ?_⟩
  obtain rfl := Option.some.inj (hfind.symm.trans hfind')
  obtain rfl := Option.some.inj (hroot.symm.trans hroot')
  exact h

theorem Rooted.rmdir (h : Rooted s) (path : CString) :
    (RemovesNothing s (.rmdir path) ∧ rmdir s path = some (-1, s)) ∨
    (¬ RemovesNothing s (.rmdir path) ∧ ∃ s', rmdir s path = some (0, s') ∧ ¬ RootsLive s') := by
  rw [Fs.rmdir]
  rcases h.roots.resolve path with ⟨hnone, hr⟩ | ⟨m, root, hfind, hm, hroot, hl, hr⟩
  · simp only [hr, true_or, if_true, and_true]
    exact .inl fun m root hfind => nomatch hnone.symm.trans hfind
  · simp only [hr, Nat.ne_of_gt hl.pos, false_or]
    rw [RemovesNothing, forall_root_iff hfind hroot]
    by_cases hno : (s.inodes root).type ≠ ftDirectory ∨ 0 < (s.info root).childCount
    · exact .inl ⟨hno, if_pos hno⟩
    · refine .inr ⟨hno, _, if_neg hno, ?_⟩
      split <;> exact not_rootsLive_kfree hm hroot

theorem Rooted.unlink (h : Rooted s) (path : CString) :
    (RemovesNothing s (.unlink path) ∧ unlink s path = some (-1, s)) ∨
    (¬ RemovesNothing s (.unlink path) ∧
      ∃ s', unlink s path = some (0, s') ∧ ¬ RootsLive s') := by
  rw [Fs.unlink]
  rcases h.roots.resolve path with ⟨hnone, hr⟩ | ⟨m, root, hfind, hm, hroot, hl, hr⟩
  · simp only [hr, true_or, if_true, and_true]
    exact .inl fun m root hfind => nomatch hnone.symm.trans hfind
  · simp only [hr, Nat.ne_of_gt hl.pos, false_or]
    rw [RemovesNothing, forall_root_iff hfind hroot]
    by_cases hno : (s.inodes root).type = ftDirectory
    · exact .inl ⟨hno, if_pos hno⟩
    · refine .inr ⟨hno, _, if_neg hno, ?_⟩
      split <;> exact not_rootsLive_kfree hm hroot

/-- An operation that removes nothing. -/
theorem Rooted.call (h : Rooted s) (op : PathOp) (hno : RemovesNothing s op) :
    ∃ result s', pathCall s op = some (result, s') ∧ Rooted s' ∧
      ∀ path, op = .rmdir path → result = -1 := by
  cases op with
  | «open» path flags =>
    obtain ⟨result, s', he, h'⟩ := h.open path flags
    exact ⟨result, s', he, h', nofun⟩
  | mkdir path mode =>
    obtain ⟨result, s', he, h'⟩ := h.mkdir path mode
    exact ⟨result, s', he, h', nofun⟩
  | rmdir path =>
    rcases h.rmdir path with ⟨-, he⟩ | ⟨hyes, -⟩
    · exact ⟨-1, s, he, h, fun _ _ => rfl⟩
    · exact absurd hno hyes
  | unlink path =>
    rcases h.unlink path with ⟨-, he⟩ | ⟨hyes, -⟩
    · exact ⟨-1, s, he, h, nofun⟩
    · exact absurd hno hyes

/-- **One operation.** Roots and open inodes outlive it if and only if it removes nothing. -/
theorem Rooted.outlives_iff {t : NamedTmpfs} (h : Rooted t.fs) (op : PathOp) :
    Outlives t op ↔ RemovesNothing t.fs op := by
  constructor
  · rintro ⟨result, s', he, hroots, -⟩
    by_contra hyes
    cases op with
    | «open» path flags => exact hyes trivial
    | mkdir path mode => exact hyes trivial
    | rmdir path =>
      rcases h.rmdir path with ⟨hno, -⟩ | ⟨-, s₁, he₁, hfreed⟩
      · exact hyes hno
      · obtain ⟨-, rfl⟩ := Prod.mk.inj (Option.some.inj (he.symm.trans he₁))
        exact hfreed hroots
    | unlink path =>
      rcases h.unlink path with ⟨hno, -⟩ | ⟨-, s₁, he₁, hfreed⟩
      · exact hyes hno
      · obtain ⟨-, rfl⟩ := Prod.mk.inj (Option.some.inj (he.symm.trans he₁))
        exact hfreed hroots
  · intro hno
    obtain ⟨result, s', he, h', hfails⟩ := h.call op hno
    exact ⟨result, s', he, h'.roots, h'.descriptors, fun path hop _ => hfails path hop⟩

theorem Rooted.next {t : NamedTmpfs} (h : Rooted t.fs) (hno : RemovesNothing t.fs op) :
    Rooted (pathNext t op).fs := by
  obtain ⟨result, s', he, h', -⟩ := h.call op hno
  rw [pathNext, he]
  exact h'

/-- **A mounted root outlives all operations** of a run if and only if each of them
removes nothing. -/
theorem outlives_iff_removesNothing (s : TmpfsMounts) (hs : s.heap.Sane) (hroots : RootsLive s)
    (hdescriptors : DescriptorsLive s) (ops : List PathOp) :
    Guarded pathNext Outlives ⟨s, []⟩ ops ↔
      Guarded pathNext (fun t op => RemovesNothing t.fs op) ⟨s, []⟩ ops := by
  have hrooted : Rooted (NamedTmpfs.mk s []).fs := ⟨hs, hroots, hdescriptors⟩
  constructor
  · exact Guarded.imp (fun t => Rooted t.fs)
      (fun t op ht hok => ht.next ((ht.outlives_iff op).mp hok))
      (fun t op ht hok => (ht.outlives_iff op).mp hok) hrooted
  · exact Guarded.imp (fun t => Rooted t.fs) (fun t op ht hno => ht.next hno)
      (fun t op ht hno => (ht.outlives_iff op).mpr hno) hrooted

theorem rooted_rootTmpfs : Rooted rootTmpfs := by
  refine ⟨fun p hp => absurd hp List.not_mem_nil, fun m hm => ?_, fun fd hopen => ?_⟩
  · obtain rfl := List.mem_singleton.mp hm
    exact ⟨1, rfl, by decide, by decide, rfl, List.not_mem_nil⟩
  · exact nomatch hopen.2.2

/-- The run opens `/a` and makes it a directory. -/
theorem outlives_iff_removesNothing_newPath :
    Guarded pathNext Outlives ⟨rootTmpfs, []⟩ [.open newPath oCreat, .mkdir newPath 0o755] ↔
      Guarded pathNext (fun t op => RemovesNothing t.fs op) ⟨rootTmpfs, []⟩
        [.open newPath oCreat, .mkdir newPath 0o755] :=
  outlives_iff_removesNothing rootTmpfs rooted_rootTmpfs.sane rooted_rootTmpfs.roots
    rooted_rootTmpfs.descriptors _

/-- `rmdir` of `/a`, which nobody created, returns `0` and frees the root. -/
theorem rmdir_frees_root :
    ¬ ∀ s : TmpfsMounts, s.heap.Sane → RootsLive s → DescriptorsLive s →
      ∀ ops, Guarded pathNext Outlives ⟨s, []⟩ ops := by
  intro h
  obtain ⟨⟨result, s', he, -, -, hfails⟩, -⟩ := h rootTmpfs rooted_rootTmpfs.sane
    rooted_rootTmpfs.roots rooted_rootTmpfs.descriptors [.rmdir newPath]
  have hresult : result = 0 := (Prod.mk.inj (Option.some.inj he)).1.symm
  have hfailed := hfails newPath rfl List.not_mem_nil
  rw [hresult] at hfailed
  exact absurd hfailed (by decide)

end SynapseKernel.Fs
