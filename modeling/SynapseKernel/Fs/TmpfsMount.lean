import SynapseKernel.Fs.TmpfsNames

/-! # Mounting (kernel/fs/tmpfs.c)

`mount` puts its entry into the table before it has the root inode, and makes the
root by resolving `/` in that table. So the first mount finds itself, or nothing:
a mount gets a root only where an earlier one has one (`mountOk_iff`), and none ever
does (`mounts_ok_iff`). -/
namespace SynapseKernel.Fs
open SynapseKernel.Word SynapseKernel.Kheap SynapseKernel.Str SynapseKernel.Runs

abbrev fsTypeTmpfs : Nat := 0x1

/-- `S_IRUSR | S_IWUSR | S_IXUSR | S_IRGRP | S_IXGRP | S_IROTH | S_IXOTH`. -/
abbrev rootPermissions : Nat :=
  sIrusr ||| sIwusr ||| 0x0100 ||| 0x0040 ||| 0x0010 ||| 0x0004 ||| 0x0001

theorem slash_noNul : 0 ∉ slash := by decide

/-- `"/"`. -/
def rootPath : CString := ⟨slash, slash_noNul⟩

/-- `mount`, which looks at neither `source` nor `flags`; `none` is a read through an
`fs_data` that is `NULL`. -/
def mount (s : TmpfsMounts) (target : FileName) (fsType : Nat) : Option (Int × TmpfsMounts) :=
  if 16 ≤ s.mountPoints.length then some (-1, s)
  else
    let before := s.mountPoints
    let s := { s with mountPoints := before ++ [⟨target, fsType, none⟩] }
    if fsType = fsTypeTmpfs then
      let (fsData, heap) := s.heap.kmalloc 4
      let s := { s with heap := heap }
      if fsData = 0 then some (-1, s)
      else
        match tmpfsCreate s rootPath ftDirectory rootPermissions with
        | none => none
        | some (rootInode, s) =>
          some (0, { s with mountPoints := before ++ [⟨target, fsType, some rootInode⟩] })
    else some (-1, s)

structure MountCall where
  target : FileName
  fsType : Nat

/-- No path leads to an `fs_data` that is `NULL`. -/
def Resolves (s : TmpfsMounts) : Prop := ∀ path, resolvePath s path ≠ none

/-- The entry of the call has a root, a directory in a block that the call requested. -/
def RootMade (s s' : TmpfsMounts) (target : FileName) : Prop :=
  ∃ entry rootInode, s'.mountPoints.getLast? = some entry ∧ entry.mountPoint = target ∧
    entry.fsData = some rootInode ∧ s.heap.requests < rootInode ∧
    rootInode ≤ s'.heap.requests ∧ (s'.inodes rootInode).type = ftDirectory

/-- `NULL` is not dereferenced, now or by a later path, and a mount that returns `0`
has a root. -/
def MountOk (s : TmpfsMounts) (call : MountCall) : Prop :=
  ∃ result s', mount s call.target call.fsType = some (result, s') ∧ Resolves s' ∧
    (result = 0 → RootMade s s' call.target)

def mountNext (s : TmpfsMounts) (call : MountCall) : TmpfsMounts :=
  ((mount s call.target call.fsType).map Prod.snd).getD s

variable {s s' : TmpfsMounts} {path : CString} {entry : MountPoint} {target : FileName}

/-! ## Paths in a table with a new entry -/

theorem findMountPoint_append (l : List MountPoint) (entry : MountPoint) (path : CString) :
    findMountPoint (l ++ [entry]) path =
      (findMountPoint l path).or
        (if entry.mountPoint.bytes <+: path.bytes then some entry else none) := by
  rw [findMountPoint, List.find?_append, List.find?_singleton]
  congr 1
  simp only [decide_eq_true_eq, matches_iff]

/-- Where nothing in the table meets the path, the new entry may. -/
theorem resolvePath_append (s : TmpfsMounts) (entry : MountPoint) (path : CString)
    (hs : s'.mountPoints = s.mountPoints ++ [entry]) :
    resolvePath s' path =
      if findMountPoint s.mountPoints path = none ∧ entry.mountPoint.bytes <+: path.bytes then
        entry.fsData
      else resolvePath s path := by
  rw [resolvePath, resolvePath, hs, findMountPoint_append]
  cases findMountPoint s.mountPoints path with
  | some m => rfl
  | none =>
    by_cases hm : entry.mountPoint.bytes <+: path.bytes
    · simp only [hm, and_self, if_true, Option.none_or]
    · simp only [hm, and_false, if_false, Option.none_or]

/-- What meets the target meets every path below it. -/
theorem findMountPoint_isSome {l : List MountPoint} {path : CString} :
    findMountPoint l path ≠ none ↔ ∃ m ∈ l, m.mountPoint.bytes <+: path.bytes := by
  rw [findMountPoint, ← Option.isSome_iff_ne_none, List.find?_isSome]
  simp only [decide_eq_true_eq, matches_iff]

/-- An entry with a root is met without harm, and so is one behind another. -/
theorem resolves_append (h : Resolves s) (hs : s'.mountPoints = s.mountPoints ++ [entry]) :
    Resolves s' ↔ entry.fsData ≠ none ∨
      ∃ m ∈ s.mountPoints, m.mountPoint.bytes <+: entry.mountPoint.bytes := by
  constructor
  · intro hall
    have htarget := hall entry.mountPoint.toCString
    rw [resolvePath_append s entry _ hs] at htarget
    by_cases hfound : findMountPoint s.mountPoints entry.mountPoint.toCString = none
    · rw [if_pos ⟨hfound, List.prefix_refl _⟩] at htarget
      exact .inl htarget
    · exact .inr (findMountPoint_isSome.mp hfound)
  · intro hentry path
    rw [resolvePath_append s entry path hs]
    split
    · next hmeets =>
      refine hentry.resolve_right ?_
      rintro ⟨m, hm, hpre⟩
      exact findMountPoint_isSome.mpr ⟨m, hm, hpre.trans hmeets.2⟩ hmeets.1
    · exact h path

/-! ## What is created -/

/-- Blocks may be added, the rest stays as it is. -/
structure Adds (s s' : TmpfsMounts) : Prop where
  heap : s.heap.Later s'.heap
  mountPoints : s'.mountPoints = s.mountPoints
  fileDescriptors : s'.fileDescriptors = s.fileDescriptors
  inodes : ∀ i ≤ s.heap.requests, s'.inodes i = s.inodes i
  info : ∀ i ≤ s.heap.requests, s'.info i = s.info i

theorem Adds.refl (s : TmpfsMounts) : Adds s s :=
  ⟨.refl _, rfl, rfl, fun _ _ => rfl, fun _ _ => rfl⟩

/-- An inode can be made at the path. -/
def CanCreate (s : TmpfsMounts) (path : CString) : Prop :=
  (∃ parent, resolvePath s path = some parent ∧ parent ≠ 0 ∧
    (s.inodes parent).type = ftDirectory) ∧ s.heap.grants s.heap.requests = true

/-- The state after a `tmpfs_create` that is granted its inode. -/
def withInode (s : TmpfsMounts) (type permissions : Nat) : TmpfsMounts :=
  let inode := s.heap.requests + 1
  let info : InodeInfo := ⟨s.nextInode, 0, permissions, 0, 0, 0, 0, 0, 0⟩
  let heap := (s.heap.kmalloc inodeSize).2
  let (children, heap') := heap.kmalloc (4 * dirEntrySize)
  { s with
    heap := if type = ftDirectory then heap' else heap
    inodes := Function.update s.inodes inode ⟨0, type, 0, 0⟩
    info := Function.update s.info inode
      (if type = ftDirectory then { info with children := children } else info)
    nextInode := u32 (s.nextInode + 1) }

theorem adds_withInode (s : TmpfsMounts) (type permissions : Nat) :
    Adds s (withInode s type permissions) := by
  have hlater := (BlockHeap.Later.refl s.heap).kmalloc inodeSize
  refine ⟨?_, rfl, rfl, fun i hi => ?_, fun i hi => ?_⟩
  · simp only [withInode]
    split
    · exact hlater.kmalloc (4 * dirEntrySize)
    · exact hlater
  · exact Function.update_of_ne (Nat.ne_of_lt (Nat.lt_succ_of_le hi)) _ _
  · exact Function.update_of_ne (Nat.ne_of_lt (Nat.lt_succ_of_le hi)) _ _

theorem withInode_new (s : TmpfsMounts) (type permissions : Nat) :
    ((withInode s type permissions).inodes (s.heap.requests + 1)).type = type ∧
      s.heap.requests < (withInode s type permissions).heap.requests := by
  simp only [withInode, Function.update_self, true_and]
  split
  · exact Nat.lt_succ_of_le (Nat.le_succ _)
  · exact Nat.lt_succ_self _

/-- Everything `tmpfs_create` can do. -/
theorem tmpfsCreate_cases (s : TmpfsMounts) (path : CString) (type permissions : Nat) :
    (resolvePath s path = none ∧ tmpfsCreate s path type permissions = none) ∨
    (∃ s', resolvePath s path ≠ none ∧ ¬ CanCreate s path ∧
      tmpfsCreate s path type permissions = some (0, s') ∧ Adds s s') ∨
    CanCreate s path ∧ tmpfsCreate s path type permissions =
      some (s.heap.requests + 1, withInode s type permissions) := by
  cases hr : resolvePath s path with
  | none => exact .inl ⟨rfl, by simp only [tmpfsCreate, hr]⟩
  | some parent =>
    by_cases hbad : parent = 0 ∨ (s.inodes parent).type ≠ ftDirectory
    · refine .inr (.inl ⟨s, Option.some_ne_none parent, ?_, ?_, .refl s⟩)
      · rintro ⟨⟨parent', hr', h0, hdir⟩, -⟩
        obtain rfl := Option.some.inj (hr.symm.trans hr')
        exact hbad.elim h0 fun hno => hno hdir
      · simp only [tmpfsCreate, hr, if_pos hbad]
    · obtain ⟨h0, hdir⟩ := not_or.mp hbad
      rcases s.heap.kmalloc_cases inodeSize with ⟨hg, hnull⟩ | ⟨hg, hnew⟩
      · refine .inr (.inl ⟨{ s with heap := (s.heap.kmalloc inodeSize).2 },
          Option.some_ne_none parent, ?_, ?_, ?_⟩)
        · rintro ⟨-, hyes⟩
          rw [hg] at hyes
          cases hyes
        · simp only [tmpfsCreate, hr, if_neg hbad, hnull, if_true]
        · exact ⟨(BlockHeap.Later.refl _).kmalloc inodeSize, rfl, rfl, fun _ _ => rfl,
            fun _ _ => rfl⟩
      · refine .inr (.inr ⟨⟨⟨parent, hr, h0, not_not.mp hdir⟩, hg⟩, ?_⟩)
        by_cases htype : type = ftDirectory
        · simp only [tmpfsCreate, hr, if_neg hbad, hnew, if_neg (Nat.succ_ne_zero _), if_pos htype,
            withInode, Function.update_idem, Function.update_self]
        · simp only [tmpfsCreate, hr, if_neg hbad, hnew, if_neg (Nat.succ_ne_zero _), if_neg htype,
            withInode]

/-! ## Mounts -/

/-- The state in which `mount` makes the root: the entry is there and empty. -/
def entered (s : TmpfsMounts) (target : FileName) (fsType : Nat) : TmpfsMounts :=
  { s with
    heap := (s.heap.kmalloc 4).2, mountPoints := s.mountPoints ++ [⟨target, fsType, none⟩] }

/-- Everything `mount` can do. -/
theorem mount_cases (s : TmpfsMounts) (target : FileName) (fsType : Nat) :
    (16 ≤ s.mountPoints.length ∧ mount s target fsType = some (-1, s)) ∨
    (¬ 16 ≤ s.mountPoints.length ∧
      (fsType ≠ fsTypeTmpfs ∨ s.heap.grants s.heap.requests = false) ∧
      ∃ s', mount s target fsType = some (-1, s') ∧
        s'.mountPoints = s.mountPoints ++ [⟨target, fsType, none⟩]) ∨
    (¬ 16 ≤ s.mountPoints.length ∧ fsType = fsTypeTmpfs ∧
      s.heap.grants s.heap.requests = true ∧
      mount s target fsType =
        (tmpfsCreate (entered s target fsType) rootPath ftDirectory rootPermissions).map fun p =>
          (0, { p.2 with mountPoints := s.mountPoints ++ [⟨target, fsType, some p.1⟩] })) := by
  by_cases hfull : 16 ≤ s.mountPoints.length
  · exact .inl ⟨hfull, by rw [mount, if_pos hfull]⟩
  by_cases htype : fsType = fsTypeTmpfs
  · rcases s.heap.kmalloc_cases 4 with ⟨hg, hnull⟩ | ⟨hg, hnew⟩
    · refine .inr (.inl ⟨hfull, .inr hg, entered s target fsType, ?_, rfl⟩)
      simp only [mount, if_neg hfull, if_pos htype, hnull, if_true]
      rfl
    · refine .inr (.inr ⟨hfull, htype, hg, ?_⟩)
      simp only [mount, if_neg hfull, if_pos htype, hnew, if_neg (Nat.succ_ne_zero _)]
      rw [entered]
      split
      · next hc => rw [hc, Option.map_none]
      · next hc => rw [hc, Option.map_some]
  · refine .inr (.inl ⟨hfull, .inl htype,
      { s with mountPoints := s.mountPoints ++ [⟨target, fsType, none⟩] }, ?_, rfl⟩)
    simp only [mount, if_neg hfull, if_neg htype]

/-- The root can be made where `/` led to a directory before. -/
theorem canCreate_entered : CanCreate (entered s target fsTypeTmpfs) rootPath ↔
    (∃ root, resolvePath s rootPath = some root ∧ root ≠ 0 ∧
      (s.inodes root).type = ftDirectory) ∧ s.heap.grants (s.heap.requests + 1) = true := by
  have hentered : (entered s target fsTypeTmpfs).mountPoints =
      s.mountPoints ++ [⟨target, fsTypeTmpfs, none⟩] := rfl
  have hresolve := resolvePath_append s _ rootPath hentered
  refine and_congr (exists_congr fun root => ?_) Iff.rfl
  rw [hresolve]
  split
  · next hnone =>
    refine iff_of_false (fun h => nomatch h.1) fun h => ?_
    rw [resolvePath, hnone.1] at h
    exact h.2.1 (Option.some.inj h.1).symm
  · exact Iff.rfl

/-- A mount that fails leaves its entry. -/
theorem mountOk_failed (h : Resolves s) {fsType : Nat}
    (he : mount s target fsType = some (-1, s'))
    (hs : s'.mountPoints = s.mountPoints ++ [⟨target, fsType, none⟩]) :
    MountOk s ⟨target, fsType⟩ ↔ ∃ m ∈ s.mountPoints, m.mountPoint.bytes <+: target.bytes := by
  have hresolves := resolves_append h hs
  rw [or_iff_right (not_not.mpr rfl)] at hresolves
  rw [← hresolves]
  constructor
  · rintro ⟨result, s₁, he₁, hall, -⟩
    obtain ⟨-, rfl⟩ := Prod.mk.inj (Option.some.inj (he.symm.trans he₁))
    exact hall
  · exact fun hall => ⟨-1, s', he, hall, fun h0 => absurd h0 (by decide)⟩

/-- A mount that has its memory needs the inode of a root. -/
theorem mountOk_created (h : Resolves s) (he : mount s target fsTypeTmpfs =
      (tmpfsCreate (entered s target fsTypeTmpfs) rootPath ftDirectory rootPermissions).map fun p =>
        (0, { p.2 with mountPoints := s.mountPoints ++ [⟨target, fsTypeTmpfs, some p.1⟩] })) :
    MountOk s ⟨target, fsTypeTmpfs⟩ ↔ CanCreate (entered s target fsTypeTmpfs) rootPath := by
  have hrequests : (entered s target fsTypeTmpfs).heap.requests = s.heap.requests + 1 := rfl
  rcases tmpfsCreate_cases (entered s target fsTypeTmpfs) rootPath ftDirectory rootPermissions with
    ⟨hnone, hc⟩ | ⟨s₁, -, hno, hc, -⟩ | ⟨hcan, hc⟩
  · rw [hc, Option.map_none] at he
    refine iff_of_false ?_ fun hcan => ?_
    · rintro ⟨result, s', he', -⟩
      exact nomatch he.symm.trans he'
    · obtain ⟨⟨root, hroot, -⟩, -⟩ := hcan
      exact nomatch hnone.symm.trans hroot
  · rw [hc, Option.map_some] at he
    refine iff_of_false ?_ hno
    rintro ⟨result, s', he', -, hmade⟩
    obtain ⟨rfl, rfl⟩ := Prod.mk.inj (Option.some.inj (he.symm.trans he'))
    obtain ⟨entry, root, hlast, -, hdata, hnew, -⟩ := hmade rfl
    rw [List.getLast?_concat] at hlast
    obtain rfl := Option.some.inj hlast
    obtain rfl : 0 = root := Option.some.inj hdata
    exact absurd hnew (Nat.not_lt_zero _)
  · rw [hc, Option.map_some] at he
    obtain ⟨htype, hlt⟩ :=
      withInode_new (entered s target fsTypeTmpfs) ftDirectory rootPermissions
    refine iff_of_true ⟨0, _, he, ?_, fun _ => ?_⟩ hcan
    · exact (resolves_append h rfl).mpr (.inl nofun)
    · refine ⟨_, _, List.getLast?_concat, rfl, rfl, ?_, hlt, htype⟩
      rw [hrequests]
      omega

/-- **What a mount takes.** The table is full; or memory is granted and `/` leads to a
directory already; or the mount fails and what was mounted before meets its target. -/
theorem mountOk_iff (h : Resolves s) (target : FileName) (fsType : Nat) :
    MountOk s ⟨target, fsType⟩ ↔
      16 ≤ s.mountPoints.length ∨
      (fsType = fsTypeTmpfs ∧ s.heap.GrantsNext 2 ∧
        ∃ root, resolvePath s rootPath = some root ∧ root ≠ 0 ∧
          (s.inodes root).type = ftDirectory) ∨
      ((fsType ≠ fsTypeTmpfs ∨ s.heap.grants s.heap.requests = false) ∧
        ∃ m ∈ s.mountPoints, m.mountPoint.bytes <+: target.bytes) := by
  rcases mount_cases s target fsType with
    ⟨hfull, he⟩ | ⟨hfull, hfails, s', he, hs⟩ | ⟨hfull, rfl, hg, he⟩
  · exact iff_of_true ⟨-1, s, he, h, fun h0 => absurd h0 (by decide)⟩ (.inl hfull)
  · have hno : ¬ (fsType = fsTypeTmpfs ∧ s.heap.GrantsNext 2 ∧
        ∃ root, resolvePath s rootPath = some root ∧ root ≠ 0 ∧
          (s.inodes root).type = ftDirectory) := by
      rintro ⟨htype, hgrants, -⟩
      have hg : s.heap.grants s.heap.requests = true := hgrants 0 Nat.two_pos
      exact hfails.elim (fun hne => hne htype) fun hrefused => nomatch hg.symm.trans hrefused
    rw [or_iff_right hfull, or_iff_right hno, and_iff_right hfails]
    exact mountOk_failed h he hs
  · have hno : ¬ (fsTypeTmpfs ≠ fsTypeTmpfs ∨ s.heap.grants s.heap.requests = false) := by
      rintro (hne | hrefused)
      · exact hne rfl
      · exact nomatch hg.symm.trans hrefused
    have hgrants : s.heap.GrantsNext 2 ↔ s.heap.grants (s.heap.requests + 1) = true :=
      ⟨fun hn => hn 1 Nat.one_lt_two, fun h1 => ((s.heap.grantsNext_zero).succ hg).succ h1⟩
    rw [or_iff_right hfull, or_iff_left fun hbad => hno hbad.1, mountOk_created h he,
      canCreate_entered, hgrants, and_iff_right rfl]
    exact and_comm

/-- **No mount yields a usable root.** From an empty table the first mount dereferences
`NULL`, returns `0` without a root or leaves an entry behind that a path leads to. -/
theorem mounts_ok_iff (s : TmpfsMounts) (h : s.mountPoints = []) (calls : List MountCall) :
    Guarded mountNext MountOk s calls ↔ calls = [] := by
  cases calls with
  | nil => exact iff_of_true trivial rfl
  | cons call rest =>
    refine iff_of_false (fun hrun => ?_) (List.cons_ne_nil _ _)
    have hempty : ∀ path, resolvePath s path = some 0 := fun path => by
      rw [resolvePath, h]
      rfl
    have hresolves : Resolves s := fun path => by
      rw [hempty]
      exact Option.some_ne_none 0
    rcases (mountOk_iff hresolves call.target call.fsType).mp hrun.1 with
      hfull | ⟨-, -, root, hroot, h0, -⟩ | ⟨-, m, hm, -⟩
    · rw [h] at hfull
      exact absurd hfull (by decide)
    · exact h0 (Option.some.inj (hroot.symm.trans (hempty rootPath)))
    · rw [h] at hm
      cases hm

/-- `"/"` as a target. -/
def rootTarget : FileName := ⟨rootPath, by decide⟩

/-- As `init_filesystem` finds it, with memory for every request. -/
def unmounted : TmpfsMounts :=
  { rootTmpfs with
    heap := ⟨fun _ => true, fun block => block, 0, []⟩, inodes := fun _ => ⟨0, 0, 0, 0⟩
    nextInode := 1, mountPoints := [] }

theorem mounts_ok_iff_root :
    Guarded mountNext MountOk unmounted [⟨rootTarget, fsTypeTmpfs⟩] ↔
      [(⟨rootTarget, fsTypeTmpfs⟩ : MountCall)] = [] :=
  mounts_ok_iff unmounted rfl _

/-- `init_filesystem` itself reads through `NULL`. -/
theorem root_mount_null :
    mount unmounted rootTarget fsTypeTmpfs = none ∧
      ¬ ∀ s : TmpfsMounts, s.mountPoints = [] → ∀ calls, Guarded mountNext MountOk s calls := by
  have hnull : mount unmounted rootTarget fsTypeTmpfs = none := rfl
  refine ⟨hnull, fun h => ?_⟩
  obtain ⟨⟨result, s', he, -⟩, -⟩ := h unmounted rfl [⟨rootTarget, fsTypeTmpfs⟩]
  exact nomatch hnull.symm.trans he

end SynapseKernel.Fs
