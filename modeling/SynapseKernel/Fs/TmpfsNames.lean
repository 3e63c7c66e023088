import SynapseKernel.Fs.Ramfs
import SynapseKernel.Fs.Tmpfs

/-! # Names in tmpfs (kernel/fs/tmpfs.c)

`open` and `mkdir` find the mount point of a path, and every path under it resolves
to the root of what is mounted there. Nothing that is created gets a name: what is
opened is the root directory, which takes no writes (`created_unusable`). -/
namespace SynapseKernel.Fs
open SynapseKernel.Word SynapseKernel.Kheap SynapseKernel.Str

abbrev ftDirectory : Nat := 2
abbrev sIrusr : Nat := 0x0400
abbrev sIwusr : Nat := 0x0200
abbrev oWronly : Nat := 0x1
abbrev oCreat : Nat := 0x40
abbrev inodeSize : Nat := 48
abbrev dirEntrySize : Nat := 268

/-- `mount_point_t`. `fsData` is the root inode in what `fs_data` points to, if it
points to anything. -/
structure MountPoint where
  mountPoint : FileName
  fsType : Nat
  fsData : Option Nat

/-- The fields of `inode_t` that `TmpfsInode` leaves out. -/
structure InodeInfo where
  inode : Nat
  blocks : Nat
  permissions : Nat
  owner : Nat
  group : Nat
  atime : Nat
  ctime : Nat
  children : Nat
  childCount : Nat

/-- The statics of tmpfs.c, with the heap. -/
structure TmpfsMounts extends Tmpfs where
  info : Nat → InodeInfo
  flags : Nat → Nat
  nextInode : Nat
  mountPoints : List MountPoint

/-- The first mount point that the path begins with. -/
def findMountPoint (mountPoints : List MountPoint) (path : CString) : Option MountPoint :=
  mountPoints.find? fun m =>
    strncmp path m.mountPoint.toCString m.mountPoint.bytes.length = 0

/-- The inode, `0` for `NULL`; `none` is a read through an `fs_data` that is `NULL`. -/
def resolvePath (s : TmpfsMounts) (path : CString) : Option Nat :=
  match findMountPoint s.mountPoints path with
  | none => some 0
  | some mountPoint => mountPoint.fsData

def tmpfsCreate (s : TmpfsMounts) (path : CString) (type permissions : Nat) :
    Option (Nat × TmpfsMounts) :=
  match resolvePath s path with
  | none => none
  | some parentInode =>
    if parentInode = 0 ∨ (s.inodes parentInode).type ≠ ftDirectory then some (0, s)
    else
      let (inode, heap) := s.heap.kmalloc inodeSize
      let s := { s with heap := heap }
      if inode = 0 then some (0, s)
      else
        let s := { s with
          inodes := Function.update s.inodes inode ⟨0, type, 0, 0⟩
          info := Function.update s.info inode ⟨s.nextInode, 0, permissions, 0, 0, 0, 0, 0, 0⟩
          nextInode := u32 (s.nextInode + 1) }
        if type = ftDirectory then
          let (children, heap) := s.heap.kmalloc (4 * dirEntrySize)
          some (inode, { s with
            heap := heap
            info := Function.update s.info inode { s.info inode with children := children } })
        else some (inode, s)

/-- The first descriptor that is free, `-1` when there is none. -/
def allocFileDescriptor (s : TmpfsMounts) (inode flags : Nat) : Int × TmpfsMounts :=
  match (List.range maxFiles.toNat).find? fun i => ¬ (s.fileDescriptors i).used with
  | none => (-1, s)
  | some i => (i, { s with
      fileDescriptors := Function.update s.fileDescriptors i ⟨true, inode, 0⟩
      flags := Function.update s.flags i flags })

/-- `open`. -/
def openPath (s : TmpfsMounts) (path : CString) (flags : Nat) : Option (Int × TmpfsMounts) :=
  match resolvePath s path with
  | none => none
  | some found =>
    let opened :=
      if found ≠ 0 then some (found, s)
      else if flags &&& oCreat ≠ 0 then tmpfsCreate s path ftRegular (sIrusr ||| sIwusr)
      else some (0, s)
    match opened with
    | none => none
    | some (inode, s) => if inode = 0 then some (-1, s) else some (allocFileDescriptor s inode flags)

/-- `tmpfs_mkdir`, and `mkdir` with it. -/
def mkdir (s : TmpfsMounts) (path : CString) (mode : Nat) : Option (Int × TmpfsMounts) :=
  match tmpfsCreate s path ftDirectory mode with
  | none => none
  | some (inode, s) => some (if inode ≠ 0 then 0 else -1, s)

def slash : List UInt8 := [47]

/-- What stands before the last slash, the slash itself where that is nothing. -/
def parentBytes (path : List UInt8) : List UInt8 :=
  let before := (path.reverse.dropWhile fun b => b ≠ 47).tail.reverse
  if before = [] then slash else before

/-- The path is under the tmpfs at `/`, the root of which is a directory. -/
def UnderRoot (s : TmpfsMounts) (path : CString) : Prop :=
  ∃ m root, findMountPoint s.mountPoints path = some m ∧ m.mountPoint.bytes = slash ∧
    m.fsData = some root ∧ root ≠ 0 ∧ (s.inodes root).type = ftDirectory

/-- A file that is created is open as a regular file, takes the data and gives them
back. -/
def FileUsable (s : TmpfsMounts) (path : CString) (data : List UInt8) : Prop :=
  ∃ fd s₁, openPath s path (oWronly ||| oCreat) = some (fd, s₁) ∧
    IsOpen s₁.toTmpfs fd ∧ s₁.file fd ≠ 0 ∧ (s₁.inodes (s₁.file fd)).type = ftRegular ∧
    ∃ s₂ s₃, write s₁.toTmpfs fd data = ((data.length : Int), s₂) ∧ lseek s₂ fd 0 0 = (0, s₃) ∧
      (read s₃ fd data.length).1 = data.length ∧ (read s₃ fd data.length).2.1 = data

variable {s s' : TmpfsMounts} {path : CString} {data : List UInt8} {flags inode : Nat}

theorem nul_notMem_parentBytes {path : List UInt8} (h : 0 ∉ path) : 0 ∉ parentBytes path := by
  rw [parentBytes]
  by_cases hnil : (path.reverse.dropWhile fun b => b ≠ 47).tail.reverse = []
  · rw [if_pos hnil]
    decide
  · rw [if_neg hnil]
    intro hm
    have hm := (List.dropWhile_sublist _).subset (List.mem_of_mem_tail (List.mem_reverse.mp hm))
    exact h (List.mem_reverse.mp hm)

/-- The path of the directory that the path is in. -/
def parentPath (path : CString) : CString := ⟨parentBytes path.bytes, nul_notMem_parentBytes path.noNul⟩

/-- The path resolves to a directory, and the path of its parent does not resolve to
the same one. -/
def DirectoryUsable (s : TmpfsMounts) (path : CString) : Prop :=
  ∃ i, resolvePath s path = some i ∧ i ≠ 0 ∧ (s.inodes i).type = ftDirectory ∧
    resolvePath s (parentPath path) ≠ some i

/-! ## Paths -/

theorem matches_iff (path : CString) (m : MountPoint) :
    strncmp path m.mountPoint.toCString m.mountPoint.bytes.length = 0 ↔
      m.mountPoint.bytes <+: path.bytes :=
  strncmp_eq_zero path m.mountPoint.toCString

/-- The parent of a path that begins with a slash is a beginning of it and begins
with one, too. -/
theorem parentBytes_prefix {path : List UInt8} (h : slash <+: path) :
    slash <+: parentBytes path ∧ parentBytes path <+: path := by
  have hbefore : (path.reverse.dropWhile fun b => b ≠ 47).tail.reverse <+: path := by
    have hsuffix := (List.tail_suffix (path.reverse.dropWhile fun b => b ≠ 47)).trans
      (List.dropWhile_suffix _)
    rwa [← List.reverse_prefix, List.reverse_reverse] at hsuffix
  rw [parentBytes]
  by_cases hnil : (path.reverse.dropWhile fun b => b ≠ 47).tail.reverse = []
  · rw [if_pos hnil]
    exact ⟨List.prefix_refl _, h⟩
  · rw [if_neg hnil]
    refine ⟨?_, hbefore⟩
    refine List.prefix_of_prefix_length_le h hbefore ?_
    exact List.length_pos_iff.mpr hnil

/-- What is mounted before `/` and is not met by a path is not met by its parent. -/
theorem findMountPoint_parent {l : List MountPoint} {m : MountPoint}
    (h : findMountPoint l path = some m) (hm : m.mountPoint.bytes = slash) :
    findMountPoint l (parentPath path) = some m := by
  rw [findMountPoint, List.find?_eq_some_iff_append] at h ⊢
  obtain ⟨hmatch, before, after, hl, hbefore⟩ := h
  have hroot := (matches_iff path m).mp (of_decide_eq_true hmatch)
  rw [hm] at hroot
  obtain ⟨hslash, hparent⟩ := parentBytes_prefix hroot
  refine ⟨decide_eq_true ((matches_iff _ m).mpr (hm ▸ hslash)), before, after, hl, ?_⟩
  intro a ha
  have hno := hbefore a ha
  rw [Bool.not_eq_true', decide_eq_false_iff_not, matches_iff] at hno ⊢
  exact fun hp => hno (hp.trans hparent)

/-- With `/` mounted before everything else, every path that begins with a slash is
under it. -/
theorem underRoot_of_first {m : MountPoint} {rest : List MountPoint} {root : Nat}
    (hl : s.mountPoints = m :: rest) (hm : m.mountPoint.bytes = slash) (hroot : m.fsData = some root)
    (h0 : root ≠ 0) (hdir : (s.inodes root).type = ftDirectory) (hpath : slash <+: path.bytes) :
    UnderRoot s path := by
  refine ⟨m, root, ?_, hm, hroot, h0, hdir⟩
  rw [hl, findMountPoint]
  exact List.find?_cons_of_pos (decide_eq_true ((matches_iff path m).mpr (hm ▸ hpath)))

/-! ## What is opened and made -/

theorem tmpfsCreate_null {type permissions : Nat} (h : resolvePath s path = some 0) :
    tmpfsCreate s path type permissions = some (0, s) := by
  simp only [tmpfsCreate, h, true_or, if_true]

/-- **Nothing is created by `open`**: what it opens is what the path resolves to. -/
theorem openPath_eq (s : TmpfsMounts) (path : CString) (flags : Nat) :
    openPath s path flags = (resolvePath s path).map fun found =>
      if found = 0 then (-1, s) else allocFileDescriptor s found flags := by
  rw [openPath]
  cases h : resolvePath s path with
  | none => rfl
  | some found =>
    by_cases h0 : found = 0
    · rw [h0] at h
      simp only [h0, tmpfsCreate_null h, ne_eq, not_true, ite_self, if_true, Option.map_some]
    · simp only [ne_eq, h0, not_false_iff, if_true, if_false, Option.map_some]

theorem allocFileDescriptor_cases (s : TmpfsMounts) (inode flags : Nat) :
    (allocFileDescriptor s inode flags).1 = -1 ∨
      (allocFileDescriptor s inode flags).2.file (allocFileDescriptor s inode flags).1 = inode ∧
        (allocFileDescriptor s inode flags).2.inodes = s.inodes := by
  rw [allocFileDescriptor]
  split
  · exact .inl rfl
  · refine .inr ⟨?_, rfl⟩
    simp only [Tmpfs.file, Int.toNat_natCast, Function.update_self]

theorem tmpfsCreate_mountPoints {type permissions : Nat}
    (h : tmpfsCreate s path type permissions = some (inode, s')) :
    s'.mountPoints = s.mountPoints := by
  rw [tmpfsCreate] at h
  split at h
  · cases h
  split at h
  · obtain ⟨-, rfl⟩ := Prod.mk.inj (Option.some.inj h)
    rfl
  dsimp only at h
  split at h
  · obtain ⟨-, rfl⟩ := Prod.mk.inj (Option.some.inj h)
    rfl
  split at h <;> obtain ⟨-, rfl⟩ := Prod.mk.inj (Option.some.inj h) <;> rfl

theorem mkdir_mountPoints {mode : Nat} {result : Int} (h : mkdir s path mode = some (result, s')) :
    s'.mountPoints = s.mountPoints := by
  rw [mkdir] at h
  cases hc : tmpfsCreate s path ftDirectory mode with
  | none =>
    rw [hc] at h
    cases h
  | some created =>
    rw [hc] at h
    obtain ⟨-, rfl⟩ := Prod.mk.inj (Option.some.inj h)
    exact tmpfsCreate_mountPoints hc

/-- **Created files and directories are not usable**: the descriptor is on the root
directory, and the path of a new directory still resolves to its parent. -/
theorem created_unusable (s : TmpfsMounts) (path : CString) (data : List UInt8)
    (h : UnderRoot s path) :
    ¬ FileUsable s path data ∧
      ∀ mode s', mkdir s path mode = some (0, s') → ¬ DirectoryUsable s' path := by
  obtain ⟨m, root, hfind, hm, hroot, h0, hdir⟩ := h
  constructor
  · rintro ⟨fd, s₁, hopened, hopen, -, hregular, -⟩
    have hresolve : resolvePath s path = some root := by
      rw [resolvePath, hfind]
      exact hroot
    rw [openPath_eq, hresolve, Option.map_some, if_neg h0] at hopened
    have hcases := allocFileDescriptor_cases s root (oWronly ||| oCreat)
    rw [Option.some.inj hopened] at hcases
    rcases hcases with hfd | ⟨hfile, hinodes⟩
    · exact absurd hopen.1 (by rw [show fd = -1 from hfd]; decide)
    · have hfile : s₁.file fd = root := hfile
      have hinodes : s₁.inodes = s.inodes := hinodes
      rw [hfile, hinodes, hdir] at hregular
      exact absurd hregular (by decide)
  · rintro mode s' hmade ⟨i, hresolve, -, -, hparent⟩
    rw [resolvePath, mkdir_mountPoints hmade] at hresolve hparent
    rw [hfind] at hresolve
    rw [findMountPoint_parent hfind hm] at hparent
    exact hparent hresolve

/-- The root at `/` is the inode `1` and nothing is open. -/
def rootTmpfs : TmpfsMounts :=
  { heap := ⟨fun _ => true, fun block => block, 1, []⟩
    inodes := fun i => ⟨0, if i = 1 then ftDirectory else 0, 0, 0⟩
    fileDescriptors := fun _ => ⟨false, 0, 0⟩
    bytes := fun _ _ => 0
    info := fun _ => ⟨1, 0, 0, 0, 0, 0, 0, 0, 0⟩
    flags := fun _ => 0
    nextInode := 2
    mountPoints := [⟨⟨⟨slash, by decide⟩, by decide⟩, 1, some 1⟩] }

/-- `/a`. -/
def newPath : CString := ⟨[47, 97], by decide⟩

theorem underRoot_newPath : UnderRoot rootTmpfs newPath :=
  underRoot_of_first rfl rfl rfl (by decide) (by decide) ⟨[97], rfl⟩

theorem created_unusable_newPath : ¬ FileUsable rootTmpfs newPath [7] :=
  (created_unusable rootTmpfs newPath [7] underRoot_newPath).1

/-- The memory suffices and descriptors are free, and still the write fails and the
new directory is the root. -/
theorem newPath_unusable :
    UnderRoot rootTmpfs newPath ∧ (∀ n, rootTmpfs.heap.grants n = true) ∧
      (∀ i, (rootTmpfs.fileDescriptors i).used = false) ∧
      (openPath rootTmpfs newPath (oWronly ||| oCreat)).map
        (fun p => (p.1, p.2.file p.1, (write p.2.toTmpfs p.1 [7]).1)) = some (0, 1, -1) ∧
      ¬ FileUsable rootTmpfs newPath [7] ∧
      ∃ s', mkdir rootTmpfs newPath 0o755 = some (0, s') ∧ ¬ DirectoryUsable s' newPath := by
  refine ⟨underRoot_newPath, fun _ => rfl, fun _ => rfl, by decide, ?_, _, rfl, ?_⟩
  · rintro ⟨fd, s₁, hopened, -, -, hregular, -⟩
    obtain ⟨rfl, rfl⟩ := Prod.mk.inj (Option.some.inj hopened)
    exact absurd hregular (by decide)
  · rintro ⟨i, hresolve, -, -, hparent⟩
    exact hparent hresolve

end SynapseKernel.Fs
