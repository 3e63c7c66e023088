import SynapseKernel.Fs.TmpfsDescriptors
import SynapseKernel.Fs.TmpfsRemoval

/-! # All calls of tmpfs (kernel/fs/tmpfs.c)

Calls on paths and calls on descriptors in any order. Inodes that a path leads to or that
are open are directories without entries, and stay so: no call moves a byte between its
caller and a file (`nothing_stored`). -/
namespace SynapseKernel.Fs
open SynapseKernel.Word SynapseKernel.Kheap SynapseKernel.Str SynapseKernel.Runs

/-- `tmpfs_readdir`, and `readdir` with it: the result, and what is copied to `entries`. -/
def readdir (s : TmpfsMounts) (path : CString) (count : Nat) : Option (Int × List Span) :=
  match resolvePath s path with
  | none => none
  | some inode =>
    if inode = 0 ∨ (s.inodes inode).type ≠ ftDirectory then some (-1, [])
    else
      let readCount := if count < (s.info inode).childCount then count else (s.info inode).childCount
      some (s32 readCount, [⟨(s.info inode).children, 0, u32 (readCount * dirEntrySize)⟩])

/-- `tmpfs_rename`, and `rename` with it. -/
def rename (_oldPath _newPath : CString) : Int := 0

/-- What `fs_stat` copies to its caller, if it copies anything. -/
def fsStat (s : TmpfsMounts) (path : CString) : Option (Option (TmpfsInode × InodeInfo)) :=
  match resolvePath s path with
  | none => none
  | some inode => some (if inode = 0 then none else some (s.inodes inode, s.info inode))

inductive FsOp
  | mount (target : FileName) (fsType : Nat)
  | path (op : PathOp)
  | descriptor (op : DescriptorOp)
  | readdir (path : CString) (count : Nat)
  | rename (oldPath newPath : CString)

/-- The result and the next state; `none` is a read through an `fs_data` that is `NULL`. -/
def fsCall (s : TmpfsMounts) : FsOp → Option (Int × TmpfsMounts)
  | .mount target fsType => mount s target fsType
  | .path op => pathCall s op
  | .descriptor op => descriptorCall s op
  | .readdir path count => (readdir s path count).map fun r => (r.1, s)
  | .rename oldPath newPath => some (rename oldPath newPath, s)

def fsNext (s : TmpfsMounts) (op : FsOp) : TmpfsMounts := ((fsCall s op).map Prod.snd).getD s

/-- The call frees no root. -/
def KeepsRoots (s : TmpfsMounts) (op : FsOp) : Prop :=
  ∀ path s', op = .path (.rmdir path) → rmdir s path ≠ some (0, s')

/-- No read or write succeeds, nothing is listed, and what `fs_stat` finds is an empty
directory. -/
structure StoresNothing (s : TmpfsMounts) : Prop where
  read : ∀ fd count, read s.toTmpfs fd count = (-1, [], s.toTmpfs)
  write : ∀ fd buf, write s.toTmpfs fd buf = (-1, s.toTmpfs)
  readdir : ∀ path count result spans, readdir s path count = some (result, spans) →
    (result = -1 ∨ result = 0) ∧ spans.flatMap s.get = []
  stat : ∀ path inode info, fsStat s path = some (some (inode, info)) →
    inode.type = ftDirectory ∧ info.childCount = 0

/-- A directory without entries, in a block that was requested before. -/
structure EmptyDirectory (s : TmpfsMounts) (inode : Nat) : Prop where
  le : inode ≤ s.heap.requests
  type : (s.inodes inode).type = ftDirectory
  empty : (s.info inode).childCount = 0

/-- Roots and open inodes are empty directories. -/
structure OnlyDirectories (s : TmpfsMounts) : Prop where
  roots : ∀ m ∈ s.mountPoints, ∀ root, m.fsData = some root → root ≠ 0 → EmptyDirectory s root
  files : ∀ fd, IsOpen s.toTmpfs fd → EmptyDirectory s (s.file fd)

variable {s s' : TmpfsMounts} {path : CString} {inode : Nat} {op : FsOp}

/-! ## What the calls answer -/

theorem OnlyDirectories.resolve (h : OnlyDirectories s) (hr : resolvePath s path = some inode)
    (h0 : inode ≠ 0) : EmptyDirectory s inode := by
  rw [resolvePath] at hr
  split at hr
  · exact absurd (Option.some.inj hr).symm h0
  · rename_i m hfind
    exact h.roots m (List.mem_of_find?_eq_some hfind) inode hr h0

theorem EmptyDirectory.not_regular (h : EmptyDirectory s inode) :
    (s.inodes inode).type ≠ ftRegular := by
  rw [h.type]
  decide

theorem OnlyDirectories.read_eq (h : OnlyDirectories s) (fd : Int) (count : Nat) :
    read s.toTmpfs fd count = (-1, [], s.toTmpfs) := by
  rw [read]
  split
  · rename_i hopen
    have hread : ∀ offset, tmpfsRead s.toTmpfs (s.file fd) count offset = (-1, []) :=
      fun _ => if_pos (.inr (h.files fd hopen).not_regular)
    simp only [hread]
    rfl
  · rfl

theorem OnlyDirectories.write_eq (h : OnlyDirectories s) (fd : Int) (buf : List UInt8) :
    write s.toTmpfs fd buf = (-1, s.toTmpfs) := by
  rw [write]
  split
  · rename_i hopen
    have hwrite : ∀ offset,
        tmpfsWrite s.toTmpfs (s.file fd) buf offset = (-1, [], s.toTmpfs) :=
      fun _ => if_pos (.inr (h.files fd hopen).not_regular)
    simp only [hwrite]
    rfl
  · rfl

theorem OnlyDirectories.storesNothing (h : OnlyDirectories s) : StoresNothing s where
  read := h.read_eq
  write := h.write_eq
  readdir := fun path count result spans he => by
    rw [readdir] at he
    split at he
    · cases he
    · rename_i inode hr
      split at he
      · cases he
        exact ⟨.inl rfl, rfl⟩
      · rename_i hdir
        have hempty := h.resolve hr (not_or.mp hdir).1
        simp only [hempty.empty, Nat.not_lt_zero, if_false, Nat.zero_mul] at he
        cases he
        exact ⟨.inr rfl, rfl⟩
  stat := fun path inode info he => by
    rw [fsStat] at he
    split at he
    · cases he
    · rename_i i hr
      by_cases h0 : i = 0
      · rw [if_pos h0] at he
        cases he
      · rw [if_neg h0] at he
        cases he
        exact ⟨(h.resolve hr h0).type, (h.resolve hr h0).empty⟩

/-! ## What the calls leave -/

/-- Inodes may be made, the others stay as they are, and so do the bytes. -/
structure Grows (s s' : TmpfsMounts) : Prop where
  heap : s.heap.requests ≤ s'.heap.requests
  inodes : ∀ i ≤ s.heap.requests, s'.inodes i = s.inodes i
  info : ∀ i ≤ s.heap.requests, s'.info i = s.info i
  bytes : s'.bytes = s.bytes

theorem EmptyDirectory.grows (h : EmptyDirectory s inode) (hg : Grows s s') :
    EmptyDirectory s' inode := by
  refine ⟨Nat.le_trans h.le hg.heap, ?_, ?_⟩
  · rw [hg.inodes inode h.le]
    exact h.type
  · rw [hg.info inode h.le]
    exact h.empty

theorem tmpfsCreate_bytes {type permissions : Nat}
    (h : tmpfsCreate s path type permissions = some (inode, s')) : s'.bytes = s.bytes := by
  rw [tmpfsCreate] at h
  split at h
  · cases h
  split at h
  · obtain ⟨-, rfl⟩ := Prod.mk.inj (Option.some.inj h)
    rfl
  dsimp only at h
  split at h
  · obtain ⟨-, rfl⟩ := Prod.mk.inj (Option.some.inj h)
    rfl
  split at h <;> obtain ⟨-, rfl⟩ := Prod.mk.inj (Option.some.inj h) <;> rfl

/-- What `tmpfs_create` makes of a directory is one without entries. -/
theorem tmpfsCreate_grows {permissions : Nat}
    (h : tmpfsCreate s path ftDirectory permissions = some (inode, s')) :
    Grows s s' ∧ s'.mountPoints = s.mountPoints ∧ s'.fileDescriptors = s.fileDescriptors ∧
      (inode ≠ 0 → EmptyDirectory s' inode) := by
  have hgrows : ∀ {t}, Adds s t → t.bytes = s.bytes → Grows s t := fun ha hb =>
    ⟨ha.heap.le, ha.inodes, ha.info, hb⟩
  rcases tmpfsCreate_cases s path ftDirectory permissions with
    ⟨-, hc⟩ | ⟨s₁, -, -, hc, ha⟩ | ⟨-, hc⟩
  · rw [hc] at h
    cases h
  · have hbytes := tmpfsCreate_bytes hc
    obtain ⟨rfl, rfl⟩ := Prod.mk.inj (Option.some.inj (hc.symm.trans h))
    exact ⟨hgrows ha hbytes, ha.mountPoints, ha.fileDescriptors, fun h0 => absurd rfl h0⟩
  · have hbytes := tmpfsCreate_bytes hc
    obtain ⟨rfl, rfl⟩ := Prod.mk.inj (Option.some.inj (hc.symm.trans h))
    have ha := adds_withInode s ftDirectory permissions
    obtain ⟨htype, hlt⟩ := withInode_new s ftDirectory permissions
    refine ⟨hgrows ha hbytes, rfl, rfl, fun _ => ⟨hlt, htype, ?_⟩⟩
    rw [withInode]
    simp only [Function.update_self, if_true]

theorem OnlyDirectories.grows (h : OnlyDirectories s) (hg : Grows s s')
    (hm : ∀ m ∈ s'.mountPoints, m ∈ s.mountPoints ∨
      ∀ root, m.fsData = some root → root ≠ 0 → EmptyDirectory s' root)
    (hf : ∀ fd, IsOpen s'.toTmpfs fd → (IsOpen s.toTmpfs fd ∧ s'.file fd = s.file fd) ∨
      EmptyDirectory s' (s'.file fd)) : OnlyDirectories s' where
  roots := fun m hmem root hroot h0 => by
    rcases hm m hmem with hold | hnew
    · exact (h.roots m hold root hroot h0).grows hg
    · exact hnew root hroot h0
  files := fun fd hopen => by
    rcases hf fd hopen with ⟨hold, hfile⟩ | hnew
    · rw [hfile]
      exact (h.files fd hold).grows hg
    · exact hnew

/-- The same for a state with the same roots and descriptors. -/
theorem OnlyDirectories.same (h : OnlyDirectories s) (hg : Grows s s')
    (hm : s'.mountPoints = s.mountPoints) (hf : s'.fileDescriptors = s.fileDescriptors) :
    OnlyDirectories s' := by
  refine h.grows hg (fun m hmem => .inl (hm ▸ hmem)) fun fd hopen => .inl ?_
  simp only [IsOpen, Tmpfs.file, hf] at hopen ⊢
  exact ⟨hopen, trivial⟩

/-- An entry of the table of mounts is added, with an empty directory or with nothing. -/
theorem OnlyDirectories.enter (h : OnlyDirectories s) (hg : Grows s s')
    (hf : s'.fileDescriptors = s.fileDescriptors) {entry : MountPoint}
    (hm : s'.mountPoints = s.mountPoints ++ [entry])
    (hentry : ∀ root, entry.fsData = some root → root ≠ 0 → EmptyDirectory s' root) :
    OnlyDirectories s' := by
  refine h.grows hg (fun m hmem => ?_) fun fd hopen => .inl ?_
  · rw [hm] at hmem
    rcases List.mem_append.mp hmem with hold | hnew
    · exact .inl hold
    · obtain rfl := List.mem_singleton.mp hnew
      exact .inr hentry
  · simp only [IsOpen, Tmpfs.file, hf] at hopen ⊢
    exact ⟨hopen, trivial⟩

/-! ## One call -/

/-- What a call keeps. -/
def Stays (s s' : TmpfsMounts) : Prop := OnlyDirectories s' ∧ s'.bytes = s.bytes

theorem OnlyDirectories.refl (h : OnlyDirectories s) : Stays s s := ⟨h, rfl⟩

theorem OnlyDirectories.mount (h : OnlyDirectories s) {target : FileName} {fsType : Nat}
    {result : Int} (hc : mount s target fsType = some (result, s')) : Stays s s' := by
  rw [Fs.mount] at hc
  split at hc
  · cases hc
    exact h.refl
  have hnone : ∀ t : TmpfsMounts, Grows s t → t.fileDescriptors = s.fileDescriptors →
      t.mountPoints = s.mountPoints ++ [⟨target, fsType, none⟩] → Stays s t :=
    fun t hg hf hm => ⟨h.enter hg hf hm fun root he => absurd he.symm (Option.some_ne_none root),
      hg.bytes⟩
  have hrequest : s.heap.requests ≤ (s.heap.kmalloc 4).2.requests := Nat.le_succ _
  dsimp only at hc
  split at hc
  · split at hc
    · cases hc
      exact hnone _ ⟨hrequest, fun _ _ => rfl, fun _ _ => rfl, rfl⟩ rfl rfl
    · split at hc
      · cases hc
      · rename_i rootInode made hmade
        cases hc
        obtain ⟨hg, -, hf, hroot⟩ := tmpfsCreate_grows hmade
        have hg' : Grows s made := ⟨Nat.le_trans hrequest hg.heap,
          fun i hi => hg.inodes i (Nat.le_trans hi hrequest),
          fun i hi => hg.info i (Nat.le_trans hi hrequest), hg.bytes⟩
        refine ⟨h.enter ⟨hg'.heap, hg'.inodes, hg'.info, hg'.bytes⟩ hf rfl fun root he h0 => ?_,
          hg'.bytes⟩
        obtain rfl := Option.some.inj he
        exact ⟨(hroot h0).le, (hroot h0).type, (hroot h0).empty⟩
  · cases hc
    exact hnone _ ⟨Nat.le_refl _, fun _ _ => rfl, fun _ _ => rfl, rfl⟩ rfl rfl

theorem OnlyDirectories.open (h : OnlyDirectories s) {flags : Nat} {result : Int}
    (hc : openPath s path flags = some (result, s')) : Stays s s' := by
  rw [openPath_eq] at hc
  obtain ⟨found, hr, he⟩ := Option.map_eq_some_iff.mp hc
  by_cases h0 : found = 0
  · rw [if_pos h0] at he
    cases he
    exact h.refl
  · rw [if_neg h0] at he
    rcases allocFileDescriptor_lowest s found flags with ⟨i, -, -, -, ha⟩ | ⟨-, ha⟩
    · obtain ⟨-, rfl⟩ := Prod.mk.inj (ha.symm.trans he)
      have hg : Grows s (withSlot s i found flags) :=
        ⟨Nat.le_refl _, fun _ _ => rfl, fun _ _ => rfl, rfl⟩
      refine ⟨h.grows hg (fun m hm => .inl hm) fun fd hopen => ?_, rfl⟩
      by_cases hi : fd.toNat = i
      · have hfile : (withSlot s i found flags).file fd = found := by
          simp only [withSlot, Tmpfs.file, hi, Function.update_self]
        rw [hfile]
        exact .inr ((h.resolve hr h0).grows hg)
      · simp only [withSlot, IsOpen, Tmpfs.file, Function.update_of_ne hi] at hopen ⊢
        exact .inl ⟨hopen, trivial⟩
    · obtain ⟨-, rfl⟩ := Prod.mk.inj (ha.symm.trans he)
      exact h.refl

theorem OnlyDirectories.close (h : OnlyDirectories s) (fd : Int) : Stays s (close s fd).2 := by
  rw [Fs.close]
  split
  · refine ⟨h.grows ⟨Nat.le_refl _, fun _ _ => rfl, fun _ _ => rfl, rfl⟩ (fun m hm => .inl hm)
      fun fd' hopen => .inl ?_, rfl⟩
    by_cases hfd : fd'.toNat = fd.toNat
    · simp only [IsOpen, hfd, Function.update_self] at hopen
      exact absurd hopen.2.2 Bool.false_ne_true
    · simp only [IsOpen, Tmpfs.file, Function.update_of_ne hfd] at hopen ⊢
      exact ⟨hopen, trivial⟩
  · exact h.refl

theorem OnlyDirectories.lseek (h : OnlyDirectories s) (fd offset whence : Int) :
    Stays s { s with toTmpfs := (lseek s.toTmpfs fd offset whence).2 } := by
  rcases lseek_cases s.toTmpfs fd offset whence with he | ⟨target, -, he⟩
  · rw [he]
    exact h.refl
  · rw [he]
    refine ⟨h.grows ⟨Nat.le_refl _, fun _ _ => rfl, fun _ _ => rfl, rfl⟩ (fun m hm => .inl hm)
      fun fd' hopen => .inl ?_, rfl⟩
    by_cases hfd : fd'.toNat = fd.toNat
    · simp only [Tmpfs.setOffset, IsOpen, Tmpfs.file, hfd, Function.update_self] at hopen ⊢
      exact ⟨hopen, trivial⟩
    · simp only [Tmpfs.setOffset, IsOpen, Tmpfs.file, Function.update_of_ne hfd] at hopen ⊢
      exact ⟨hopen, trivial⟩

/-- `unlink` finds no file. -/
theorem OnlyDirectories.unlink (h : OnlyDirectories s) {result : Int}
    (hc : unlink s path = some (result, s')) : Stays s s' := by
  rw [Fs.unlink] at hc
  split at hc
  · cases hc
  · rename_i inode hr
    have hdir : inode = 0 ∨ (s.inodes inode).type = ftDirectory := by
      by_cases h0 : inode = 0
      · exact .inl h0
      · exact .inr (h.resolve hr h0).type
    rw [if_pos hdir] at hc
    cases hc
    exact h.refl

theorem rmdir_fails {result : Int} (hc : rmdir s path = some (result, s'))
    (hkeep : rmdir s path ≠ some (0, s')) : s' = s := by
  rw [rmdir] at hc hkeep
  split at hc
  · cases hc
  · split at hc
    · cases hc
      rfl
    · rename_i hr hdir
      simp only [hr, if_neg hdir] at hkeep
      cases hc
      exact absurd rfl hkeep

theorem OnlyDirectories.call (h : OnlyDirectories s) (hk : KeepsRoots s op) {result : Int}
    (hc : fsCall s op = some (result, s')) : Stays s s' := by
  cases op with
  | mount target fsType => exact h.mount hc
  | path op =>
    cases op with
    | «open» path flags => exact h.open hc
    | mkdir path mode =>
      rw [fsCall, pathCall, Fs.mkdir] at hc
      split at hc
      · cases hc
      · rename_i inode made hmade
        cases hc
        obtain ⟨hg, hm, hf, -⟩ := tmpfsCreate_grows hmade
        exact ⟨h.same hg hm hf, hg.bytes⟩
    | rmdir path =>
      obtain rfl := rmdir_fails hc (hk path s' rfl)
      exact h.refl
    | unlink path => exact h.unlink hc
  | descriptor op =>
    cases op with
    | «open» path flags => exact h.open hc
    | close fd =>
      obtain rfl := (Prod.mk.inj (Option.some.inj hc)).2
      exact h.close fd
    | read fd count =>
      simp only [fsCall, descriptorCall, h.read_eq] at hc
      cases hc
      exact h.refl
    | write fd buf =>
      simp only [fsCall, descriptorCall, h.write_eq] at hc
      cases hc
      exact h.refl
    | lseek fd offset whence =>
      obtain rfl := (Prod.mk.inj (Option.some.inj hc)).2
      exact h.lseek fd offset whence
  | readdir path count =>
    obtain ⟨r, -, he⟩ := Option.map_eq_some_iff.mp hc
    obtain rfl := (Prod.mk.inj he).2
    exact h.refl
  | rename oldPath newPath =>
    obtain rfl := (Prod.mk.inj (Option.some.inj hc)).2
    exact h.refl

theorem OnlyDirectories.step (h : OnlyDirectories s) (hk : KeepsRoots s op) :
    Stays s (fsNext s op) := by
  rw [fsNext]
  cases hc : fsCall s op with
  | none => exact h.refl
  | some r => exact h.call hk hc

/-- **Nothing is ever stored.** From a state in which roots and open inodes are empty
directories, in every run of calls that frees no root, no call reads, writes or lists
anything, and no byte in memory changes. -/
theorem nothing_stored (s : TmpfsMounts) (h : OnlyDirectories s) (ops : List FsOp)
    (hk : Guarded fsNext KeepsRoots s ops) :
    Always fsNext (fun s' => StoresNothing s' ∧ s'.bytes = s.bytes) s ops := by
  refine hk.always (fun s' => OnlyDirectories s' ∧ s'.bytes = s.bytes)
    (fun s' h' => ⟨h'.1.storesNothing, h'.2⟩) (fun s' op h' hop => ?_) ⟨h, rfl⟩
  obtain ⟨hd, hb⟩ := h'.1.step hop
  exact ⟨hd, hb.trans h'.2⟩

/-- With tmpfs mounted at `/` and nothing open. -/
theorem onlyDirectories_root : OnlyDirectories rootTmpfs where
  roots := fun m hm root hroot _ => by
    obtain rfl := List.mem_singleton.mp hm
    obtain rfl := Option.some.inj hroot
    exact ⟨by decide, by decide, by decide⟩
  files := fun fd hopen => absurd hopen.2.2 Bool.false_ne_true

theorem nothing_stored_created : Always fsNext
    (fun s' => StoresNothing s' ∧ s'.bytes = rootTmpfs.bytes) rootTmpfs
    [.descriptor (.open newPath oCreat), .path (.mkdir newPath 0), .descriptor (.write 0 [7])] := by
  refine nothing_stored rootTmpfs onlyDirectories_root _ ?_
  exact ⟨fun _ _ h => (nomatch h), fun _ _ h => (nomatch h), fun _ _ h => (nomatch h), trivial⟩

end SynapseKernel.Fs
