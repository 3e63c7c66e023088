import SynapseKernel.Fs.TmpfsMount

/-! # The mount table (kernel/fs/tmpfs.c)

`mount` takes its slot before it looks at the type of the file system, so a mount that
fails stays in the table (`mount_atomic_iff`). `find_mount_point` returns the first
entry whose target the path begins with: that is the right one only if the table
happens to be in the right order and no name goes on where a target ends
(`findMountPoint_right_iff`). -/
namespace SynapseKernel.Fs
open SynapseKernel.Word SynapseKernel.Kheap SynapseKernel.Str SynapseKernel.Runs

/-! ## Mounts that fail -/

/-- What `mount` returns and leaves. The copy of a target of more than 255 bytes runs
over the end of its entry; what the entry is then is left open. -/
inductive MountReturns (s : TmpfsMounts) (target : CString) (fsType : Nat) :
    Int → TmpfsMounts → Prop
  | full : 16 ≤ s.mountPoints.length → MountReturns s target fsType (-1) s
  | fits {result : Int} {s' : TmpfsMounts} (h : target.bytes.length ≤ 255) :
      mount s ⟨target, h⟩ fsType = some (result, s') → MountReturns s target fsType result s'
  | overrun {s' : TmpfsMounts} (entry : MountPoint) : 255 < target.bytes.length →
      s.mountPoints.length < 16 → s'.mountPoints = s.mountPoints ++ [entry] →
      MountReturns s target fsType
        (if fsType = fsTypeTmpfs ∧ s.heap.grants s.heap.requests = true then 0 else -1) s'

/-- A mount that returns `-1` changes neither the count nor what a path finds. -/
def MountAtomic (s : TmpfsMounts) (target : CString) (fsType : Nat) : Prop :=
  ∀ s', MountReturns s target fsType (-1) s' →
    s'.mountPoints.length = s.mountPoints.length ∧
      ∀ path, findMountPoint s'.mountPoints path = findMountPoint s.mountPoints path

variable {s s' : TmpfsMounts} {l : List MountPoint} {m : MountPoint} {path : CString}

/-- A mount that is refused memory or does not know the type has its entry made. -/
theorem mountReturns_failed {target : CString} {fsType : Nat} (hroom : s.mountPoints.length < 16)
    (hfails : ¬ (fsType = fsTypeTmpfs ∧ s.heap.grants s.heap.requests = true)) :
    ∃ s' entry, MountReturns s target fsType (-1) s' ∧
      s'.mountPoints = s.mountPoints ++ [entry] := by
  by_cases hlen : target.bytes.length ≤ 255
  · rcases mount_cases s ⟨target, hlen⟩ fsType with
      ⟨hfull, -⟩ | ⟨-, -, s', he, hs⟩ | ⟨-, htype, hg, -⟩
    · exact absurd hroom (Nat.not_lt_of_le hfull)
    · exact ⟨s', _, .fits hlen he, hs⟩
    · exact absurd ⟨htype, hg⟩ hfails
  · have hover := @MountReturns.overrun s target fsType
      { s with mountPoints := s.mountPoints ++ [⟨rootTarget, fsType, none⟩] } _
      (Nat.lt_of_not_le hlen) hroom rfl
    rw [if_neg hfails] at hover
    exact ⟨_, _, hover, rfl⟩

/-- A mount that returns `-1` met a full table, and changed nothing, or one of the other
two failures. -/
theorem MountReturns.cases {target : CString} {fsType : Nat} {result : Int}
    (hr : MountReturns s target fsType result s') (h : result = -1) :
    s' = s ∨ s.mountPoints.length < 16 ∧
      ¬ (fsType = fsTypeTmpfs ∧ s.heap.grants s.heap.requests = true) := by
  cases hr with
  | full hfull => exact .inl rfl
  | fits hlen he =>
    rcases mount_cases s ⟨target, hlen⟩ fsType with
      ⟨-, he'⟩ | ⟨hroom, hfails, -⟩ | ⟨-, htype, hg, he'⟩
    · obtain ⟨-, rfl⟩ := Prod.mk.inj (Option.some.inj (he.symm.trans he'))
      exact .inl rfl
    · refine .inr ⟨Nat.lt_of_not_le hroom, fun hok => ?_⟩
      rcases hfails with htype | hg
      · exact htype hok.1
      · exact absurd (hg.symm.trans hok.2) (by decide)
    · obtain ⟨p, -, hp⟩ := Option.map_eq_some_iff.mp (he'.symm.trans he)
      have h0 : (0 : Int) = result := congrArg Prod.fst hp
      exact absurd (h0.trans h) (by decide)
  | overrun entry hlen hroom hs =>
    by_cases hok : fsType = fsTypeTmpfs ∧ s.heap.grants s.heap.requests = true
    · rw [if_pos hok] at h
      exact absurd h (by decide)
    · exact .inr ⟨hroom, hok⟩

/-- **A failed mount leaves the table as it was** exactly when the table is full; any
other mount of a tmpfs that has its memory does not fail. -/
theorem mount_atomic_iff (s : TmpfsMounts) (target : CString) (fsType : Nat) :
    MountAtomic s target fsType ↔ 16 ≤ s.mountPoints.length ∨
      (fsType = fsTypeTmpfs ∧ s.heap.grants s.heap.requests = true) := by
  constructor
  · intro hatomic
    by_contra hno
    obtain ⟨hfull, hfails⟩ := not_or.mp hno
    obtain ⟨s', entry, hr, hs⟩ := @mountReturns_failed s target fsType
      (Nat.lt_of_not_le hfull) hfails
    have hlen := (hatomic s' hr).1
    rw [hs, List.length_append, List.length_singleton] at hlen
    omega
  · intro hok s' hr
    rcases hr.cases rfl with rfl | ⟨hroom, hfails⟩
    · exact ⟨rfl, fun _ => rfl⟩
    · exact absurd hok (not_or.mpr ⟨Nat.not_le_of_lt hroom, hfails⟩)

/-- `"/mnt"` as a target. -/
def mntTarget : FileName := ⟨⟨[47, 109, 110, 116], by decide⟩, by decide⟩

/-- A mount of an ext2 file system at `/mnt` fails, and `/mnt` finds its entry. -/
theorem failed_mount_stays : ¬ MountAtomic unmounted mntTarget.toCString 0x2 := by
  intro h
  have hr : MountReturns unmounted mntTarget.toCString 0x2 (-1)
      { unmounted with mountPoints := [⟨mntTarget, 0x2, none⟩] } := .fits mntTarget.fits rfl
  exact absurd (h _ hr).1 (by decide)

/-! ## Paths -/

/-- The path is the target, or goes on with a new component behind it. -/
def ComponentPrefix (target path : CString) : Prop :=
  ∃ rest, path.bytes = target.bytes ++ rest ∧
    (rest = [] ∨ rest.head? = some 47 ∨ target.bytes.getLast? = some 47)

/-- The target is a component prefix of the path, and none in the table is longer. -/
def Longest (l : List MountPoint) (path : CString) (m : MountPoint) : Prop :=
  m ∈ l ∧ ComponentPrefix m.mountPoint.toCString path ∧
    ∀ m' ∈ l, ComponentPrefix m'.mountPoint.toCString path →
      m'.mountPoint.bytes.length ≤ m.mountPoint.bytes.length

/-- The mount a path is in, if it is in one. The order of the table does not matter. -/
def RightMount (l : List MountPoint) (path : CString) : Option MountPoint → Prop
  | none => ∀ m ∈ l, ¬ ComponentPrefix m.mountPoint.toCString path
  | some m => Longest l path m

/-- Every target that the path begins with is the longest component prefix or comes
after it in the table. -/
def RightFirst (l : List MountPoint) (path : CString) : Prop :=
  ∀ before m after, l = before ++ m :: after → m.mountPoint.bytes <+: path.bytes →
    Longest l path m ∨ ∃ b ∈ before, Longest l path b

theorem ComponentPrefix.begins {target path : CString} (h : ComponentPrefix target path) :
    target.bytes <+: path.bytes := by
  obtain ⟨rest, he, -⟩ := h
  exact ⟨rest, he.symm⟩

/-- Two right answers have the same target, so the order does not matter. -/
theorem RightMount.target_eq {l l' : List MountPoint} (hp : l.Perm l') {r r' : Option MountPoint}
    (h : RightMount l path r) (h' : RightMount l' path r') :
    r.map MountPoint.mountPoint = r'.map MountPoint.mountPoint := by
  cases r with
  | none =>
    cases r' with
    | none => rfl
    | some m' => exact absurd h'.2.1 (h m' (hp.mem_iff.mpr h'.1))
  | some m =>
    cases r' with
    | none => exact absurd h.2.1 (h' m (hp.mem_iff.mp h.1))
    | some m' =>
      obtain ⟨hm, hpre, hlongest⟩ := h
      obtain ⟨hm', hpre', hlongest'⟩ := h'
      have hlen := Nat.le_antisymm (hlongest' m (hp.mem_iff.mp hm) hpre)
        (hlongest m' (hp.mem_iff.mpr hm') hpre')
      have hbytes := (List.prefix_of_prefix_length_le hpre.begins hpre'.begins
        (Nat.le_of_eq hlen)).eq_of_length hlen
      have htarget : m.mountPoint.toCString = m'.mountPoint.toCString :=
        (CString.mk.injEq ..).mpr hbytes
      rw [Option.map_some, Option.map_some, FileName.toCString_inj htarget]

/-- What `find_mount_point` returns. -/
theorem findMountPoint_cases (l : List MountPoint) (path : CString) :
    (findMountPoint l path = none ∧ ∀ m ∈ l, ¬ m.mountPoint.bytes <+: path.bytes) ∨
    ∃ before m after, findMountPoint l path = some m ∧ l = before ++ m :: after ∧
      m.mountPoint.bytes <+: path.bytes ∧ ∀ b ∈ before, ¬ b.mountPoint.bytes <+: path.bytes := by
  cases hf : findMountPoint l path with
  | none =>
    refine .inl ⟨rfl, fun m hm hpre => ?_⟩
    exact findMountPoint_isSome.mpr ⟨m, hm, hpre⟩ hf
  | some m =>
    have hf' := hf
    rw [findMountPoint, List.find?_eq_some_iff_append] at hf'
    obtain ⟨hmatch, before, after, he, hbefore⟩ := hf'
    refine .inr ⟨before, m, after, rfl, he, (matches_iff path m).mp (of_decide_eq_true hmatch),
      fun b hb hpre => ?_⟩
    have hno := hbefore b hb
    rw [Bool.not_eq_true', decide_eq_false_iff_not, matches_iff] at hno
    exact hno hpre

theorem rightMount_iff (l : List MountPoint) (path : CString) :
    RightMount l path (findMountPoint l path) ↔ RightFirst l path := by
  rcases findMountPoint_cases l path with ⟨hf, hno⟩ | ⟨before, m, after, hf, rfl, hm, hbefore⟩
  · rw [hf]
    refine iff_of_true (fun m hm hpre => hno m hm hpre.begins) fun before m after he hpre => ?_
    exact absurd hpre (hno m (he ▸ List.mem_append_right _ List.mem_cons_self))
  · rw [hf]
    constructor
    · intro hright before' m' after' he hpre
      -- what the path begins with is the entry found or stands behind it
      rcases List.append_eq_append_iff.mp he with ⟨t, hb, ha⟩ | ⟨t, hb, ha⟩
      · cases t with
        | nil =>
          obtain ⟨rfl, -⟩ := List.cons.inj ha
          exact .inl hright
        | cons x t =>
          obtain ⟨rfl, -⟩ := List.cons.inj ha
          refine .inr ⟨m, ?_, hright⟩
          rw [hb]
          exact List.mem_append_right _ List.mem_cons_self
      · cases t with
        | nil =>
          obtain ⟨rfl, -⟩ := List.cons.inj ha
          exact .inl hright
        | cons x t =>
          obtain ⟨rfl, -⟩ := List.cons.inj ha
          refine absurd hpre (hbefore m' ?_)
          rw [hb]
          exact List.mem_append_right _ List.mem_cons_self
    · intro hfirst
      rcases hfirst before m after rfl hm with hlongest | ⟨b, hb, hlongest⟩
      · exact hlongest
      · exact absurd hlongest.2.1.begins (hbefore b hb)

/-- **`find_mount_point` returns the right mount** exactly where that comes before all
others whose target the path begins with, and there another order gives the same target. -/
theorem findMountPoint_right_iff (l : List MountPoint) (path : CString) :
    (RightMount l path (findMountPoint l path) ↔ RightFirst l path) ∧
      ∀ l', l.Perm l' → RightFirst l path → RightFirst l' path →
        (findMountPoint l path).map MountPoint.mountPoint =
          (findMountPoint l' path).map MountPoint.mountPoint :=
  ⟨rightMount_iff l path, fun l' hp hl hl' =>
    ((rightMount_iff l path).mpr hl).target_eq hp ((rightMount_iff l' path).mpr hl')⟩

/-- `"/mntx"`. -/
def mntxTarget : FileName := ⟨⟨[47, 109, 110, 116, 120], by decide⟩, by decide⟩

/-- Two mounts that return `0`, at `/mnt` and then at `/mntx`. -/
def bothMounted : TmpfsMounts :=
  [⟨mntTarget, fsTypeTmpfs⟩, ⟨mntxTarget, fsTypeTmpfs⟩].foldl mountNext unmounted

/-- `/mntx` leads to the mount at `/mnt`. -/
theorem mntx_finds_mnt :
    (∃ s, mount unmounted mntTarget fsTypeTmpfs = some (0, s) ∧
      mount s mntxTarget fsTypeTmpfs = some (0, bothMounted)) ∧
    (findMountPoint bothMounted.mountPoints mntxTarget.toCString).map MountPoint.mountPoint =
      some mntTarget ∧
    ¬ RightMount bothMounted.mountPoints mntxTarget.toCString
      (findMountPoint bothMounted.mountPoints mntxTarget.toCString) := by
  refine ⟨⟨_, rfl, rfl⟩, rfl, ?_⟩
  rintro ⟨-, ⟨rest, he, hrest⟩, -⟩
  have he : mntTarget.bytes ++ [120] = mntTarget.bytes ++ rest := he
  have hx : [120] = rest := List.append_cancel_left he
  rw [← hx] at hrest
  exact absurd hrest (by decide)

end SynapseKernel.Fs
