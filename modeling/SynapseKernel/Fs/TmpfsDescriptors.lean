import SynapseKernel.Fs.TmpfsNames

/-! # The table of descriptors (kernel/fs/tmpfs.c)

`open` takes the lowest slot that is free and `close` gives it back. In a run of these and
of `read`, `write` and `lseek` the slots in use are the descriptors that were returned
and not closed since, and no call changes the slot of another descriptor
(`descriptors_disciplined`). -/
namespace SynapseKernel.Fs
open SynapseKernel.Word SynapseKernel.Kheap SynapseKernel.Str SynapseKernel.Runs

/-- `close`; `tmpfs_close` frees nothing. -/
def close (s : TmpfsMounts) (fd : Int) : Int × TmpfsMounts :=
  if IsOpen s.toTmpfs fd then
    let entry := { s.fileDescriptors fd.toNat with used := false, inode := 0 }
    (0, { s with fileDescriptors := Function.update s.fileDescriptors fd.toNat entry })
  else (-1, s)

inductive DescriptorOp
  | open (path : CString) (flags : Nat)
  | close (fd : Int)
  | read (fd : Int) (count : Nat)
  | write (fd : Int) (buf : List UInt8)
  | lseek (fd offset whence : Int)

/-- The result and the next state; `none` is a read through an `fs_data` that is `NULL`. -/
def descriptorCall (s : TmpfsMounts) : DescriptorOp → Option (Int × TmpfsMounts)
  | .open path flags => openPath s path flags
  | .close fd => some (close s fd)
  | .read fd count =>
    let r := read s.toTmpfs fd count
    some (r.1, { s with toTmpfs := r.2.2 })
  | .write fd buf =>
    let r := write s.toTmpfs fd buf
    some (r.1, { s with toTmpfs := r.2 })
  | .lseek fd offset whence =>
    let r := lseek s.toTmpfs fd offset whence
    some (r.1, { s with toTmpfs := r.2 })

/-- The descriptor that the call is for, which for `open` is the one it returns. -/
def DescriptorOp.fd (result : Int) : DescriptorOp → Int
  | .open _ _ => result
  | .close fd => fd
  | .read fd _ => fd
  | .write fd _ => fd
  | .lseek fd _ _ => fd

/-- The descriptors that were returned and not closed since. -/
def returned (opened : List Int) (result : Int) : DescriptorOp → List Int
  | .open _ _ => if result = -1 then opened else result :: opened
  | .close fd => if result = 0 then opened.filter (· ≠ fd) else opened
  | .read _ _ => opened
  | .write _ _ => opened
  | .lseek _ _ _ => opened

/-- The file system, with the descriptors handed out. -/
structure OpenTable where
  fs : TmpfsMounts
  opened : List Int

def descriptorNext (t : OpenTable) (op : DescriptorOp) : OpenTable :=
  match descriptorCall t.fs op with
  | none => t
  | some (result, s) => ⟨s, returned t.opened result op⟩

/-- What a slot of the table holds. -/
def TmpfsMounts.slot (s : TmpfsMounts) (i : Nat) : FileDescriptor × Nat :=
  (s.fileDescriptors i, s.flags i)

/-- `open` of a path that resolves to an inode takes the lowest free slot, or fails and
changes nothing when all of them are in use. -/
def OpensLowest (s : TmpfsMounts) (path : CString) (flags : Nat) : Prop :=
  ∀ inode, resolvePath s path = some inode → inode ≠ 0 →
    (∃ fd : Nat, fd < 64 ∧ ¬ IsOpen s.toTmpfs fd ∧ (∀ j < fd, IsOpen s.toTmpfs j) ∧
      ∃ s', openPath s path flags = some ((fd : Int), s') ∧
        s'.slot fd = (⟨true, inode, 0⟩, flags)) ∨
    (∀ j < 64, IsOpen s.toTmpfs (j : Nat)) ∧ openPath s path flags = some (-1, s)

/-- The discipline of the table. -/
structure Disciplined (t : OpenTable) (op : DescriptorOp) : Prop where
  opens : ∀ path flags, op = .open path flags → OpensLowest t.fs path flags
  invalid : (∀ path flags, op ≠ .open path flags) → ¬ IsOpen t.fs.toTmpfs (op.fd 0) →
    descriptorCall t.fs op = some (-1, t.fs)
  others : ∀ result s', descriptorCall t.fs op = some (result, s') →
    ∀ i : Nat, (i : Int) ≠ op.fd result → s'.slot i = t.fs.slot i
  used : ∀ fd, IsOpen (descriptorNext t op).fs.toTmpfs fd ↔ fd ∈ (descriptorNext t op).opened

variable {s s' : TmpfsMounts} {fs fs' : Tmpfs} {fd : Int} {t : OpenTable} {op : DescriptorOp}

theorem isOpen_natCast {i : Nat} : IsOpen fs i ↔ i < 64 ∧ (fs.fileDescriptors i).used = true := by
  rw [IsOpen, Int.toNat_natCast, and_iff_right (Int.natCast_nonneg i)]
  exact and_congr_left' Int.ofNat_lt

/-! ## What the calls do to the table -/

/-- Nothing but the offset of the descriptor differs in the table. -/
def MovesOffset (fs fs' : Tmpfs) (fd : Int) : Prop :=
  ∃ offset, fs'.fileDescriptors = Function.update fs.fileDescriptors fd.toNat
    { fs.fileDescriptors fd.toNat with offset := offset }

theorem MovesOffset.of_eq (h : fs'.fileDescriptors = fs.fileDescriptors) :
    MovesOffset fs fs' fd :=
  ⟨(fs.fileDescriptors fd.toNat).offset, h.trans (Function.update_eq_self _ _).symm⟩

theorem MovesOffset.isOpen (h : MovesOffset fs fs' fd) (fd' : Int) :
    IsOpen fs' fd' ↔ IsOpen fs fd' := by
  obtain ⟨offset, h⟩ := h
  rw [IsOpen, IsOpen, h]
  by_cases he : fd'.toNat = fd.toNat
  · rw [he, Function.update_self]
  · rw [Function.update_of_ne he]

theorem movesOffset_advance (h : fs'.fileDescriptors = fs.fileDescriptors) (result : Int) :
    MovesOffset fs (advance fs' fd result) fd := by
  rw [advance]
  split
  · exact ⟨_, by rw [Tmpfs.setOffset, h]⟩
  · exact .of_eq h

theorem tmpfsWrite_fileDescriptors (fs : Tmpfs) (inode : Nat) (buf : List UInt8) (offset : Nat) :
    (tmpfsWrite fs inode buf offset).2.2.fileDescriptors = fs.fileDescriptors := by
  rw [tmpfsWrite]
  split
  · rfl
  · rcases growFile_cases fs inode (u32 (offset + buf.length)) with
      ⟨-, hgrow⟩ | ⟨-, -, hgrow⟩ | ⟨-, -, spans, fs', hgrow, hre⟩
    · simp only [hgrow]
      rfl
    · simp only [hgrow]
    · simp only [hgrow]
      exact hre.fileDescriptors

theorem movesOffset_read (fs : Tmpfs) (fd : Int) (count : Nat) :
    MovesOffset fs (read fs fd count).2.2 fd := by
  rw [read]
  split
  · exact movesOffset_advance rfl _
  · exact .of_eq rfl

theorem movesOffset_write (fs : Tmpfs) (fd : Int) (buf : List UInt8) :
    MovesOffset fs (write fs fd buf).2 fd := by
  rw [write]
  split
  · exact movesOffset_advance (tmpfsWrite_fileDescriptors _ _ _ _) _
  · exact .of_eq rfl

theorem movesOffset_lseek (fs : Tmpfs) (fd offset whence : Int) :
    MovesOffset fs (lseek fs fd offset whence).2 fd := by
  rcases lseek_cases fs fd offset whence with he | ⟨target, -, he⟩ <;> rw [he]
  · exact .of_eq rfl
  · exact ⟨target, rfl⟩

/-- The state with the slot taken for an inode. -/
def withSlot (s : TmpfsMounts) (i inode flags : Nat) : TmpfsMounts :=
  { s with
    fileDescriptors := Function.update s.fileDescriptors i ⟨true, inode, 0⟩
    flags := Function.update s.flags i flags }

/-- **The lowest free slot** is taken, if there is one. -/
theorem allocFileDescriptor_lowest (s : TmpfsMounts) (inode flags : Nat) :
    (∃ i : Nat, i < 64 ∧ ¬ IsOpen s.toTmpfs i ∧ (∀ j < i, IsOpen s.toTmpfs j) ∧
      allocFileDescriptor s inode flags = ((i : Int), withSlot s i inode flags)) ∨
    (∀ j < 64, IsOpen s.toTmpfs (j : Nat)) ∧ allocFileDescriptor s inode flags = (-1, s) := by
  rw [allocFileDescriptor]
  cases hf : (List.range maxFiles.toNat).find? fun i => ¬ (s.fileDescriptors i).used with
  | none =>
    refine .inr ⟨fun j hj => isOpen_natCast.mpr ⟨hj, ?_⟩, rfl⟩
    have hused := List.find?_eq_none.mp hf j (List.mem_range.mpr hj)
    simpa only [decide_not, Bool.not_eq_true', decide_eq_false_iff_not, not_not] using hused
  | some i =>
    rw [List.find?_range_eq_some] at hf
    obtain ⟨hfree, hi, hbefore⟩ := hf
    have hi : i < 64 := List.mem_range.mp hi
    refine .inl ⟨i, hi, fun hopen => ?_, fun j hj => ?_, rfl⟩
    · exact of_decide_eq_true hfree (isOpen_natCast.mp hopen).2
    · refine isOpen_natCast.mpr ⟨Nat.lt_trans hj hi, ?_⟩
      simpa only [decide_not, Bool.not_not, decide_eq_true_eq] using hbefore j hj

/-! ## One call -/

/-- The descriptors in use are those that were returned and not closed. -/
def UsedInv (t : OpenTable) : Prop := ∀ fd, IsOpen t.fs.toTmpfs fd ↔ fd ∈ t.opened

theorem descriptorNext_some {result : Int} (h : descriptorCall t.fs op = some (result, s')) :
    descriptorNext t op = ⟨s', returned t.opened result op⟩ := by
  rw [descriptorNext, h]

theorem DescriptorOp.fd_eq (hno : ∀ path flags, op ≠ .open path flags) (result result' : Int) :
    op.fd result = op.fd result' := by
  cases op with
  | «open» path flags => exact absurd rfl (hno path flags)
  | close fd => rfl
  | read fd count => rfl
  | write fd buf => rfl
  | lseek fd offset whence => rfl

/-- A call that moves the offset of its descriptor at most. -/
theorem UsedInv.disciplined_offset (h : UsedInv t) {result : Int}
    (hno : ∀ path flags, op ≠ .open path flags)
    (hcall : descriptorCall t.fs op = some (result, s'))
    (hmoves : MovesOffset t.fs.toTmpfs s'.toTmpfs (op.fd result)) (hflags : s'.flags = t.fs.flags)
    (hinvalid : ¬ IsOpen t.fs.toTmpfs (op.fd 0) → result = -1 ∧ s' = t.fs)
    (hreturned : returned t.opened result op = t.opened) : Disciplined t op := by
  refine ⟨fun path flags he => absurd he (hno path flags), fun _ hbad => ?_,
    fun result' s₁ hcall' i hi => ?_, fun fd => ?_⟩
  · obtain ⟨rfl, rfl⟩ := hinvalid hbad
    exact hcall
  · obtain ⟨rfl, rfl⟩ := Prod.mk.inj (Option.some.inj (hcall.symm.trans hcall'))
    by_cases hopen : IsOpen t.fs.toTmpfs (op.fd 0)
    · obtain ⟨offset, hm⟩ := hmoves
      have hne : i ≠ (op.fd result).toNat := by
        have hpos := hopen.1
        rw [DescriptorOp.fd_eq hno 0 result] at hpos
        omega
      rw [TmpfsMounts.slot, TmpfsMounts.slot, hm, hflags, Function.update_of_ne hne]
    · rw [(hinvalid hopen).2]
  · rw [descriptorNext_some hcall, hreturned]
    exact (hmoves.isOpen fd).trans (h fd)

theorem UsedInv.read (h : UsedInv t) (fd : Int) (count : Nat) :
    Disciplined t (.read fd count) := by
  have hcall : descriptorCall t.fs (.read fd count) = some ((Fs.read t.fs.toTmpfs fd count).1,
      { t.fs with toTmpfs := (Fs.read t.fs.toTmpfs fd count).2.2 }) := rfl
  refine h.disciplined_offset (fun path flags he => by cases he) hcall
    (movesOffset_read t.fs.toTmpfs fd count) rfl (fun hbad => ?_) rfl
  have hbad : ¬ IsOpen t.fs.toTmpfs fd := hbad
  rw [Fs.read, if_neg hbad]
  exact ⟨rfl, rfl⟩

theorem UsedInv.write (h : UsedInv t) (fd : Int) (buf : List UInt8) :
    Disciplined t (.write fd buf) := by
  have hcall : descriptorCall t.fs (.write fd buf) = some ((Fs.write t.fs.toTmpfs fd buf).1,
      { t.fs with toTmpfs := (Fs.write t.fs.toTmpfs fd buf).2 }) := rfl
  refine h.disciplined_offset (fun path flags he => by cases he) hcall
    (movesOffset_write t.fs.toTmpfs fd buf) rfl (fun hbad => ?_) rfl
  have hbad : ¬ IsOpen t.fs.toTmpfs fd := hbad
  rw [Fs.write, if_neg hbad]
  exact ⟨rfl, rfl⟩

theorem UsedInv.lseek (h : UsedInv t) (fd offset whence : Int) :
    Disciplined t (.lseek fd offset whence) := by
  have hcall : descriptorCall t.fs (.lseek fd offset whence) =
      some ((Fs.lseek t.fs.toTmpfs fd offset whence).1,
        { t.fs with toTmpfs := (Fs.lseek t.fs.toTmpfs fd offset whence).2 }) := rfl
  refine h.disciplined_offset (fun path flags he => by cases he) hcall
    (movesOffset_lseek t.fs.toTmpfs fd offset whence) rfl (fun hbad => ?_) rfl
  have hbad : ¬ IsOpen t.fs.toTmpfs fd := hbad
  rw [Fs.lseek, if_neg hbad]
  exact ⟨rfl, rfl⟩

/-- `close` frees the slot of the descriptor. -/
theorem UsedInv.close (h : UsedInv t) (fd : Int) : Disciplined t (.close fd) := by
  by_cases hopen : IsOpen t.fs.toTmpfs fd
  · have hcall : descriptorCall t.fs (.close fd) = some (0, (Fs.close t.fs fd).2) := by
      rw [descriptorCall, Fs.close, if_pos hopen]
    have hslots : (Fs.close t.fs fd).2.fileDescriptors = Function.update t.fs.fileDescriptors
        fd.toNat { t.fs.fileDescriptors fd.toNat with used := false, inode := 0 } := by
      rw [Fs.close, if_pos hopen]
    have hflags : (Fs.close t.fs fd).2.flags = t.fs.flags := by rw [Fs.close, if_pos hopen]
    refine ⟨fun path flags he => (by cases he), fun _ hbad => absurd hopen hbad,
      fun result s' hcall' i hi => ?_, fun fd' => ?_⟩
    · obtain ⟨rfl, rfl⟩ := Prod.mk.inj (Option.some.inj (hcall.symm.trans hcall'))
      have hne : i ≠ fd.toNat := by
        have hpos := hopen.1
        have hi' : (i : Int) ≠ fd := hi
        omega
      rw [TmpfsMounts.slot, TmpfsMounts.slot, hslots, hflags, Function.update_of_ne hne]
    · rw [descriptorNext_some hcall]
      simp only [returned, if_true, List.mem_filter, decide_not, Bool.not_eq_true',
        decide_eq_false_iff_not]
      rw [← h fd', IsOpen, IsOpen, hslots]
      by_cases he : fd' = fd
      · rw [he, Function.update_self]
        simp only [Bool.false_eq_true, and_false, not_true]
      · by_cases hpos : 0 ≤ fd'
        · have hopen0 := hopen.1
          rw [Function.update_of_ne (by omega), and_iff_left he]
        · simp only [hpos, false_and]
  · have hcall : Fs.close t.fs fd = (-1, t.fs) := if_neg hopen
    have hclose : descriptorCall t.fs (.close fd) = some (-1, t.fs) :=
      congrArg some hcall
    exact h.disciplined_offset (fun path flags he => by cases he) hclose (.of_eq rfl) rfl
      (fun _ => ⟨rfl, rfl⟩) rfl

/-- An `open` that fails changes nothing. -/
theorem UsedInv.open_refused (h : UsedInv t) {path : CString} {flags : Nat}
    (hopens : OpensLowest t.fs path flags)
    (hcall : descriptorCall t.fs (.open path flags) = some (-1, t.fs)) :
    Disciplined t (.open path flags) := by
  refine ⟨fun path' flags' he => ?_, fun hno => absurd rfl (hno path flags),
    fun result s' hcall' i _ => ?_, fun fd => ?_⟩
  · obtain ⟨rfl, rfl⟩ := DescriptorOp.open.inj he
    exact hopens
  · obtain ⟨-, rfl⟩ := Prod.mk.inj (Option.some.inj (hcall.symm.trans hcall'))
    rfl
  · rw [descriptorNext_some hcall]
    exact h fd

/-- One that takes a slot. -/
theorem UsedInv.open_takes (h : UsedInv t) {path : CString} {flags inode i : Nat} (hi : i < 64)
    (hopens : OpensLowest t.fs path flags)
    (hcall : descriptorCall t.fs (.open path flags) =
      some ((i : Int), withSlot t.fs i inode flags)) :
    Disciplined t (.open path flags) := by
  refine ⟨fun path' flags' he => ?_, fun hno => absurd rfl (hno path flags),
    fun result s' hcall' j hj => ?_, fun fd => ?_⟩
  · obtain ⟨rfl, rfl⟩ := DescriptorOp.open.inj he
    exact hopens
  · obtain ⟨rfl, rfl⟩ := Prod.mk.inj (Option.some.inj (hcall.symm.trans hcall'))
    have hne : j ≠ i := fun he => hj (congrArg Int.ofNat he)
    simp only [TmpfsMounts.slot, withSlot, Function.update_of_ne hne]
  · have hres : (i : Int) ≠ -1 := by omega
    rw [descriptorNext_some hcall, returned, if_neg hres, List.mem_cons, ← h fd, IsOpen, IsOpen]
    simp only [withSlot]
    by_cases he : fd = i
    · rw [he, Int.toNat_natCast, Function.update_self]
      exact iff_of_true ⟨Int.natCast_nonneg i, Int.ofNat_lt.mpr hi, rfl⟩ (.inl rfl)
    · rw [or_iff_right he]
      by_cases hpos : 0 ≤ fd
      · rw [Function.update_of_ne (by omega)]
      · simp only [hpos, false_and]

theorem UsedInv.open (h : UsedInv t) (path : CString) (flags : Nat) :
    Disciplined t (.open path flags) := by
  have hcall : descriptorCall t.fs (.open path flags) = _ := openPath_eq t.fs path flags
  cases hr : resolvePath t.fs path with
  | none =>
    rw [hr, Option.map_none] at hcall
    refine ⟨fun path' flags' he inode hr' _ => ?_, fun hno => absurd rfl (hno path flags),
      fun result s' hcall' => ?_, fun fd => ?_⟩
    · obtain ⟨rfl, rfl⟩ := DescriptorOp.open.inj he
      exact absurd (hr.symm.trans hr') (Option.some_ne_none inode).symm
    · exact absurd (hcall.symm.trans hcall') (Option.some_ne_none _).symm
    · rw [descriptorNext, hcall]
      exact h fd
  | some inode =>
    rw [hr, Option.map_some] at hcall
    by_cases h0 : inode = 0
    · rw [if_pos h0] at hcall
      refine h.open_refused (fun inode' hr' h0' => ?_) hcall
      exact absurd ((Option.some.inj (hr.symm.trans hr')).symm.trans h0) h0'
    · rw [if_neg h0] at hcall
      rcases allocFileDescriptor_lowest t.fs inode flags with
        ⟨i, hi, hfree, hbefore, ha⟩ | ⟨hfull, ha⟩
      · rw [ha] at hcall
        refine h.open_takes hi (fun inode' hr' _ => ?_) hcall
        obtain rfl := Option.some.inj (hr.symm.trans hr')
        refine .inl ⟨i, hi, hfree, hbefore, _, hcall, ?_⟩
        simp only [TmpfsMounts.slot, withSlot, Function.update_self]
      · rw [ha] at hcall
        exact h.open_refused (fun _ _ _ => .inr ⟨hfull, hcall⟩) hcall

/-- **One call** keeps the discipline. -/
theorem UsedInv.disciplined (h : UsedInv t) (op : DescriptorOp) : Disciplined t op := by
  cases op with
  | «open» path flags => exact h.open path flags
  | close fd => exact h.close fd
  | read fd count => exact h.read fd count
  | write fd buf => exact h.write fd buf
  | lseek fd offset whence => exact h.lseek fd offset whence

/-- **The table of descriptors** keeps its discipline in every run of calls from a table in
which no slot is in use. -/
theorem descriptors_disciplined (s : TmpfsMounts) (h : ∀ fd, ¬ IsOpen s.toTmpfs fd)
    (ops : List DescriptorOp) : Guarded descriptorNext Disciplined ⟨s, []⟩ ops := by
  have hany := @guarded_of_forall _ _ descriptorNext (fun _ => True) (OpenTable.mk s []) ops
    fun _ _ => trivial
  refine hany.imp UsedInv (fun t op ht _ => (ht.disciplined op).used)
    (fun t op ht _ => ht.disciplined op) fun fd => ?_
  exact iff_of_false (h fd) List.not_mem_nil

/-- Two descriptors on the root, one of which is closed and taken again. -/
theorem descriptors_disciplined_rootTmpfs :
    Guarded descriptorNext Disciplined ⟨rootTmpfs, []⟩
      [.open newPath 0, .open newPath 1, .close 0, .read 0 4, .open newPath 2, .lseek 1 8 0] := by
  refine descriptors_disciplined rootTmpfs (fun fd hopen => ?_) _
  cases hopen.2.2

end SynapseKernel.Fs
