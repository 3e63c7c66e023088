import SynapseKernel.Lib.X86
import SynapseKernel.Proc.Regs

/-! # The context switch (kernel/proc/switch.asm)

The code addresses the fields of `task_t` by number. Its numbers place the
saved registers at offset 28 and the page directory at 24; the record has them
at 32 and 12. Every register of the old task is therefore saved one field too
early, and what is loaded into CR3 is the start of the new task's heap. -/
namespace SynapseKernel.Proc
open SynapseKernel.Word SynapseKernel.ByteMemory SynapseKernel.X86

/-! ## The record, as the C compiler lays it out -/

abbrev pageDirOffset : Nat := 12
abbrev regsOffset : Nat := 32
abbrev timeSliceOffset : Nat := 96
abbrev taskSize : Nat := 156

/-- `task->regs`. -/
def regsAt (m : Mem) (task : Nat) : RegsContext :=
  let word (i : Nat) := read32 m (task + regsOffset + 4 * i)
  { edi := word 0, esi := word 1, ebp := word 2, esp := word 3, ebx := word 4, edx := word 5,
    ecx := word 6, eax := word 7, eip := word 8, eflags := word 9, cs := word 10, ds := word 11,
    es := word 12, fs := word 13, gs := word 14, ss := word 15 }

/-! ## The code -/

def saveContextCode : List Instr :=
  [.movStore .eax 28 .edi, .movStore .eax 32 .esi, .movStore .eax 36 .ebp, .movStore .eax 40 .esp,
   .movStore .eax 44 .ebx, .movStore .eax 48 .edx, .movStore .eax 52 .ecx, .movStore .eax 56 .eax,
   .movLoad .ecx .esp 0, .movStore .eax 60 .ecx,
   .pushfd, .pop .ecx, .movStore .eax 64 .ecx,
   .movStoreSeg .eax 68 .cs, .movStoreSeg .eax 72 .ds, .movStoreSeg .eax 76 .es,
   .movStoreSeg .eax 80 .fs, .movStoreSeg .eax 84 .gs, .movStoreSeg .eax 88 .ss]

def restoreContextCode : List Instr :=
  [.movLoad .eax .esp 8,
   .movLoad .ecx .eax 24, .movCr3 .ecx,
   .movLoad .edi .eax 28, .movLoad .esi .eax 32, .movLoad .ebp .eax 36, .movLoad .ebx .eax 44,
   .movLoad .edx .eax 48, .movLoad .ecx .eax 52, .movLoad .eax .eax 56,
   .movLoadSeg .ds .eax 72, .movLoadSeg .es .eax 76, .movLoadSeg .fs .eax 80,
   .movLoadSeg .gs .eax 84, .movLoadSeg .ss .eax 88,
   .pushMem .eax 88, .pushMem .eax 40, .pushMem .eax 64, .pushMem .eax 68, .pushMem .eax 60,
   .iret]

/-- `switch_to`: nothing is saved when `old_task` is `NULL`. -/
def switchToCode : List Instr :=
  [.movLoad .eax .esp 4, .test .eax .eax, .jz saveContextCode.length] ++
    (saveContextCode ++ restoreContextCode)

def switchTo (m : Machine) : Machine := exec 0 switchToCode m

/-! ## What it is for -/

/-- A call `switch_to(a, b)` about to execute its first instruction: the return
address and the two arguments are on the stack, and the stack, down to the
twenty bytes the code pushes, and the two records do not overlap. -/
structure SwitchCall (m : Machine) (a b : Nat) : Prop where
  words : ∀ r, m.reg r < 2 ^ 32
  oldTask : read32 m.mem (m.reg .esp + 4) = a
  newTask : read32 m.mem (m.reg .esp + 8) = b
  nonNull : a ≠ 0 ∧ b ≠ 0
  fits : a + taskSize ≤ 2 ^ 32 ∧ b + taskSize ≤ 2 ^ 32 ∧ m.reg .esp + 12 ≤ 2 ^ 32 ∧ 20 ≤ m.reg .esp
  apart : a + taskSize ≤ b ∨ b + taskSize ≤ a
  stackOld : m.reg .esp + 12 ≤ a ∨ a + taskSize ≤ m.reg .esp - 20
  stackNew : m.reg .esp + 12 ≤ b ∨ b + taskSize ≤ m.reg .esp - 20

/-- The machine `m'` is what switching from `a` to `b` is to make of `m`: the
registers at the call are saved in `a->regs` and nothing else of the two
records changes, and the processor resumes with `b->page_dir` and `b->regs`.
Of a saved selector only the sixteen bits that are stored count. -/
structure Switched (m m' : Machine) (a b : Nat) : Prop where
  general : let r := regsAt m'.mem a
    [r.edi, r.esi, r.ebp, r.esp, r.ebx, r.edx, r.ecx, r.eax] =
      [.edi, .esi, .ebp, .esp, .ebx, .edx, .ecx, .eax].map m.reg
  returnAddress : (regsAt m'.mem a).eip = read32 m.mem (m.reg .esp)
  flags : (regsAt m'.mem a).eflags = m.eflags
  selectors : let r := regsAt m'.mem a
    [r.cs, r.ds, r.es, r.fs, r.gs, r.ss].map (· % 2 ^ 16) =
      [.cs, .ds, .es, .fs, .gs, .ss].map m.seg
  oldFrame : ∀ x, a ≤ x → x < a + taskSize → x < a + regsOffset ∨ a + timeSliceOffset ≤ x →
    m'.mem x = m.mem x
  newFrame : ∀ x, b ≤ x → x < b + taskSize → m'.mem x = m.mem x
  pageDir : m'.cr3 = read32 m.mem (b + pageDirOffset)
  resumed : let r := regsAt m.mem b
    [.edi, .esi, .ebp, .esp, .ebx, .edx, .ecx, .eax].map m'.reg =
      [r.edi, r.esi, r.ebp, r.esp, r.ebx, r.edx, r.ecx, r.eax] ∧
    m'.eip = r.eip ∧ m'.eflags = r.eflags ∧
    [.cs, .ds, .es, .fs, .gs, .ss].map m'.seg =
      [r.cs, r.ds, r.es, r.fs, r.gs, r.ss].map (· % 2 ^ 16)

/-! ## What saving does -/

/-- The register file at the call; `eip` is the return address. -/
def cpuAt (m : Machine) : RegsContext :=
  { edi := m.reg .edi, esi := m.reg .esi, ebp := m.reg .ebp, esp := m.reg .esp, ebx := m.reg .ebx,
    edx := m.reg .edx, ecx := m.reg .ecx, eax := m.reg .eax, eip := read32 m.mem (m.reg .esp),
    eflags := m.eflags, cs := m.seg .cs, ds := m.seg .ds, es := m.seg .es, fs := m.seg .fs,
    gs := m.seg .gs, ss := m.seg .ss }

/-- A word whose low half was overwritten with a selector. -/
def withSelector (word sel : Nat) : Nat := word / 2 ^ 16 * 2 ^ 16 + sel % 2 ^ 16

/-- The `regs` of the task at `task` after a switch away from it: each register
is in the field before its own, `edi` has gone to `heap_end`, and `ecx` gets the
pointer that `eax` held by then. -/
def savedRegs (cpu : RegsContext) (task : Nat) (old : RegsContext) : RegsContext :=
  { edi := cpu.esi, esi := cpu.ebp, ebp := cpu.esp, esp := cpu.ebx, ebx := cpu.edx,
    edx := cpu.ecx, ecx := task, eax := cpu.eip, eip := logicFlags cpu.eflags task % 2 ^ 32,
    eflags := withSelector old.eflags cpu.cs, cs := withSelector old.cs cpu.ds,
    ds := withSelector old.ds cpu.es, es := withSelector old.es cpu.fs,
    fs := withSelector old.fs cpu.gs, gs := withSelector old.gs cpu.ss, ss := old.ss }

/-- The stores of the saving half, in order. -/
def savedMem (m : Machine) (a : Nat) : Mem :=
  let mem := write32 m.mem (a + 28) (m.reg .edi)
  let mem := write32 mem (a + 32) (m.reg .esi)
  let mem := write32 mem (a + 36) (m.reg .ebp)
  let mem := write32 mem (a + 40) (m.reg .esp)
  let mem := write32 mem (a + 44) (m.reg .ebx)
  let mem := write32 mem (a + 48) (m.reg .edx)
  let mem := write32 mem (a + 52) (m.reg .ecx)
  let mem := write32 mem (a + 56) a
  let mem := write32 mem (a + 60) (read32 m.mem (m.reg .esp))
  let mem := write32 mem (m.reg .esp - 4) m.eflags
  let mem := write32 mem (a + 64) (m.eflags % 2 ^ 32)
  let mem := write16 mem (a + 68) (m.seg .cs)
  let mem := write16 mem (a + 72) (m.seg .ds)
  let mem := write16 mem (a + 76) (m.seg .es)
  let mem := write16 mem (a + 80) (m.seg .fs)
  let mem := write16 mem (a + 84) (m.seg .gs)
  write16 mem (a + 88) (m.seg .ss)

/-- The registers that are stored first, then the selectors, each at its offset. -/
def savedFields : List (Nat × Reg) :=
  [(28, .edi), (32, .esi), (36, .ebp), (40, .esp), (44, .ebx), (48, .edx), (52, .ecx), (56, .eax)]

def savedSelectors : List (Nat × SegReg) :=
  [(68, .cs), (72, .ds), (76, .es), (80, .fs), (84, .gs), (88, .ss)]

theorem saveContextCode_eq : saveContextCode =
    (savedFields.map fun op => Instr.movStore .eax op.1 op.2) ++
    ([.movLoad .ecx .esp 0, .movStore .eax 60 .ecx, .pushfd, .pop .ecx, .movStore .eax 64 .ecx] ++
    savedSelectors.map fun op => Instr.movStoreSeg .eax op.1 op.2) := rfl

section Save
variable {m : Machine} {a : Nat} (hfit : a + 156 ≤ 2 ^ 32) (hesp : m.reg .esp + 12 ≤ 2 ^ 32)
  (hlow : 20 ≤ m.reg .esp) (hstack : m.reg .esp + 12 ≤ a ∨ a + 156 ≤ m.reg .esp - 20)
include hfit hesp hlow hstack

omit hstack in
/-- The return address and the flags go through `ecx`. -/
theorem foldl_saveReturn (ha : m.reg .eax = a) :
    [.movLoad .ecx .esp 0, .movStore .eax 60 .ecx, .pushfd, .pop .ecx,
        .movStore .eax 64 .ecx].foldl step m =
      { m with
        mem := write32 (write32 (write32 m.mem (a + 60) (read32 m.mem (m.reg .esp)))
          (m.reg .esp - 4) m.eflags) (a + 64) (m.eflags % 2 ^ 32)
        reg := Function.update m.reg .ecx (m.eflags % 2 ^ 32) } := by
  have hne : Reg.esp ≠ Reg.ecx := by decide
  simp (disch := omega) only [List.foldl, step, Machine.operand, Machine.setReg, Machine.push, ha,
    Function.update, reduceCtorEq, dite_false, dite_true, u32_of_lt, sub32_of_le,
    Nat.sub_add_cancel, Nat.add_zero, read32_write32]
  -- `esp` is back where it was
  rw [Function.update_idem, Function.update_comm hne, Function.update_idem,
    ← Function.update_comm hne, Function.update_eq_self]

/-- Running the saving half with the old task in `eax`. -/
theorem foldl_saveContextCode (ha : m.reg .eax = a) :
    saveContextCode.foldl step m =
      { m with mem := savedMem m a, reg := Function.update m.reg .ecx (m.eflags % 2 ^ 32) } := by
  have hfields : ∀ op ∈ savedFields, op.1 < 156 := by decide
  have hselectors : ∀ op ∈ savedSelectors, op.1 < 156 := by decide
  set m₁ := { m with mem := storeRegs m.reg a savedFields m.mem } with hm₁
  set m₂ := { m₁ with
    mem := write32 (write32 (write32 m₁.mem (a + 60) (read32 m₁.mem (m.reg .esp)))
      (m.reg .esp - 4) m.eflags) (a + 64) (m.eflags % 2 ^ 32)
    reg := Function.update m.reg .ecx (m.eflags % 2 ^ 32) } with hm₂
  have hret : read32 m₁.mem (m.reg .esp) = read32 m.mem (m.reg .esp) := by
    simp (disch := omega) only [hm₁, storeRegs, savedFields, List.foldl, read32_write32_ne]
  calc saveContextCode.foldl step m
      = (savedSelectors.map fun op => Instr.movStoreSeg .eax op.1 op.2).foldl step m₂ := by
        rw [saveContextCode_eq, List.foldl_append, List.foldl_append,
          foldl_movStore ha fun op hop => by have := hfields op hop; omega]
        exact congrArg (List.foldl step · _) (foldl_saveReturn (m := m₁) hfit hesp hlow ha)
    _ = { m₂ with mem := storeSegs m.seg a savedSelectors m₂.mem } :=
        @foldl_movStoreSeg .eax m₂ a savedSelectors ha fun op hop => by
          have := hselectors op hop
          omega
    _ = { m with mem := savedMem m a, reg := Function.update m.reg .ecx (m.eflags % 2 ^ 32) } := by
        rw [hm₂]
        simp only [hret]
        simp only [hm₁, storeRegs, storeSegs, savedFields, savedSelectors, savedMem, List.foldl, ha]

/-- The saved registers as C code reads them. -/
theorem regsAt_savedMem (hwords : ∀ r, m.reg r < 2 ^ 32) (ha : m.reg .eax = a) :
    read32 (savedMem m a) (a + 28) = m.reg .edi ∧
    regsAt (savedMem m a) a =
      { edi := m.reg .esi, esi := m.reg .ebp, ebp := m.reg .esp, esp := m.reg .ebx,
        ebx := m.reg .edx, edx := m.reg .ecx, ecx := a, eax := read32 m.mem (m.reg .esp),
        eip := m.eflags % 2 ^ 32
        eflags := withSelector (regsAt m.mem a).eflags (m.seg .cs)
        cs := withSelector (regsAt m.mem a).cs (m.seg .ds)
        ds := withSelector (regsAt m.mem a).ds (m.seg .es)
        es := withSelector (regsAt m.mem a).es (m.seg .fs)
        fs := withSelector (regsAt m.mem a).fs (m.seg .gs)
        gs := withSelector (regsAt m.mem a).gs (m.seg .ss)
        ss := (regsAt m.mem a).ss } := by
  have hret := read32_lt m.mem (m.reg .esp)
  have hmod : ∀ r, m.reg r % 2 ^ 32 = m.reg r := fun r => Nat.mod_eq_of_lt (hwords r)
  simp (disch := omega) only [savedMem, regsAt, regsOffset, Nat.add_assoc, Nat.reduceMul,
    Nat.reduceAdd, read32_write32_ne, read32_write16_ne, read32_write32, read32_write16,
    Nat.mod_eq_of_lt, hmod, withSelector, and_self]

end Save

/-- Saving touches `heap_end` and `regs` of the old task and the word below the stack. -/
theorem savedMem_frame {m : Machine} {a x : Nat} (hlow : 20 ≤ m.reg .esp)
    (hx : x < a + 28 ∨ a + 90 ≤ x) (hx' : x < m.reg .esp - 4 ∨ m.reg .esp ≤ x) :
    savedMem m a x = m.mem x := by
  have h32 : ∀ (mem : Mem) (p v : Nat), x < p ∨ p + 4 ≤ x → write32 mem p v x = mem x :=
    fun _ _ _ h => writeLE_frame h
  have h16 : ∀ (mem : Mem) (p v : Nat), x < p ∨ p + 2 ≤ x → write16 mem p v x = mem x :=
    fun _ _ _ h => writeLE_frame h
  simp (disch := omega) only [savedMem, h32, h16]

/-! ## The whole switch -/

theorem restoreContextCode_eq : restoreContextCode = restoreContextCode.take 15 ++
    ([(.eax, 88), (.eax, 40), (.eax, 64), (.eax, 68), (.eax, 60)].map
      fun op => Instr.pushMem op.1 op.2) ++ [.iret] := rfl

/-- The restoring half writes only the twenty bytes below the stack. -/
theorem foldl_restoreContextCode {m : Machine} (hesp : m.reg .esp < 2 ^ 32)
    (hlow : 20 ≤ m.reg .esp) {x : Nat} (hx : x < m.reg .esp - 20 ∨ m.reg .esp ≤ x) :
    (restoreContextCode.foldl step m).mem x = m.mem x := by
  obtain ⟨hmem, hsp⟩ := @foldl_quiet (restoreContextCode.take 15) (by decide) m
  rw [restoreContextCode_eq, List.foldl_append, List.foldl_append]
  have hiret : ∀ n : Machine, ([Instr.iret].foldl step n).mem = n.mem := iret_mem
  rw [hiret, foldl_pushMem (by omega) (by rw [hsp]; exact hlow) (by rw [hsp]; exact hx), hmem]

/-- The machine once the old task is in `eax` and tested. -/
def tested (m : Machine) (a : Nat) : Machine :=
  { m.setReg .eax a with eflags := logicFlags m.eflags a }

/-- The machine once the old task is saved. -/
def saved (m : Machine) (a : Nat) : Machine :=
  { tested m a with
    mem := savedMem (tested m a) a
    reg := Function.update (tested m a).reg .ecx (logicFlags m.eflags a % 2 ^ 32) }

theorem switchTo_eq {m : Machine} {a b : Nat} (h : SwitchCall m a b) :
    switchTo m = restoreContextCode.foldl step (saved m a) := by
  obtain ⟨hfit, -, hesp, hlow⟩ := h.fits
  have hstraight : ∀ i ∈ saveContextCode ++ restoreContextCode, i.straight = true := by decide
  have hprologue : [.movLoad .eax .esp 4, .test .eax .eax].foldl step m = tested m a := by
    have hold : read32 m.mem (u32 (m.reg .esp + 4)) = a := by
      rw [u32_of_lt (by omega), h.oldTask]
    simp only [List.foldl, step, Machine.operand, hold, tested, Machine.setReg, Function.update_self,
      Nat.and_self]
  have hzero : zeroFlag (tested m a).eflags = false := by
    rw [tested, zeroFlag_logicFlags]
    exact decide_eq_false h.nonNull.1
  calc switchTo m
      = exec 0 (.jz saveContextCode.length :: (saveContextCode ++ restoreContextCode))
          (tested m a) := by
        rw [← hprologue]
        exact @exec_straight [.movLoad .eax .esp 4, .test .eax .eax] (by decide) _ m
    _ = exec 0 (saveContextCode ++ restoreContextCode) (tested m a) := by
        rw [exec, hzero]
        rfl
    _ = (saveContextCode ++ restoreContextCode).foldl step (tested m a) := by
        have hrun := exec_straight hstraight [] (tested m a)
        rwa [List.append_nil] at hrun
    _ = restoreContextCode.foldl step (saved m a) := by
        rw [List.foldl_append, foldl_saveContextCode (m := tested m a) hfit hesp hlow h.stackOld rfl]
        rfl

/-- A record is read from its own bytes. -/
theorem regsAt_congr {m m' : Mem} {task : Nat}
    (h : ∀ x, task ≤ x → x < task + taskSize → m' x = m x) : regsAt m' task = regsAt m task := by
  have hword : ∀ k, k + 4 ≤ 156 → read32 m' (task + k) = read32 m (task + k) := fun k hk =>
    readLE_congr fun x hx hx' => h x (by omega) (by simp only [taskSize]; omega)
  simp (disch := omega) only [regsAt, regsOffset, Nat.add_assoc, Nat.reduceMul, Nat.reduceAdd, hword]

/-- **What a switch saves.** After `switch_to(a, b)` the old task's `heap_end`
holds `edi` and its `regs` every other register one field early. -/
theorem switchTo_saves {m : Machine} {a b : Nat} (h : SwitchCall m a b) :
    read32 (switchTo m).mem (a + 28) = (cpuAt m).edi ∧
      regsAt (switchTo m).mem a = savedRegs (cpuAt m) a (regsAt m.mem a) := by
  obtain ⟨hfit, -, hesp, hlow⟩ := h.fits
  have hstack := h.stackOld
  have hkept : ∀ x, a ≤ x → x < a + taskSize → (switchTo m).mem x = (saved m a).mem x := by
    intro x hx hx'
    rw [switchTo_eq h]
    have hsp : (saved m a).reg .esp = m.reg .esp := rfl
    exact foldl_restoreContextCode (by rw [hsp]; omega) (by rw [hsp]; omega) (by rw [hsp]; omega)
  have hwords : ∀ r, (tested m a).reg r < 2 ^ 32 := by
    intro r
    by_cases hr : r = .eax
    · rw [hr]
      simp only [tested, Machine.setReg, Function.update_self]
      simp only [taskSize] at hfit
      omega
    · simp only [tested, Machine.setReg, Function.update_of_ne hr]
      exact h.words r
  obtain ⟨hend, hregs⟩ := regsAt_savedMem (m := tested m a) hfit hesp hlow hstack hwords rfl
  refine ⟨?_, ?_⟩
  · refine Eq.trans ?_ hend
    exact readLE_congr fun x hx hx' => hkept x (by omega) (by simp only [taskSize]; omega)
  · rw [regsAt_congr hkept]
    exact hregs

/-- Of the two records only `heap_end` and `regs` of the old task change. -/
theorem switchTo_frame {m : Machine} {a b : Nat} (h : SwitchCall m a b) {x : Nat}
    (hx : x < a + 28 ∨ a + 90 ≤ x) (hx' : x < m.reg .esp - 20 ∨ m.reg .esp ≤ x) :
    (switchTo m).mem x = m.mem x := by
  obtain ⟨-, -, hesp, hlow⟩ := h.fits
  have hsp : (saved m a).reg .esp = m.reg .esp := rfl
  have hsp' : (tested m a).reg .esp = m.reg .esp := rfl
  rw [switchTo_eq h, foldl_restoreContextCode (by rw [hsp]; omega) (by rw [hsp]; omega)
    (by rw [hsp]; exact hx')]
  exact savedMem_frame (m := tested m a) (by rw [hsp']; exact hlow) hx (by rw [hsp']; omega)

/-- Saving every register in its own field would make the stack pointer the
address of the record. -/
theorem not_switched {m : Machine} {a b : Nat} (h : SwitchCall m a b) :
    ¬ Switched m (switchTo m) a b := by
  intro hs
  have hgeneral := hs.general
  rw [(switchTo_saves h).2] at hgeneral
  simp only [savedRegs, cpuAt, List.map_cons, List.map_nil, List.cons.injEq, and_true] at hgeneral
  have hstack := h.stackOld
  have hesp := h.fits
  simp only [taskSize] at hstack hesp
  omega

/-- **The context switch.** No call of `switch_to` with two tasks saves the old
one and resumes the new one as their records say. -/
theorem switchTo_not_switched (m : Machine) (a b : Nat) (h : SwitchCall m a b) :
    ¬ Switched m (switchTo m) a b := not_switched h

/-- A call with the stack at `0x1000` and the records at `0x2000` and `0x3000`. -/
def switchMachine : Machine :=
  { reg := fun r => if r = .esp then 0x1000 else 0, seg := fun _ => 0x10, eip := 0, eflags := 0x202,
    cr3 := 0
    mem := ofWords fun w => if w = 0x401 then 0x2000 else if w = 0x402 then 0x3000 else 0 }

theorem switchCall_switchMachine : SwitchCall switchMachine 0x2000 0x3000 := by
  refine ⟨fun r => ?_, read32_ofWords _ 0x401, read32_ofWords _ 0x402, by decide, ?_, ?_, ?_, ?_⟩
  · simp only [switchMachine]
    split <;> decide
  all_goals decide

theorem switchTo_not_switched_switchMachine :
    ¬ Switched switchMachine (switchTo switchMachine) 0x2000 0x3000 :=
  switchTo_not_switched _ _ _ switchCall_switchMachine

/-- A call with two separate records that is not carried out as they say. -/
theorem switchMachine_not_switched : SwitchCall switchMachine 0x2000 0x3000 ∧
    ¬ Switched switchMachine (switchTo switchMachine) 0x2000 0x3000 :=
  ⟨switchCall_switchMachine, not_switched switchCall_switchMachine⟩

end SynapseKernel.Proc
