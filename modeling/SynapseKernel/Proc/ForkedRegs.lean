import SynapseKernel.Proc.SchedRuns

/-! # The registers of a forked child

`sys_fork_handler` copies `struct regs` word by word, so the child has its
parent's registers under the names `regs_context_t` gives to the same offsets. -/
namespace SynapseKernel.Proc
open SynapseKernel.Kheap

variable {s s' : Sched} {regs : Regs} {pid child : Nat}

/-- Each register but `eax` has the value of the register of the same name. -/
structure SameRegisters (saved : RegsContext) (regs : Regs) : Prop where
  edi : saved.edi = regs.edi
  esi : saved.esi = regs.esi
  ebp : saved.ebp = regs.ebp
  esp : saved.esp = regs.esp
  ebx : saved.ebx = regs.ebx
  edx : saved.edx = regs.edx
  ecx : saved.ecx = regs.ecx
  eip : saved.eip = regs.eip
  eflags : saved.eflags = regs.eflags
  cs : saved.cs = regs.cs
  ds : saved.ds = regs.ds
  es : saved.es = regs.es
  fs : saved.fs = regs.fs
  gs : saved.gs = regs.gs
  ss : saved.ss = regs.ss

/-- The registers that share an offset, in one record or the other, agree. -/
structure OffsetsAgree (regs : Regs) : Prop where
  eax_edi : regs.eax = regs.edi
  edi_edx : regs.edi = regs.edx
  edx_esp : regs.edx = regs.esp
  ebx_esi : regs.ebx = regs.esi
  ecx_ebp : regs.ecx = regs.ebp

/-- The copy, with `eax` set apart, against the names. -/
theorem sameRegisters_copy_iff (regs : Regs) :
    SameRegisters { RegsContext.copy regs with eax := 0 } regs ↔ OffsetsAgree regs := by
  constructor
  · intro h
    exact ⟨h.edi, h.edx, h.esp, h.esi, h.ebp⟩
  · intro h
    exact
      { edi := h.eax_edi, esi := h.ebx_esi, ebp := h.ecx_ebp, esp := h.edx_esp
        ebx := h.ebx_esi.symm, edx := h.edi_edx, ecx := h.ecx_ebp.symm, eip := rfl, eflags := rfl
        cs := rfl, ds := rfl, es := rfl, fs := rfl, gs := rfl, ss := rfl }

/-- A fork that made a child gave it the copied registers. -/
theorem sysForkHandler_regs (h : sysForkHandler s regs = some (pid, s'))
    (hchild : s'.created = child :: s.created) :
    (s'.tcb child).regs = { RegsContext.copy regs with eax := 0 } := by
  by_cases h0 : s.currentTask = 0
  · rw [sysForkHandler, if_pos h0] at h
    cases h
  simp only [sysForkHandler, if_neg h0] at h
  rcases createTask_cases s regs.eip ⟨"forked", forked_fits⟩ (s.tcb s.currentTask).priority with
    ⟨-, -, hc⟩ | ⟨-, hnull, hr⟩
  · rw [hc] at h
    simp only [if_neg (Nat.succ_ne_zero _), Option.some.injEq, Prod.mk.injEq] at h
    obtain ⟨-, rfl⟩ := h
    obtain rfl : s.heap.requests + 1 = child := (List.cons.inj hchild).1
    simp only [Sched.modify, Function.update_self, inherit]
  · simp only [if_pos hnull, Option.some.injEq, Prod.mk.injEq] at h
    obtain ⟨-, rfl⟩ := h
    -- a refused creation adds no task
    rw [hr.created] at hchild
    exact absurd hchild (List.cons_ne_self _ _).symm

/-- **The registers of a fork.** The child resumes with the parent's registers if and
only if the parent's registers at swapped offsets happen to be equal. -/
theorem sysForkHandler_sameRegisters_iff (s s' : Sched) (regs : Regs) (pid child : Nat)
    (h : sysForkHandler s regs = some (pid, s')) (hchild : s'.created = child :: s.created) :
    SameRegisters (s'.tcb child).regs regs ∧ (s'.tcb child).regs.eax = 0 ↔ OffsetsAgree regs := by
  rw [sysForkHandler_regs h hchild, sameRegisters_copy_iff]
  exact and_iff_left rfl

/-- A program that has made a system call with `1` in `ebx`. -/
def interruptedRegs : Regs :=
  { eax := 2, ebx := 1, ecx := 0, edx := 2, esi := 0, edi := 2, ebp := 0, esp := 2, eip := 0x1000
    eflags := 0x202, cs := 0x1b, ds := 0x23, es := 0x23, fs := 0x23, gs := 0x23, ss := 0x23 }

/-- The state after the idle task forks right after `sched_init`. -/
def idleForked : Sched :=
  schedStep (schedInit (.boot grantingHeap 0 0)) (.fork interruptedRegs)

theorem sysForkHandler_sameRegisters_iff_idle :
    SameRegisters (idleForked.tcb 6).regs interruptedRegs ∧ (idleForked.tcb 6).regs.eax = 0 ↔
      OffsetsAgree interruptedRegs :=
  sysForkHandler_sameRegisters_iff (schedInit (.boot grantingHeap 0 0)) idleForked _ 2 6 rfl rfl

/-- The child finds the `1` in `esi`. -/
theorem forked_registers_swapped :
    ¬ ∀ (s s' : Sched) (regs : Regs) (pid child : Nat),
      sysForkHandler s regs = some (pid, s') → s'.created = child :: s.created →
        SameRegisters (s'.tcb child).regs regs ∧ (s'.tcb child).regs.eax = 0 := by
  intro h
  have hsame := (h (schedInit (.boot grantingHeap 0 0)) idleForked interruptedRegs 2 6 rfl rfl).1
  exact absurd hsame.esi (by decide)

end SynapseKernel.Proc
