/-! # Register records (kernel/include/proc/regs.h, task.h)

Two records hold the same sixteen registers in different orders: `struct regs`
is what a system call handler gets, `regs_context_t` what a task saves. Both
are sixteen words in memory, and `sys_fork_handler` copies one onto the other
word by word. -/
namespace SynapseKernel.Proc

/-- `struct regs`. -/
structure Regs where
  eax : Nat
  ebx : Nat
  ecx : Nat
  edx : Nat
  esi : Nat
  edi : Nat
  ebp : Nat
  esp : Nat
  eip : Nat
  eflags : Nat
  cs : Nat
  ds : Nat
  es : Nat
  fs : Nat
  gs : Nat
  ss : Nat
deriving DecidableEq, Repr

/-- `regs_context_t`. -/
structure RegsContext where
  edi : Nat
  esi : Nat
  ebp : Nat
  esp : Nat
  ebx : Nat
  edx : Nat
  ecx : Nat
  eax : Nat
  eip : Nat
  eflags : Nat
  cs : Nat
  ds : Nat
  es : Nat
  fs : Nat
  gs : Nat
  ss : Nat
deriving DecidableEq, Repr

/-- `memcpy(&child->regs, regs, sizeof(regs_context_t))`: word `i` of one record
becomes word `i` of the other, whatever the two call it. -/
def RegsContext.copy (r : Regs) : RegsContext :=
  { edi := r.eax, esi := r.ebx, ebp := r.ecx, esp := r.edx, ebx := r.esi, edx := r.edi,
    ecx := r.ebp, eax := r.esp, eip := r.eip, eflags := r.eflags, cs := r.cs, ds := r.ds,
    es := r.es, fs := r.fs, gs := r.gs, ss := r.ss }

end SynapseKernel.Proc
