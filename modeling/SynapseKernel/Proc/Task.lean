import Mathlib.Logic.Function.Basic
import SynapseKernel.Proc.Switch

/-! # Task control blocks (kernel/include/proc/task.h)

A pointer to a task, a stack or a page directory is the number of the heap
block it points to, `0` for `NULL` (`Kheap.BlockHeap`). The one page directory
that is not on the heap is the kernel's. What stacks and directories hold is
left out. -/
namespace SynapseKernel.Proc

abbrev maxPriority : Nat := 16

/-- `TIME_SLICE`. -/
abbrev taskTimeSlice : Nat := 10

abbrev pageDirectorySize : Nat := 4096
abbrev kernelStackSize : Nat := 4096

/-- `task_state_t`. -/
inductive TaskState
  | running
  | ready
  | blocked
  | zombie
deriving DecidableEq, Repr

/-- What `strcpy` can put into `char name[32]` without running over its end. -/
structure TaskName where
  text : String
  fits : text.utf8ByteSize ≤ 31
deriving DecidableEq

theorem idle_fits : "idle".utf8ByteSize ≤ 31 := by decide
theorem init_fits : "init".utf8ByteSize ≤ 31 := by decide
theorem forked_fits : "forked".utf8ByteSize ≤ 31 := by decide

/-- A `page_directory_t*`. -/
inductive PageDir
  | kernel
  | heap (block : Nat)
deriving DecidableEq, Repr

def PageDir.null : PageDir := .heap 0

/-- `task_t`. -/
structure Task where
  pid : Nat
  state : TaskState
  priority : Nat
  pageDir : PageDir
  kernelStackTop : Nat
  userStackTop : Nat
  heapStart : Nat
  heapEnd : Nat
  regs : RegsContext
  timeSlice : Nat
  totalRuntime : Nat
  lastScheduled : Nat
  parent : Nat
  children : Nat
  siblingNext : Nat
  memoryUsageKb : Nat
  name : TaskName
deriving DecidableEq

def RegsContext.zero : RegsContext :=
  { edi := 0, esi := 0, ebp := 0, esp := 0, ebx := 0, edx := 0, ecx := 0, eax := 0, eip := 0,
    eflags := 0, cs := 0, ds := 0, es := 0, fs := 0, gs := 0, ss := 0 }

/-- A record after `memset(task, 0, sizeof(task_t))`; `0` is `TASK_RUNNING`. -/
def Task.zero : Task :=
  { pid := 0, state := .running, priority := 0, pageDir := .null, kernelStackTop := 0
    userStackTop := 0, heapStart := 0, heapEnd := 0, regs := .zero, timeSlice := 0
    totalRuntime := 0, lastScheduled := 0, parent := 0, children := 0, siblingNext := 0
    memoryUsageKb := 0, name := ⟨"", by decide⟩ }

/-- The context a new task starts with: interrupts on, kernel segments. -/
def initialContext (entry stackTop : Nat) : RegsContext :=
  { RegsContext.zero with
    eip := entry, eflags := 0x202, cs := 0x08, ds := 0x10, es := 0x10, fs := 0x10, gs := 0x10
    ss := 0x10, esp := stackTop }

end SynapseKernel.Proc
