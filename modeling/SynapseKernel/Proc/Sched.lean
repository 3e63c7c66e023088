import SynapseKernel.Mm.BlockHeap
import SynapseKernel.Proc.Task

/-! # The scheduler (kernel/proc/sched.c)

The ready queues are threaded through `sibling_next`, newest task first. Where
`switch_to` is called the register file at the call is an argument; what the
switch does to the records is `savedRegs` (`switchTo_saves`). -/
namespace SynapseKernel.Proc
open SynapseKernel.Word SynapseKernel.Kheap

/-- The statics of sched.c, the task records and the heap they are on. The last
three fields are not in the source: the tasks created so far, the tasks that
called `task_exit`, and the page directories passed to `kfree`. -/
structure Sched where
  heap : BlockHeap
  tcb : Nat → Task
  readyQueue : Nat → Nat
  currentTask : Nat
  nextPid : Nat
  systemTicks : Nat
  idleEntry : Nat
  initEntry : Nat
  created : List Nat
  exited : List Nat
  freedDirs : List Nat

/-- The statics as the program is loaded. -/
def Sched.boot (heap : BlockHeap) (idleEntry initEntry : Nat) : Sched :=
  { heap, idleEntry, initEntry, tcb := fun _ => .zero, readyQueue := fun _ => 0, currentTask := 0,
    nextPid := 1, systemTicks := 0, created := [], exited := [], freedDirs := [] }

/-- An assignment to fields of `*task`. -/
def Sched.modify (s : Sched) (task : Nat) (f : Task → Task) : Sched :=
  { s with tcb := Function.update s.tcb task (f (s.tcb task)) }

/-- `kfree(task->page_dir)`. -/
def kfreePageDir (s : Sched) (pageDir : Nat) : Sched :=
  { s with heap := s.heap.kfree pageDir, freedDirs := pageDir :: s.freedDirs }

/-! ## Creating tasks -/

def createIdleTask (s : Sched) : Nat × Sched :=
  let (idleTask, heap) := s.heap.kmalloc taskSize
  if idleTask = 0 then (0, { s with heap := heap })
  else
    let s := { s with heap := heap }.modify idleTask fun _ =>
      { Task.zero with
        pid := 0, state := .ready, priority := 0, pageDir := .kernel, timeSlice := taskTimeSlice
        totalRuntime := 0, lastScheduled := 0, memoryUsageKb := 4, name := ⟨"idle", idle_fits⟩ }
    let (kernelStack, heap) := s.heap.kmalloc kernelStackSize
    if kernelStack = 0 then (0, { s with heap := heap.kfree idleTask })
    else
      let stackTop := u32 (heap.addr kernelStack + 4096)
      let s := { s with heap := heap }.modify idleTask fun t =>
        { t with kernelStackTop := stackTop, regs := initialContext s.idleEntry stackTop }
      (idleTask, { s with created := idleTask :: s.created })

def createTask (s : Sched) (entry : Nat) (name : TaskName) (priority : Nat) : Nat × Sched :=
  if maxPriority ≤ priority then (0, s)
  else
    let (task, heap) := s.heap.kmalloc taskSize
    if task = 0 then (0, { s with heap := heap })
    else
      let s := { s with heap := heap, nextPid := u32 (s.nextPid + 1) }.modify task fun _ =>
        { Task.zero with
          pid := s.nextPid, state := .ready, priority := priority, timeSlice := taskTimeSlice
          totalRuntime := 0, lastScheduled := 0, memoryUsageKb := 8, name := name }
      let (pageDir, heap) := s.heap.kmalloc pageDirectorySize
      let s := { s with heap := heap }.modify task fun t => { t with pageDir := .heap pageDir }
      if pageDir = 0 then (0, { s with heap := heap.kfree task })
      else
        let (kernelStack, heap) := s.heap.kmalloc kernelStackSize
        if kernelStack = 0 then
          let s := kfreePageDir { s with heap := heap } pageDir
          (0, { s with heap := s.heap.kfree task })
        else
          let stackTop := u32 (heap.addr kernelStack + 4096)
          let s := { s with heap := heap }.modify task fun t =>
            { t with
              kernelStackTop := stackTop, regs := initialContext entry stackTop
              parent := s.currentTask, siblingNext := s.readyQueue priority }
          (task, { s with
            readyQueue := Function.update s.readyQueue priority task
            created := task :: s.created })

/-- An early return leaves `current_task` as it was, `NULL` on the first call. -/
def schedInit (s : Sched) : Sched :=
  let s := { s with readyQueue := fun _ => 0 }
  let (idleTask, s) := createIdleTask s
  if idleTask = 0 then s
  else
    let s := { s with readyQueue := Function.update s.readyQueue 0 idleTask }
    let (initTask, s) := createTask s s.initEntry ⟨"init", init_fits⟩ 5
    if initTask = 0 then s
    else
      { s with readyQueue := Function.update s.readyQueue 5 initTask, currentTask := idleTask }

/-! ## Scheduling -/

/-- The current task pays for the time it ran. -/
def chargeCurrent (s : Sched) : Sched :=
  s.modify s.currentTask fun t =>
    { t with totalRuntime := u32 (t.totalRuntime + 1), timeSlice := sub32 t.timeSlice 1 }

/-- The end of a time slice: the current task goes back to its queue. -/
def requeueCurrent (s : Sched) : Sched :=
  let task := s.currentTask
  let s := s.modify task fun t =>
    { t with
      state := .ready, timeSlice := taskTimeSlice, siblingNext := s.readyQueue t.priority }
  { s with
    readyQueue := Function.update s.readyQueue (s.tcb task).priority task, currentTask := 0 }

/-- The first task of the highest nonempty queue below `n`, taken off it. -/
def popReady : Nat → Sched → Nat × Sched
  | 0, s => (0, s)
  | i + 1, s =>
    let next := s.readyQueue i
    if next ≠ 0 then
      (next, { s with readyQueue := Function.update s.readyQueue i (s.tcb next).siblingNext }.modify
        next fun t => { t with siblingNext := 0 })
    else popReady i s

/-- What `switch_to(old_task, next_task)` does to the records. -/
def switchRecords (s : Sched) (cpu : RegsContext) (old : Nat) : Sched :=
  if old = 0 then s
  else s.modify old fun t =>
    { t with heapEnd := cpu.edi, regs := savedRegs cpu (s.heap.addr old) t.regs }

def dispatch (s : Sched) (cpu : RegsContext) (next : Nat) : Sched :=
  let s := s.modify next fun t => { t with state := .running, lastScheduled := 0 }
  if s.currentTask ≠ next then switchRecords { s with currentTask := next } cpu s.currentTask
  else s

/-- `time_slice` is unsigned, so the test `time_slice <= 0` is for `0`. -/
def schedule (s : Sched) (cpu : RegsContext) : Sched :=
  if s.currentTask = 0 then s
  else
    let s := chargeCurrent s
    let s := if (s.tcb s.currentTask).timeSlice = 0 then requeueCurrent s else s
    let (next, s) := popReady maxPriority s
    if next ≠ 0 then dispatch s cpu next
    else
      let (idle, s) := createIdleTask s
      if idle = 0 then s else dispatch s cpu idle

/-- The current task becomes a zombie and its page directory is freed. -/
def releaseCurrent (s : Sched) : Sched :=
  let s := { s.modify s.currentTask fun t => { t with state := .zombie } with
    exited := s.currentTask :: s.exited }
  match (s.tcb s.currentTask).pageDir with
  | .kernel => s
  | .heap pageDir => if pageDir = 0 then s else kfreePageDir s pageDir

/-- `NULL` is dereferenced when there is no current task. -/
def taskExit (s : Sched) (cpu : RegsContext) : Option Sched :=
  if s.currentTask = 0 then none else some (schedule (releaseCurrent s) cpu)

/-- The registers the handler copies. -/
def saveInterrupted (s : Sched) (regs : Regs) : Sched :=
  if s.currentTask ≠ 0 ∧ (s.tcb s.currentTask).state = .running then
    s.modify s.currentTask fun t =>
      { t with
        regs := { t.regs with
          eax := regs.eax, ebx := regs.ebx, ecx := regs.ecx, edx := regs.edx, edi := regs.edi
          esi := regs.esi, ebp := regs.ebp, esp := regs.esp, eip := regs.eip
          eflags := regs.eflags } }
  else s

def timerInterruptHandler (s : Sched) (regs : Regs) (cpu : RegsContext) : Sched :=
  schedule (saveInterrupted { s with systemTicks := u32 (s.systemTicks + 1) } regs) cpu

/-! ## fork (kernel/syscall.c) -/

/-- What the child gets from the parent's record and the registers of the call. -/
def inherit (parent : Task) (regs : Regs) (child : Task) : Task :=
  { child with
    regs := { RegsContext.copy regs with eax := 0 }
    pageDir := parent.pageDir, heapStart := parent.heapStart, heapEnd := parent.heapEnd
    memoryUsageKb := parent.memoryUsageKb, userStackTop := parent.userStackTop }

/-- The result is the child's pid, or `-1`; the current task's record is read
without a test for `NULL`. -/
def sysForkHandler (s : Sched) (regs : Regs) : Option (Nat × Sched) :=
  if s.currentTask = 0 then none
  else
    let parent := s.tcb s.currentTask
    let (child, s) := createTask s regs.eip ⟨"forked", forked_fits⟩ parent.priority
    if child = 0 then some (2 ^ 32 - 1, s)
    else
      let s := s.modify child (inherit parent regs)
      some ((s.tcb child).pid, s)

end SynapseKernel.Proc
