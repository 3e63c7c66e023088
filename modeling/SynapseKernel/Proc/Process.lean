import SynapseKernel.Lib.Ring
import SynapseKernel.Lib.Search
import SynapseKernel.Mm.BlockHeap
import SynapseKernel.Proc.Task
import SynapseKernel.Str.CString

/-! # Process management (kernel/proc/process.c)

The processes are a ring threaded through `next` and `prev` of their control
blocks, and blocks are named as in `Kheap.BlockHeap`, with `0` for `NULL`. A
function that reads through `NULL` or does not leave its loop has no result. What
goes to the console is left out, and so are the contents of page directories and
stacks and the register `cr3`. -/
namespace SynapseKernel.Process
open SynapseKernel.Word SynapseKernel.Kheap SynapseKernel.Ring SynapseKernel.Search
open SynapseKernel.Str (CString)
open SynapseKernel.Proc (PageDir pageDirectorySize)

/-- `process_state_t`. -/
inductive ProcessState
  | running
  | ready
  | blocked
  | zombie
  | terminated
deriving DecidableEq, Repr

/-- `scheduler_type_t`. -/
inductive SchedulerType
  | roundRobin
  | priority
  | fcfs
deriving DecidableEq, Repr

/-- What `strcpy` can put into `char name[32]` without running over its end. -/
structure ProcessName where
  text : CString
  fits : text.bytes.length ≤ 31

/-- `"kernel"`. -/
def kernelName : ProcessName := ⟨⟨[107, 101, 114, 110, 101, 108], by decide⟩, by decide⟩

/-- `pcb_t` but for its links. -/
structure Pcb where
  pid : Nat
  state : ProcessState
  name : ProcessName
  esp : Nat
  ebp : Nat
  pageDir : PageDir
  priority : Nat
  ticks : Nat

/-- A record after `memset(process, 0, sizeof(pcb_t))`; `0` is `PROCESS_RUNNING`. -/
def Pcb.zero : Pcb :=
  { pid := 0, state := .running, name := ⟨⟨[], by decide⟩, by decide⟩, esp := 0, ebp := 0
    pageDir := .null, priority := 0, ticks := 0 }

/-- `sizeof(pcb_t)`. -/
abbrev pcbSize : Nat := 72

abbrev stackSize : Nat := 8192

/-- The statics of process.c, the control blocks and the heap they are on. -/
structure Procs where
  heap : BlockHeap
  pcb : Nat → Pcb
  next : Nat → Nat
  prev : Nat → Nat
  currentProcess : Nat
  processList : Nat
  nextPid : Nat
  currentScheduler : SchedulerType

/-- The statics as the program is loaded. -/
def Procs.boot (heap : BlockHeap) : Procs :=
  { heap, pcb := fun _ => .zero, next := fun _ => 0, prev := fun _ => 0, currentProcess := 0
    processList := 0, nextPid := 1, currentScheduler := .roundRobin }

/-- An assignment to fields of `*process` other than its links. -/
def Procs.modify (s : Procs) (process : Nat) (f : Pcb → Pcb) : Procs :=
  { s with pcb := Function.update s.pcb process (f (s.pcb process)) }

/-- `memset(process, 0, sizeof(pcb_t))`. -/
def Procs.clear (s : Procs) (process : Nat) : Procs :=
  { s.modify process fun _ => .zero with
    next := Function.update s.next process 0
    prev := Function.update s.prev process 0 }

/-! ## The list -/

def addProcessToList (s : Procs) (process : Nat) : Procs :=
  if s.processList = 0 then
    { s with
      processList := process
      next := Function.update s.next process process
      prev := Function.update s.prev process process }
  else
    let next := Function.update s.next process s.processList
    let prev := Function.update s.prev process (s.prev s.processList)
    let next := Function.update next (prev s.processList) process
    let prev := Function.update prev s.processList process
    { s with next := next, prev := prev }

def removeProcessFromList (s : Procs) (process : Nat) : Procs :=
  if s.next process = process then { s with processList := 0 }
  else
    let next := Function.update s.next (s.prev process) (s.next process)
    let prev := Function.update s.prev (next process) (s.prev process)
    { s with
      next := next
      prev := prev
      processList := if s.processList = process then next process else s.processList }

/-! ## Creating processes -/

/-- An early return leaves `process_list` and `current_process` at `NULL`. -/
def initProcessManagement (s : Procs) : Procs :=
  let (kernelProcess, heap) := s.heap.kmalloc pcbSize
  if kernelProcess = 0 then { s with heap := heap }
  else
    let s := ({ s with heap := heap }.clear kernelProcess).modify kernelProcess fun p =>
      { p with
        pid := 0, state := .running, name := kernelName, pageDir := .kernel, priority := 10
        ticks := 0 }
    addProcessToList { s with currentProcess := kernelProcess } kernelProcess

/-- `entry_point` is not read. -/
def createProcess (s : Procs) (name : ProcessName) (priority : Nat) : Nat × Procs :=
  let (process, heap) := s.heap.kmalloc pcbSize
  if process = 0 then (0, { s with heap := heap })
  else
    let s := { s with heap := heap, nextPid := u32 (s.nextPid + 1) }.clear process |>.modify process
      fun p => { p with pid := s.nextPid, state := .ready, name, priority, ticks := 0 }
    let (pageDir, heap) := s.heap.kmalloc pageDirectorySize
    let s := { s with heap := heap }.modify process fun p => { p with pageDir := .heap pageDir }
    if pageDir = 0 then (0, { s with heap := heap.kfree process })
    else
      let (stack, heap) := s.heap.kmalloc stackSize
      if stack = 0 then (0, { s with heap := (heap.kfree pageDir).kfree process })
      else
        let esp := u32 (heap.addr stack + 8192)
        let s := { s with heap := heap }.modify process fun p => { p with esp := esp, ebp := esp }
        (process, addProcessToList s process)

/-! ## Scheduling -/

/-- The stores of `switch_process` find these values in `esp` and `ebp`. -/
def switchProcess (s : Procs) (nextProcess esp ebp : Nat) : Option Procs :=
  if nextProcess = 0 ∨ s.currentProcess = nextProcess then some s
  else if s.currentProcess = 0 then none
  else
    some { s.modify s.currentProcess fun p => { p with esp := esp, ebp := ebp } with
      currentProcess := nextProcess }

/-- The loop of the round robin from `process` on, `none` if it takes more rounds
than `fuel`. -/
def nextReady (s : Procs) : Nat → Nat → Option Nat
  | 0, _ => none
  | fuel + 1, process =>
    if (s.pcb process).state ≠ .ready ∧ process ≠ s.currentProcess then
      nextReady s fuel (s.next process)
    else some process

/-- The body of the loop over all priorities, which has no early return. -/
def higherPriority (s : Procs) (highest process : Nat) : Except Empty Nat :=
  if (s.pcb process).state = .ready ∧
      (highest = 0 ∨ (s.pcb process).priority < (s.pcb highest).priority) then .ok process
  else .ok highest

/-- The process `schedule` goes for, looked for with one round for every block of
the heap. -/
def chooseProcess (s : Procs) : Option Nat :=
  match s.currentScheduler with
  | .roundRobin =>
    if s.currentProcess = 0 then none
    else nextReady s s.heap.requests (s.next s.currentProcess)
  | .priority =>
    match walk (higherPriority s) s.next s.processList s.heap.requests s.processList 0 with
    | some (.ok highest) => some highest
    | none => none
  | .fcfs =>
    if s.currentProcess = 0 then none
    else nextReady s s.heap.requests (s.next s.currentProcess)

def schedule (s : Procs) (esp ebp : Nat) : Option Procs :=
  if s.processList = 0 then some s
  else
    match chooseProcess s with
    | none => none
    | some next =>
      if next ≠ 0 ∧ (s.pcb next).state = .ready ∧ next ≠ s.currentProcess then
        switchProcess s next esp ebp
      else some s

def setSchedulerType (s : Procs) (type : SchedulerType) : Procs :=
  { s with currentScheduler := type }

/-! ## Terminating processes -/

/-- The first process of the list with this pid is returned as the `error`. -/
def findProcess (s : Procs) (pid : Nat) : Option (Except Nat Unit) :=
  if s.processList = 0 then none
  else
    walk (search fun p => (s.pcb p).pid = pid) s.next s.processList s.heap.requests s.processList ()

/-- `kfree(process->page_dir)`, but for the kernel's. -/
def freePageDir (s : Procs) (process : Nat) : Procs :=
  match (s.pcb process).pageDir with
  | .kernel => s
  | .heap pageDir => if pageDir = 0 then s else { s with heap := s.heap.kfree pageDir }

/-- What is done to the process that is found. -/
def endProcess (s : Procs) (process : Nat) : Procs :=
  let s := s.modify process fun p => { p with state := .terminated }
  let s := freePageDir s process
  let s := removeProcessFromList s process
  { s with heap := s.heap.kfree process }

def terminateProcess (s : Procs) (pid : Nat) : Option Procs :=
  if pid = 0 then some s
  else
    match findProcess s pid with
    | none => none
    | some (.error process) => some (endProcess s process)
    | some (.ok ()) => some s

/-! ## The operations together -/

inductive ProcOp
  | create (name : ProcessName) (priority : Nat)
  | terminate (pid : Nat)
  | schedule (esp ebp : Nat)
  | setScheduler (type : SchedulerType)

/-- An operation without a result is not carried out. -/
def procStep (s : Procs) : ProcOp → Procs
  | .create name priority => (createProcess s name priority).2
  | .terminate pid => (terminateProcess s pid).getD s
  | .schedule esp ebp => (Process.schedule s esp ebp).getD s
  | .setScheduler type => setSchedulerType s type

end SynapseKernel.Process
