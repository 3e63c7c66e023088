import SynapseKernel.Loader.ElfLoad
import SynapseKernel.Mm.PageMap
import SynapseKernel.Proc.Executor
import SynapseKernel.Proc.Mmap
import SynapseKernel.Proc.PriorityDispatch
import SynapseKernel.Proc.UserHeap

/-! # System calls (kernel/syscall.c, kernel/table.S)

The dispatcher and its table over the whole state that the handlers share. Handlers
read the record of the current task without a test for `NULL`: `none` is such an
access. In a run from a successful `sched_init` of system calls, timer ticks and
confirmed actions there is none (`kernelRun_safe`), as long as the state is all that the
steps change: a read of the keyboard, which stores through a register, and a second
`kfree` of a page directory are no steps of these runs (`Followed`). -/
namespace SynapseKernel.Proc
open SynapseKernel.Word SynapseKernel.Kheap SynapseKernel.Loader SynapseKernel.Runs
open SynapseKernel.Str

/-- The scheduler, the page tables, the loader and the calls of `kwrite` so far,
newest first. The heap is the scheduler's. -/
structure Kernel where
  sched : Sched
  paging : Paging.State
  loader : LoadState
  written : List (Nat × Nat)

/-- What a handler gets from outside: the registers where `switch_to` is called, the
result of `keyboard_read`, the string at a user address, and the first 31 bytes of a
path as a name. -/
structure SyscallEnv where
  cpu : RegsContext
  keyboardRead : Nat → Nat → Nat
  path : Nat → CString
  nameOf : CString → TaskName

/-- The result is a word; `none` is an access through `NULL`. -/
abbrev SyscallHandler := SyscallEnv → Kernel → Regs → Option (Nat × Kernel)

/-! ## The handlers -/

def sysExitHandler (env : SyscallEnv) (s : Sched) (_regs : Regs) : Option (Nat × Sched) :=
  (taskExit s env.cpu).map fun s => (0, s)

def sysWaitHandler : SyscallHandler := fun _ k _ => some (0, k)

def sysWriteHandler : SyscallHandler := fun _ k regs =>
  if regs.ebx = 1 then some (regs.edx, { k with written := (regs.ecx, regs.edx) :: k.written })
  else some (2 ^ 32 - 1, k)

/-- `keyboard_read` also stores the event, three bytes, at the address in `ecx`; the state
here has no bytes to store it in (`KernelOp.ReadsKeyboard`). -/
def sysReadHandler : SyscallHandler := fun env k regs =>
  if regs.ebx = 0 then some (env.keyboardRead regs.ecx regs.edx, k) else some (2 ^ 32 - 1, k)

def sysOpenHandler : SyscallHandler := fun _ k _ => some (1, k)

def sysCloseHandler : SyscallHandler := fun _ k _ => some (0, k)

/-- `sys_sbrk_handler` on the current task's record. -/
def sysSbrk (s : Sched) (regs : Regs) : Option (Nat × Sched) :=
  if s.currentTask = 0 then none
  else
    let served := sysSbrkHandler (s.tcb s.currentTask) regs.ebx
    some (served.1, s.modify s.currentTask fun _ => served.2)

/-- `sys_sleep_handler` up to its loop, the rounds of which are steps of their own. -/
def sysSleepHandler (s : Sched) (regs : Regs) : Option (Nat × Sched) :=
  (sleepStart s regs).map fun started => (0, started.2)

def sysExecveHandler (readers : ReadCall → FileReader) : SyscallHandler := fun env k regs =>
  let path := env.path regs.ebx
  let load := elfLoad readers { k.loader with heap := k.sched.heap } path
  let k := { k with loader := load.2.2, sched := { k.sched with heap := load.2.2.heap } }
  if load.1 < 0 then some (2 ^ 32 - 1, k)
  else if k.sched.currentTask = 0 then none
  else
    let s := k.sched.modify k.sched.currentTask fun t =>
      { t with name := env.nameOf path, regs := { t.regs with eip := load.2.1.getD 0 } }
    some (0, { k with sched := s })

def onSched (handler : SyscallEnv → Sched → Regs → Option (Nat × Sched)) : SyscallHandler :=
  fun env k regs =>
    (handler env k.sched regs).map fun served => (served.1, { k with sched := served.2 })

def onPaging (handler : Paging.State → Regs → Nat × Paging.State) : SyscallHandler :=
  fun _ k regs =>
    let served := handler k.paging regs
    some (served.1, { k with paging := served.2 })

/-! ## The dispatcher -/

abbrev maxSyscalls : Nat := 12

def syscallTable : List SyscallHandler :=
  [onSched sysExitHandler, onSched fun _ => sysForkHandler, sysWaitHandler, sysWriteHandler,
    sysReadHandler, sysOpenHandler, sysCloseHandler, onPaging Paging.sysMmapHandler,
    onPaging Paging.sysMunmapHandler, onSched fun _ => sysSbrk, onSched fun _ => sysSleepHandler,
    sysExecveHandler fun _ => vfsRead]

/-- The registers the interrupted code goes on with, and the state. -/
def syscallHandler (env : SyscallEnv) (k : Kernel) (regs : Regs) : Option (Regs × Kernel) :=
  let syscallNum := regs.eax
  if maxSyscalls ≤ syscallNum then some ({ regs with eax := 2 ^ 32 - 1 }, k)
  else
    match syscallTable[syscallNum]? with
    | some handler =>
      (handler env k regs).map fun served => ({ regs with eax := served.1 }, served.2)
    | none => some ({ regs with eax := 2 ^ 32 - 1 }, k)

/-- What happens to the kernel. -/
inductive KernelOp
  | syscall (regs : Regs) (env : SyscallEnv)
  | tick (regs : Regs) (cpu : RegsContext)
  | create (entry : Nat) (name : TaskName) (priority : Nat)
  | execute (action : AiAction) (answer : Char) (cpu : RegsContext)
  | sleepRound (endTicks : Nat) (cpu : RegsContext)

def kernelStep (k : Kernel) : KernelOp → Option Kernel
  | .syscall regs env => (syscallHandler env k regs).map Prod.snd
  | .tick regs cpu => some { k with sched := timerInterruptHandler k.sched regs cpu }
  | .create entry name priority =>
    some { k with sched := (createTask k.sched entry name priority).2 }
  | .execute action answer cpu =>
    (executeAction k.sched action answer cpu).map fun s => { k with sched := s }
  | .sleepRound endTicks cpu =>
    (sleepRound k.sched endTicks cpu).map fun s => { k with sched := s }

/-- A system call that stores what `keyboard_read` found through `ecx`. -/
def KernelOp.ReadsKeyboard : KernelOp → Prop
  | .syscall regs _ => regs.eax = 4 ∧ regs.ebx = 0
  | _ => False

/-- The state says all that the step does: nothing is stored at an address of the caller's,
and no directory is freed a second time. -/
structure Followed (k : Kernel) (op : KernelOp) : Prop where
  stores : ¬ op.ReadsKeyboard
  frees : ∀ k', kernelStep k op = some k' → k'.sched.freedDirs.Nodup

theorem Followed.of_step {k k' : Kernel} {op : KernelOp} (he : kernelStep k op = some k')
    (hr : ¬ op.ReadsKeyboard) (hn : k'.sched.freedDirs.Nodup) : Followed k op := by
  refine ⟨hr, fun k₁ h₁ => ?_⟩
  rwa [← Option.some.inj (he.symm.trans h₁)]

/-! ## A task is always running -/

variable {s s' : Sched} {q : Nat → List Nat} {k : Kernel} {env : SyscallEnv} {regs : Regs}
  {cpu : RegsContext}

/-- The queues are in order and there is a current task. -/
structure Occupied (s : Sched) : Prop where
  sound : Sound s
  current : s.currentTask ≠ 0

theorem Occupied.keep (h : Occupied s) (hs : Sound s') (hc : s'.currentTask = s.currentTask) :
    Occupied s' :=
  ⟨hs, hc ▸ h.current⟩

/-- A task that is put back is in a queue when the scan starts, and one that is not
stays current when the scan finds nothing. -/
theorem Occupied.schedule (h : Occupied s) (cpu : RegsContext) : Occupied (schedule s cpu) := by
  refine ⟨h.sound.schedule cpu, ?_⟩
  obtain ⟨q, hinv, hon⟩ := h.sound
  rcases afterSlice_cases hinv h.current hon with ⟨-, -, -, h₁⟩ | ⟨-, hgo, h₁⟩
  · rcases schedule_cases h.current h₁ cpu with ⟨p, t, rest, hq, -, he⟩ | ⟨hempty, -⟩
    · obtain ⟨-, hcur, hne, -⟩ := highest_popped h₁ hq he
      rwa [hcur]
    · have hback := hempty (s.tcb s.currentTask).priority
      rw [Function.update_self] at hback
      cases hback
  · rcases schedule_cases h.current h₁ cpu with ⟨p, t, rest, hq, -, he⟩ | ⟨-, he | hr⟩
    · obtain ⟨-, hcur, hne, -⟩ := highest_popped h₁ hq he
      rwa [hcur]
    · rw [he, currentTask_dispatch]
      exact Nat.succ_ne_zero _
    · rw [hr.currentTask, hgo]
      exact h.current

theorem currentTask_releaseCurrent (s : Sched) : (releaseCurrent s).currentTask = s.currentTask := by
  rcases releaseCurrent_cases s with ⟨-, he⟩ | ⟨b, -, -, he⟩
  · rw [he]
    rfl
  · rw [he]
    rfl

theorem Occupied.taskExit (h : Occupied s) (cpu : RegsContext) :
    ∃ s', taskExit s cpu = some s' ∧ Occupied s' := by
  refine ⟨_, if_neg h.current, Occupied.schedule (h.keep ?_ ?_) cpu⟩
  · exact h.sound.releaseCurrent h.current
  · exact currentTask_releaseCurrent s

theorem Occupied.create (h : Occupied s) (entry : Nat) (name : TaskName) (priority : Nat) :
    Occupied (createTask s entry name priority).2 := by
  refine h.keep (h.sound.create entry name priority) ?_
  rcases createTask_cases s entry name priority with ⟨-, -, hc⟩ | ⟨-, -, hr⟩
  · rw [hc]
    rfl
  · exact hr.currentTask

theorem Occupied.fork (h : Occupied s) (regs : Regs) :
    ∃ r, sysForkHandler s regs = some r ∧ Occupied r.2 := by
  have hstep := h.sound.fork regs
  cases hr : sysForkHandler s regs with
  | none =>
    simp only [sysForkHandler, if_neg h.current] at hr
    split at hr <;> cases hr
  | some r =>
    have hsched : schedStep s (.fork regs) = r.2 := by
      simp only [schedStep, hr, Option.map_some, Option.getD_some]
    refine ⟨r, rfl, h.keep (hsched ▸ hstep) ?_⟩
    rw [← hsched]
    rcases fork_cases h.sound h.current regs with ⟨-, he⟩ | ⟨-, hr⟩
    · rw [he]
      rfl
    · exact hr.currentTask

theorem Occupied.setTaskState (h : Occupied s) (t : Nat) (state : TaskState) :
    Occupied (setTaskState s t state) :=
  h.keep (h.sound.setTaskState t state) rfl

theorem Occupied.setFoundState (h : Occupied s) (pid : Nat) (state : TaskState) :
    ∃ s', setFoundState s pid state = some s' ∧ Occupied s' := by
  rcases setFoundState_cases h.sound pid state with ⟨t, -, -, he⟩ | ⟨-, he⟩
  · exact ⟨_, he, h.setTaskState t state⟩
  · exact ⟨s, he, h⟩

theorem Occupied.execute (h : Occupied s) (action : AiAction) (c : Char) (cpu : RegsContext) :
    ∃ s', executeAction s action c cpu = some s' ∧ Occupied s' := by
  rw [executeAction]
  cases action.type with
  | alert => exact ⟨s, rfl, h⟩
  | kill =>
    by_cases hc : Confirms c
    · simp only [if_pos hc, if_neg h.current]
      split
      · exact h.taskExit cpu
      · exact h.setFoundState action.pid .zombie
    · exact ⟨s, if_neg hc, h⟩
  | pause =>
    by_cases hc : Confirms c
    · simp only [if_pos hc]
      exact h.setFoundState action.pid .blocked
    · exact ⟨s, if_neg hc, h⟩
  | resume =>
    by_cases hc : Confirms c
    · simp only [if_pos hc]
      exact h.setFoundState action.pid .ready
    · exact ⟨s, if_neg hc, h⟩

/-! ## Every handler -/

/-- With a task running the handler comes to its end, and a task is running then. -/
def Safe (handler : SyscallHandler) : Prop :=
  ∀ env k regs, Occupied k.sched → ∃ r, handler env k regs = some r ∧ Occupied r.2.sched

theorem safe_onSched {handler : SyscallEnv → Sched → Regs → Option (Nat × Sched)}
    (h : ∀ env s regs, Occupied s → ∃ r, handler env s regs = some r ∧ Occupied r.2) :
    Safe (onSched handler) := by
  intro env k regs hk
  obtain ⟨r, he, hr⟩ := h env k.sched regs hk
  exact ⟨(r.1, { k with sched := r.2 }), by rw [onSched, he]; rfl, hr⟩

theorem safe_onPaging (handler : Paging.State → Regs → Nat × Paging.State) :
    Safe (onPaging handler) :=
  fun _ _ _ hk => ⟨_, rfl, hk⟩

theorem Occupied.exit (h : Occupied s) (env : SyscallEnv) (regs : Regs) :
    ∃ r, sysExitHandler env s regs = some r ∧ Occupied r.2 := by
  obtain ⟨s', he, h'⟩ := h.taskExit env.cpu
  exact ⟨(0, s'), by rw [sysExitHandler, he]; rfl, h'⟩

theorem inert_sysSbrkHandler (increment : Nat) :
    Inert (fun t => (sysSbrkHandler t increment).2) ∧
      ∀ t, (sysSbrkHandler t increment).2.pageDir = t.pageDir := by
  have hheap : ∀ t, (withHeap t).siblingNext = t.siblingNext ∧
      (withHeap t).priority = t.priority ∧ (withHeap t).timeSlice = t.timeSlice ∧
      (withHeap t).pageDir = t.pageDir := by
    intro t
    rw [withHeap]
    split <;> exact ⟨rfl, rfl, rfl, rfl⟩
  have hserved : ∀ t, (sysSbrkHandler t increment).2.siblingNext = t.siblingNext ∧
      (sysSbrkHandler t increment).2.priority = t.priority ∧
      (sysSbrkHandler t increment).2.timeSlice = t.timeSlice ∧
      (sysSbrkHandler t increment).2.pageDir = t.pageDir := by
    intro t
    rw [sysSbrkHandler_eq]
    split <;> exact hheap t
  exact ⟨⟨fun t => (hserved t).1, fun t => (hserved t).2.1, fun t => (hserved t).2.2.1⟩,
    fun t => (hserved t).2.2.2⟩

theorem Occupied.sbrk (h : Occupied s) (regs : Regs) :
    ∃ r, sysSbrk s regs = some r ∧ Occupied r.2 := by
  obtain ⟨hinert, hdir⟩ := inert_sysSbrkHandler regs.ebx
  have hmod : Sound (s.modify s.currentTask fun t => (sysSbrkHandler t regs.ebx).2) :=
    h.sound.modify hinert fun hm b hb => (h.sound.fit hm).dir b ((hdir _).symm.trans hb)
  exact ⟨_, if_neg h.current, h.keep hmod rfl⟩

theorem Occupied.sleep (h : Occupied s) (regs : Regs) :
    ∃ r, sysSleepHandler s regs = some r ∧ Occupied r.2 := by
  refine ⟨(0, Proc.setTaskState s s.currentTask .blocked), ?_, h.setTaskState _ _⟩
  rw [sysSleepHandler, sleepStart, if_neg h.current]
  rfl

/-- With the stub of `vfs_read` no program is ever found. -/
theorem sysExecveHandler_vfsRead (env : SyscallEnv) (k : Kernel) (regs : Regs) :
    sysExecveHandler (fun _ => vfsRead) env k regs =
      some (2 ^ 32 - 1, { k with loader := { k.loader with heap := k.sched.heap } }) := by
  rw [sysExecveHandler, elfLoad_vfsRead]
  rfl

/-- **Every entry of the table** is safe. -/
theorem safe_syscallTable {handler : SyscallHandler} (h : handler ∈ syscallTable) :
    Safe handler := by
  simp only [syscallTable, List.mem_cons, List.not_mem_nil, or_false] at h
  rcases h with rfl | rfl | rfl | rfl | rfl | rfl | rfl | rfl | rfl | rfl | rfl | rfl
  · exact safe_onSched fun env s regs h => h.exit env regs
  · exact safe_onSched fun _ s regs h => h.fork regs
  · exact fun _ _ _ hk => ⟨_, rfl, hk⟩
  · intro _ k regs hk
    rw [sysWriteHandler]
    split
    · exact ⟨_, rfl, hk⟩
    · exact ⟨_, rfl, hk⟩
  · intro _ k regs hk
    rw [sysReadHandler]
    split
    · exact ⟨_, rfl, hk⟩
    · exact ⟨_, rfl, hk⟩
  · exact fun _ _ _ hk => ⟨_, rfl, hk⟩
  · exact fun _ _ _ hk => ⟨_, rfl, hk⟩
  · exact safe_onPaging _
  · exact safe_onPaging _
  · exact safe_onSched fun _ s regs h => h.sbrk regs
  · exact safe_onSched fun _ s regs h => h.sleep regs
  · exact fun env k regs hk => ⟨_, sysExecveHandler_vfsRead env k regs, hk⟩

theorem Occupied.syscall (h : Occupied k.sched) (env : SyscallEnv) (regs : Regs) :
    ∃ r, syscallHandler env k regs = some r ∧ Occupied r.2.sched := by
  rw [syscallHandler]
  by_cases hnum : maxSyscalls ≤ regs.eax
  · exact ⟨_, if_pos hnum, h⟩
  · simp only [if_neg hnum]
    cases hentry : syscallTable[regs.eax]? with
    | none => exact ⟨_, rfl, h⟩
    | some handler =>
      obtain ⟨r, he, hr⟩ := safe_syscallTable (List.mem_of_getElem? hentry) env k regs h
      refine ⟨({ regs with eax := r.1 }, r.2), ?_, hr⟩
      simp only [he, Option.map_some]

theorem Occupied.step (h : Occupied k.sched) (op : KernelOp) :
    ∃ k', kernelStep k op = some k' ∧ Occupied k'.sched := by
  cases op with
  | syscall regs env =>
    obtain ⟨r, he, hr⟩ := h.syscall env regs
    exact ⟨r.2, by rw [kernelStep, he]; rfl, hr⟩
  | tick regs cpu =>
    refine ⟨_, rfl, Occupied.schedule (h.keep (h.sound.atInterrupt regs) ?_) cpu⟩
    exact (sameQueues_atInterrupt _ _).currentTask
  | create entry name priority => exact ⟨_, rfl, h.create entry name priority⟩
  | execute action answer cpu =>
    obtain ⟨s', he, h'⟩ := h.execute action answer cpu
    exact ⟨{ k with sched := s' }, by rw [kernelStep, he]; rfl, h'⟩
  | sleepRound endTicks cpu =>
    rw [kernelStep, Proc.sleepRound, if_neg h.current]
    split
    · exact ⟨_, rfl, h.schedule cpu⟩
    · exact ⟨_, rfl, h.setTaskState _ _⟩

/-! ## Runs -/

/-- **No access through `NULL`.** From a `sched_init` that succeeds every run of system
calls with any numbers and registers, timer ticks, creations, confirmed actions and
rounds of sleeping tasks goes through, if its steps are followed; the ready queues are in
order after it, and a task that was created is current. -/
theorem kernelRun_safe {heap : BlockHeap} (hs : heap.Sane) (idleEntry initEntry : Nat)
    (k : Kernel) (hk : k.sched = schedInit (.boot heap idleEntry initEntry))
    (hok : k.sched.currentTask ≠ 0) (ops : List KernelOp) (hg : GuardedM kernelStep Followed k ops) :
    ∃ k', ops.foldlM kernelStep k = some k' ∧ Sound k'.sched ∧
      k'.sched.currentTask ≠ 0 ∧ k'.sched.currentTask ∈ k'.sched.created := by
  have hboot : Occupied k.sched := ⟨hk ▸ .schedInit hs idleEntry initEntry, hok⟩
  obtain ⟨k', he, h⟩ := hg.progress (fun k => Occupied k.sched) (fun _ op h _ => h.step op) hboot
  exact ⟨k', he, h.sound, h.current, h.sound.current h.current⟩

def startedKernel : Kernel :=
  { sched := schedInit (.boot grantingHeap 0 0), paging := Paging.freshPaging
    loader := emptyState, written := [] }

/-- The registers of a system call without arguments. -/
def callNumber (num : Nat) : Regs := ⟨num, 0, 0, 0, 0, 0, 0, 0, 0, 0, 0, 0, 0, 0, 0, 0⟩

def plainEnv : SyscallEnv :=
  ⟨.zero, fun _ _ => 0, fun _ => Fs.slashPath, fun _ => ⟨"forked", forked_fits⟩⟩

/-- A tick, a fork, an exit and an unknown number. -/
theorem kernelRun_safe_four :
    ∃ k', [KernelOp.tick (callNumber 0) .zero, .syscall (callNumber 1) plainEnv,
        .syscall (callNumber 0) plainEnv, .syscall (callNumber 12) plainEnv].foldlM kernelStep
          startedKernel = some k' ∧ Sound k'.sched ∧
      k'.sched.currentTask ≠ 0 ∧ k'.sched.currentTask ∈ k'.sched.created := by
  refine kernelRun_safe sane_grantingHeap 0 0 startedKernel rfl (by decide) _ ?_
  have hcall : ∀ num ≠ 4, ¬ (KernelOp.syscall (callNumber num) plainEnv).ReadsKeyboard :=
    fun _ hn h => hn h.1
  refine .cons (.of_step rfl not_false (by decide)) rfl ?_
  refine .cons (.of_step rfl (hcall 1 (by decide)) (by decide)) rfl ?_
  refine .cons (.of_step rfl (hcall 0 (by decide)) (by decide)) rfl ?_
  exact .cons (.of_step rfl (hcall 12 (by decide)) (by decide)) rfl trivial

end SynapseKernel.Proc
