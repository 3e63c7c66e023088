import SynapseKernel.Proc.DeadTasks
import SynapseKernel.Proc.Syscall
import SynapseKernel.Proc.TaskBlocks

/-! # Programs in user space (user-lib/crt0.s, user-lib/libc.c)

A program enters the kernel through the wrapper `syscall`, which loads the number and no
argument, and from `_start`, once `main` has returned. The number that `_start` loads for
the exit is 1, which is `SYS_fork`: a program that returns from `main` leaves a second task
and goes on (`main_returns_forks`). Only a call of `exit` ever ends one (`programs_last`). -/
namespace SynapseKernel.User
open SynapseKernel.Word SynapseKernel.Kheap SynapseKernel.Proc SynapseKernel.Runs

/-- The functions of the library that make a system call. -/
inductive LibCall
  | write
  | read
  | open
  | close
  | sbrk
  | sleep
  | exit
deriving DecidableEq

/-- What each hands to `syscall`. -/
def LibCall.num : LibCall → Nat
  | .exit => 0
  | .write => 3
  | .read => 4
  | .open => 5
  | .close => 6
  | .sbrk => 9
  | .sleep => 10

/-- `syscall(num, ...)` at `int $0x80`: the other registers are what the program left in them. -/
def LibCall.enter (f : LibCall) (regs : Regs) : Regs := { regs with eax := f.num }

/-- `_start` at `int $0x80`, from the registers with which `main` returned. -/
def startEnd (regs : Regs) : Regs := { regs with ebx := regs.eax, eax := 1 }

/-- What happens while programs run. -/
inductive UserOp
  | call (f : LibCall) (regs : Regs) (env : SyscallEnv)
  | mainReturns (regs : Regs) (env : SyscallEnv)
  | tick (regs : Regs) (cpu : RegsContext)
  | sleepRound (endTicks : Nat) (cpu : RegsContext)

def UserOp.kernelOp : UserOp → KernelOp
  | .call f regs env => .syscall (f.enter regs) env
  | .mainReturns regs env => .syscall (startEnd regs) env
  | .tick regs cpu => .tick regs cpu
  | .sleepRound endTicks cpu => .sleepRound endTicks cpu

def userStep (k : Kernel) (op : UserOp) : Option Kernel := kernelStep k op.kernelOp

/-- The operation is a call of `exit`. -/
def UserOp.Exits : UserOp → Prop
  | .call f _ _ => f = .exit
  | _ => False

def UserOp.Followed (k : Kernel) (op : UserOp) : Prop := Proc.Followed k op.kernelOp

variable {s s' : Sched} {k k' : Kernel} {w : Writes} {q : Nat → List Nat} {t n : Nat}
  {regs : Regs} {env : SyscallEnv}

/-! ## The calls in the table -/

theorem syscallHandler_entry {handler : SyscallHandler}
    (hentry : syscallTable[regs.eax]? = some handler) (he : handler env k regs = some (n, k')) :
    syscallHandler env k regs = some ({ regs with eax := n }, k') := by
  have hlt : ¬ maxSyscalls ≤ regs.eax :=
    Nat.not_le_of_lt (List.getElem?_eq_some_iff.mp hentry).1
  rw [syscallHandler]
  simp only [if_neg hlt, hentry, he, Option.map_some]

/-- The operation of the scheduler that a call stands for. -/
def LibCall.sched (f : LibCall) (regs : Regs) (env : SyscallEnv) (s : Sched) : Sched :=
  match f with
  | .exit => schedStep s (.exit env.cpu)
  | .sbrk => s.modify s.currentTask fun t => (sysSbrkHandler t regs.ebx).2
  | .sleep => setTaskState s s.currentTask .blocked
  | _ => s

theorem syscallHandler_enter (h : Occupied k.sched) (f : LibCall) (regs : Regs)
    (env : SyscallEnv) :
    ∃ n k', syscallHandler env k (f.enter regs) = some ({ regs with eax := n }, k') ∧
      k'.sched = f.sched regs env k.sched := by
  have h0 := h.current
  cases f with
  | write =>
    by_cases hfd : regs.ebx = 1
    · exact ⟨_, _, syscallHandler_entry rfl (if_pos hfd), rfl⟩
    · exact ⟨_, _, syscallHandler_entry rfl (if_neg hfd), rfl⟩
  | read =>
    by_cases hfd : regs.ebx = 0
    · exact ⟨_, _, syscallHandler_entry rfl (if_pos hfd), rfl⟩
    · exact ⟨_, _, syscallHandler_entry rfl (if_neg hfd), rfl⟩
  | «open» => exact ⟨_, _, syscallHandler_entry rfl rfl, rfl⟩
  | close => exact ⟨_, _, syscallHandler_entry rfl rfl, rfl⟩
  | sbrk =>
    have he : ∀ r : Regs, sysSbrk k.sched r = some _ := fun r => if_neg h0
    exact ⟨_, _, syscallHandler_entry rfl (congrArg (Option.map _) (he _)), rfl⟩
  | sleep =>
    have he : ∀ r : Regs, sleepStart k.sched r = some _ := fun r => if_neg h0
    exact ⟨_, _, syscallHandler_entry rfl
      (congrArg (Option.map _ ∘ Option.map _) (he _)), rfl⟩
  | exit =>
    obtain ⟨s', he, -⟩ := h.taskExit env.cpu
    refine ⟨_, _, syscallHandler_entry rfl
      (congrArg (Option.map _ ∘ Option.map _) he), ?_⟩
    simp only [LibCall.sched, schedStep, he, Option.getD_some]

/-! ## What stays -/

/-- No state that was ever written to a task is that of a zombie. -/
def Alive (s : Sched) : Prop := ∃ w, Follows s w ∧ ∀ x ∈ w, x.2 ≠ .zombie

theorem Alive.state (h : Alive s) (ht : t ∈ s.created) : (s.tcb t).state ≠ .zombie := by
  obtain ⟨w, hf, hw⟩ := h
  rw [hf.state t ht]
  cases hl : w.lookup t with
  | none => decide
  | some state =>
    obtain ⟨pre, post, rfl, -⟩ := List.lookup_eq_some_iff.mp hl
    exact hw (t, state) (List.mem_append_right pre List.mem_cons_self)

theorem Alive.keep (h : Alive s) (hc : s'.created = s.created)
    (ht : ∀ t ∈ s.created, (s'.tcb t).state = (s.tcb t).state) : Alive s' := by
  obtain ⟨w, hf, hw⟩ := h
  exact ⟨w, hf.keep hc ht, hw⟩

theorem ne_zombie_createWrites (s : Sched) (entry : Nat) (name : TaskName) (priority : Nat) :
    ∀ x ∈ createWrites s entry name priority, x.2 ≠ .zombie := by
  simp only [createWrites]
  split
  · exact List.forall_mem_nil _
  · exact List.forall_mem_singleton.mpr (by simp)

theorem ne_zombie_requeueWrites (s : Sched) : ∀ x ∈ requeueWrites s, x.2 ≠ .zombie := by
  simp only [requeueWrites]
  split
  · exact List.forall_mem_singleton.mpr (by simp)
  · exact List.forall_mem_nil _

theorem ne_zombie_scheduleWrites (s : Sched) : ∀ x ∈ scheduleWrites s, x.2 ≠ .zombie := by
  have hrequeue := ne_zombie_requeueWrites s
  simp only [scheduleWrites]
  split
  · exact List.forall_mem_nil _
  · split
    · exact List.forall_mem_cons.mpr ⟨by simp, hrequeue⟩
    · split
      · exact hrequeue
      · exact List.forall_mem_cons.mpr ⟨by simp, List.forall_mem_cons.mpr ⟨by simp, hrequeue⟩⟩

/-- Scheduling ends nobody. -/
theorem Alive.taskStep (h : Alive s) (hs : Sound s) (op : TaskOp)
    (hown : ∀ x ∈ ownWrites s op, x.2 ≠ .zombie) : Alive (taskStep s op) := by
  obtain ⟨w, hf, hw⟩ := h
  refine ⟨_, (lawful_taskWrites hs hf op).1, fun x hx => ?_⟩
  rcases List.mem_append.mp hx with hx | hx
  · rw [taskWrites] at hx
    rcases List.mem_append.mp hx with hx | hx
    · split at hx
      · exact ne_zombie_scheduleWrites _ x hx
      · cases hx
    · exact hown x hx
  · exact hw x hx

/-- Where no program has called `exit`. -/
structure Lasting (s : Sched) : Prop where
  occupied : Occupied s
  dirs : DirInv s
  exited : s.exited = []
  alive : Alive s

/-- Tasks stay, and blocks stay allocated. -/
structure Keeps (s s' : Sched) : Prop where
  created : ∀ t ∈ s.created, t ∈ s'.created
  live : ∀ b, s.heap.Live b → s'.heap.Live b

theorem Keeps.refl (s : Sched) : Keeps s s := ⟨fun _ => id, fun _ => id⟩

theorem Keeps.trans {s'' : Sched} (h : Keeps s s') (h' : Keeps s' s'') : Keeps s s'' :=
  ⟨fun t ht => h'.created t (h.created t ht), fun b hb => h'.live b (h.live b hb)⟩

theorem Keeps.of_continues (h : Continues s s') : Keeps s s' :=
  ⟨fun t ht => (h.kept t ht).1, fun b hb => (h.heap.live b hb.le).mpr hb⟩

theorem Lasting.continues (h : Lasting s) (hc : Continues s s') (ho : Occupied s')
    (ha : Alive s') : Lasting s' ∧ Keeps s s' := by
  obtain ⟨q, hi, -⟩ := h.occupied.sound
  exact ⟨⟨ho, h.dirs.continues hi hc, hc.exited.trans h.exited, ha⟩, .of_continues hc⟩

/-- A change to the record of a task that is neither its state nor its directory. -/
theorem Lasting.touches (h : Lasting s) (ht : Touches s s') (ho : Occupied s') (ha : Alive s') :
    Lasting s' ∧ Keeps s s' :=
  h.continues (.of_touches ht) ho ha

/-- No task has exited, so that the directory a child gets is allocated. -/
theorem Lasting.fork (h : Lasting s) (regs : Regs) : Continues s (schedStep s (.fork regs)) := by
  have h0 := h.occupied.current
  obtain ⟨q, hi, -⟩ := h.occupied.sound
  rcases fork_cases h.occupied.sound h0 regs with ⟨hg, he⟩ | ⟨-, hr⟩
  · have hm := h.occupied.sound.current h0
    rw [he]
    exact continues_forked hi hg (h.dirs.live _ hm (h.exited ▸ List.not_mem_nil)) regs
  · exact .of_refused hi hr

theorem state_sysSbrkHandler (task : Task) (increment : Nat) :
    (sysSbrkHandler task increment).2.state = task.state := by
  have hheap : (withHeap task).state = task.state := by
    rw [withHeap]
    split <;> rfl
  rw [sysSbrkHandler_eq]
  split <;> exact hheap

theorem Lasting.lib (h : Lasting s) {f : LibCall} (hf : f ≠ .exit)
    (ho : Occupied (f.sched regs env s)) :
    Lasting (f.sched regs env s) ∧ Keeps s (f.sched regs env s) := by
  cases f with
  | write => exact ⟨h, .refl s⟩
  | read => exact ⟨h, .refl s⟩
  | «open» => exact ⟨h, .refl s⟩
  | close => exact ⟨h, .refl s⟩
  | sbrk =>
    obtain ⟨hinert, hdir⟩ := inert_sysSbrkHandler regs.ebx
    have htouch : Touches s (LibCall.sbrk.sched regs env s) :=
      .modify fun x => ⟨hinert.priority x, hdir x⟩
    refine h.touches htouch ho (h.alive.keep htouch.created fun t _ => ?_)
    exact s.modify_field Task.state (fun x => state_sysSbrkHandler x regs.ebx) _ t
  | sleep =>
    have htouch : Touches s (setTaskState s s.currentTask .blocked) := .modify fun _ => ⟨rfl, rfl⟩
    have hblock : taskStep s (.sleep regs) = setTaskState s s.currentTask .blocked := by
      simp only [Proc.taskStep, sleepStart, if_neg h.occupied.current, Option.map_some,
        Option.getD_some]
    have ha : Alive (taskStep s (.sleep regs)) := by
      refine h.alive.taskStep h.occupied.sound _ ?_
      simp only [ownWrites, if_neg h.occupied.current]
      exact List.forall_mem_singleton.mpr (by simp)
    rw [hblock] at ha
    exact h.touches htouch ho ha
  | exit => exact absurd rfl hf

theorem Lasting.startEnd (h : Lasting s) (regs : Regs)
    (ho : Occupied (schedStep s (.fork (startEnd regs)))) :
    Lasting (schedStep s (.fork (startEnd regs))) ∧
      Keeps s (schedStep s (.fork (startEnd regs))) := by
  refine h.continues (h.fork _) ho ?_
  refine h.alive.taskStep h.occupied.sound (.sched (.fork (User.startEnd regs))) ?_
  simp only [ownWrites, if_neg h.occupied.current]
  exact ne_zombie_createWrites _ _ _ _

theorem Lasting.tick (h : Lasting s) (regs : Regs) (cpu : RegsContext)
    (ho : Occupied (timerInterruptHandler s regs cpu)) :
    Lasting (timerInterruptHandler s regs cpu) ∧
      Keeps s (timerInterruptHandler s regs cpu) := by
  refine h.continues (continues_tick h.occupied.sound regs cpu) ho ?_
  exact h.alive.taskStep h.occupied.sound (.sched (.tick regs cpu)) (List.forall_mem_nil _)

/-- A round of the loop of `sys_sleep_handler`. -/
theorem Lasting.sleepRound (h : Lasting s) {endTicks : Nat} {cpu : RegsContext}
    (hr : sleepRound s endTicks cpu = some s') (ho : Occupied s') :
    Lasting s' ∧ Keeps s s' := by
  have hstep : taskStep s (.sleepRound endTicks cpu) = s' := by
    rw [Proc.taskStep, hr, Option.getD_some]
  have ha : Alive s' := by
    rw [← hstep]
    refine h.alive.taskStep h.occupied.sound _ ?_
    simp only [ownWrites]
    split
    · exact List.forall_mem_nil _
    · exact List.forall_mem_singleton.mpr (by simp)
  simp only [Proc.sleepRound, if_neg h.occupied.current] at hr
  split at hr
  · obtain rfl := Option.some.inj hr
    exact h.continues (continues_schedule h.occupied.sound cpu) ho ha
  · obtain rfl := Option.some.inj hr
    exact h.touches (.modify fun _ => ⟨rfl, rfl⟩) ho ha

/-! ## The end of _start -/

/-- What a fork returns. -/
theorem sysForkHandler_cases (h : Sound s) (h0 : s.currentTask ≠ 0) (regs : Regs) :
    (s.heap.GrantsNext 3 ∧ sysForkHandler s regs = some (s.nextPid, forked s regs)) ∨
    (¬ s.heap.GrantsNext 3 ∧ ∃ s', sysForkHandler s regs = some (2 ^ 32 - 1, s') ∧
      Refused s s') := by
  have hlow := (h.fit (h.current h0)).low
  rcases createTask_cases s regs.eip ⟨"forked", forked_fits⟩ (s.tcb s.currentTask).priority with
    ⟨-, hg, hc⟩ | ⟨hno, hc, hr⟩
  · have hnew : ((forked s regs).tcb (s.heap.requests + 1)).pid = s.nextPid := by
      simp only [forked, Sched.modify, Function.update_self, inherit, withTask, newTask]
    refine .inl ⟨hg, ?_⟩
    simp only [sysForkHandler, if_neg h0, hc, if_neg (Nat.succ_ne_zero _)]
    rw [← hnew]
    rfl
  · refine .inr ⟨fun hg => hno ⟨hlow, hg⟩, _, ?_, hr⟩
    simp only [sysForkHandler, if_neg h0]
    exact if_pos hc

/-- Its system call is a fork. -/
theorem syscallHandler_startEnd (h : Occupied k.sched) (regs : Regs) (env : SyscallEnv) :
    ∃ n s', sysForkHandler k.sched (startEnd regs) = some (n, s') ∧
      syscallHandler env k (startEnd regs) =
        some ({ startEnd regs with eax := n }, { k with sched := s' }) := by
  obtain ⟨⟨n, s'⟩, he, -⟩ := h.fork (startEnd regs)
  exact ⟨n, s', he, syscallHandler_entry rfl (congrArg (Option.map _) he)⟩

theorem Lasting.step (h : Lasting k.sched) {op : UserOp} (hop : ¬ op.Exits) :
    ∃ k', userStep k op = some k' ∧ Lasting k'.sched ∧ Keeps k.sched k'.sched := by
  obtain ⟨k', hk', ho⟩ := h.occupied.step op.kernelOp
  refine ⟨k', hk', ?_⟩
  cases op with
  | call f regs env =>
    obtain ⟨n, k₁, he, hs⟩ := syscallHandler_enter h.occupied f regs env
    rw [UserOp.kernelOp, kernelStep, he] at hk'
    obtain rfl := Option.some.inj hk'
    rw [hs] at ho ⊢
    exact h.lib hop ho
  | mainReturns regs env =>
    obtain ⟨n, s', hfork, he⟩ := syscallHandler_startEnd h.occupied regs env
    have hs : schedStep k.sched (.fork (User.startEnd regs)) = s' := by
      rw [schedStep, hfork]
      rfl
    rw [UserOp.kernelOp, kernelStep, he] at hk'
    obtain rfl := Option.some.inj hk'
    rw [← hs] at ho ⊢
    exact h.startEnd regs ho
  | tick regs cpu =>
    obtain rfl := Option.some.inj hk'
    exact h.tick regs cpu ho
  | sleepRound endTicks cpu =>
    obtain ⟨s', hr, rfl⟩ := Option.map_eq_some_iff.mp hk'
    exact h.sleepRound hr ho

/-! ## Runs -/

theorem Lasting.run (h : Lasting k.sched) (ops : List UserOp) (hops : ∀ op ∈ ops, ¬ op.Exits) :
    ∃ k', ops.foldlM userStep k = some k' ∧ Lasting k'.sched ∧ Keeps k.sched k'.sched := by
  induction ops generalizing k with
  | nil => exact ⟨k, rfl, h, .refl _⟩
  | cons op ops ih =>
    obtain ⟨hop, hrest⟩ := List.forall_mem_cons.mp hops
    obtain ⟨k₁, he, h₁, hkeep⟩ := h.step hop
    obtain ⟨k', hrun, h', hkeep'⟩ := ih h₁ hrest
    refine ⟨k', ?_, h', hkeep.trans hkeep'⟩
    rw [List.foldlM_cons, he]
    exact hrun

theorem exited_schedInit (heap : BlockHeap) (i j : Nat) :
    (schedInit (.boot heap i j)).exited = [] := by
  rcases schedInit_cases (.boot heap i j) with hr | hr | ⟨-, he⟩
  · exact hr.exited
  · exact hr.exited
  · rw [he]
    rfl

theorem lasting_schedInit {heap : BlockHeap} (hs : heap.Sane) {i j : Nat}
    (hok : (schedInit (.boot heap i j)).currentTask ≠ 0) : Lasting (schedInit (.boot heap i j)) :=
  ⟨⟨.schedInit hs i j, hok⟩, dirInv_schedInit hs i j, exited_schedInit heap i j,
    [], follows_schedInit hs i j, List.forall_mem_nil _⟩

/-- **Nothing ends without `exit`.** In every run of programs that call the other functions
of the library and return from `main`, whatever is in the registers but for reads of the
keyboard, every task that was there at any time is still there and no zombie, no block was
given back, and every page directory is allocated. -/
theorem programs_last {heap : BlockHeap} (hs : heap.Sane) (idleEntry initEntry : Nat)
    (k : Kernel) (hk : k.sched = schedInit (.boot heap idleEntry initEntry))
    (hok : k.sched.currentTask ≠ 0) (before after : List UserOp)
    (hops : ∀ op ∈ before ++ after, ¬ op.Exits ∧ ¬ op.kernelOp.ReadsKeyboard) :
    ∃ k₁ k₂, before.foldlM userStep k = some k₁ ∧ after.foldlM userStep k₁ = some k₂ ∧
      (∀ t ∈ k₁.sched.created, t ∈ k₂.sched.created ∧ (k₂.sched.tcb t).state ≠ .zombie) ∧
      (∀ b, k₁.sched.heap.Live b → k₂.sched.heap.Live b) ∧ PageDirsLive k₂.sched := by
  have hboot : Lasting k.sched := by
    rw [hk] at hok ⊢
    exact lasting_schedInit hs hok
  obtain ⟨hbefore, hafter⟩ := List.forall_mem_append.mp fun op hop => (hops op hop).1
  obtain ⟨k₁, hrun₁, h₁, -⟩ := hboot.run before hbefore
  obtain ⟨k₂, hrun₂, h₂, hkeep⟩ := h₁.run after hafter
  exact ⟨k₁, k₂, hrun₁, hrun₂,
    fun t ht => ⟨hkeep.created t ht, h₂.alive.state (hkeep.created t ht)⟩, hkeep.live,
    h₂.dirs.pageDirsLive⟩

/-- A read of a descriptor that is not the keyboard's, a return from `main` and a tick. -/
theorem programs_last_three :
    ∃ k₁ k₂, [UserOp.call .read { callNumber 0 with ebx := 3 } plainEnv].foldlM userStep
        startedKernel = some k₁ ∧
      [UserOp.mainReturns (callNumber 0) plainEnv, .tick (callNumber 0) .zero].foldlM userStep k₁ =
        some k₂ ∧
      (∀ t ∈ k₁.sched.created, t ∈ k₂.sched.created ∧ (k₂.sched.tcb t).state ≠ .zombie) ∧
      (∀ b, k₁.sched.heap.Live b → k₂.sched.heap.Live b) ∧ PageDirsLive k₂.sched := by
  refine programs_last sane_grantingHeap 0 0 startedKernel rfl (by decide) _ _ ?_
  simp [UserOp.Exits, UserOp.kernelOp, KernelOp.ReadsKeyboard, LibCall.enter, LibCall.num,
    startEnd]

/-- **Returning from `main` forks.** After every run of programs whose steps are followed the
end of `_start` returns behind its `int $0x80` with the same task current, and if there is
memory for it a second task is ready and queued, its pid the result. No task that was there
is changed. -/
theorem main_returns_forks {heap : BlockHeap} (hs : heap.Sane) (idleEntry initEntry : Nat)
    (k : Kernel) (hk : k.sched = schedInit (.boot heap idleEntry initEntry))
    (hok : k.sched.currentTask ≠ 0) (ops : List UserOp)
    (hg : GuardedM userStep UserOp.Followed k ops) (regs : Regs) (env : SyscallEnv) :
    ∃ k₁ r k₂, ops.foldlM userStep k = some k₁ ∧
      syscallHandler env k₁ (startEnd regs) = some (r, k₂) ∧ r.eip = regs.eip ∧
      k₂.sched.currentTask = k₁.sched.currentTask ∧
      (∀ t ∈ k₁.sched.created, k₂.sched.tcb t = k₁.sched.tcb t) ∧
      (k₁.sched.heap.GrantsNext 3 ∧ (∃ child, child ∉ k₁.sched.created ∧
          k₂.sched.created = child :: k₁.sched.created ∧ Queued k₂.sched child ∧
          (k₂.sched.tcb child).state = .ready ∧ (k₂.sched.tcb child).pid = r.eax) ∨
        ¬ k₁.sched.heap.GrantsNext 3 ∧ r.eax = 2 ^ 32 - 1 ∧
          k₂.sched.created = k₁.sched.created) := by
  have hboot : Occupied k.sched := ⟨hk ▸ .schedInit hs idleEntry initEntry, hok⟩
  obtain ⟨k₁, hrun, h⟩ :=
    hg.progress (fun k => Occupied k.sched) (fun _ op h _ => h.step op.kernelOp) hboot
  obtain ⟨n, s', hfork, he⟩ := syscallHandler_startEnd h regs env
  refine ⟨k₁, _, _, hrun, he, rfl, ?_⟩
  obtain ⟨q, hi, -⟩ := h.sound
  have hm := h.sound.current h.current
  rcases sysForkHandler_cases h.sound h.current (startEnd regs) with ⟨hg, hc⟩ | ⟨hno, s₁, hc, hr⟩
  · obtain ⟨rfl, rfl⟩ := Prod.mk.inj (Option.some.inj (hfork.symm.trans hc))
    refine ⟨rfl, fun t ht => forked_tcb_old hi ht _, .inl ⟨hg, _, hi.fresh, rfl, ?_, ?_, ?_⟩⟩
    · refine (hi.forked hm _).queued_iff.mpr ⟨(k₁.sched.tcb k₁.sched.currentTask).priority, ?_⟩
      rw [Function.update_self]
      exact List.mem_cons_self
    · simp only [forked, Sched.modify, Function.update_self, inherit, withTask, newTask]
    · simp only [forked, Sched.modify, Function.update_self, inherit, withTask, newTask]
  · obtain ⟨rfl, rfl⟩ := Prod.mk.inj (Option.some.inj (hfork.symm.trans hc))
    exact ⟨hr.currentTask, fun t ht => hr.tcb t (hi.handed t ht).2, .inr ⟨hno, rfl, hr.created⟩⟩

/-- The init task returned from `main` and exits; its child returns from `main`. -/
theorem main_returns_forks_boot :
    ∃ k₁ r k₂, [UserOp.tick (callNumber 0) .zero, .mainReturns (callNumber 0) plainEnv,
        .call .exit (callNumber 0) plainEnv].foldlM userStep startedKernel = some k₁ ∧
      syscallHandler plainEnv k₁ (startEnd (callNumber 0)) = some (r, k₂) ∧
      r.eip = (callNumber 0).eip ∧ k₂.sched.currentTask = k₁.sched.currentTask ∧
      (∀ t ∈ k₁.sched.created, k₂.sched.tcb t = k₁.sched.tcb t) ∧
      (k₁.sched.heap.GrantsNext 3 ∧ (∃ child, child ∉ k₁.sched.created ∧
          k₂.sched.created = child :: k₁.sched.created ∧ Queued k₂.sched child ∧
          (k₂.sched.tcb child).state = .ready ∧ (k₂.sched.tcb child).pid = r.eax) ∨
        ¬ k₁.sched.heap.GrantsNext 3 ∧ r.eax = 2 ^ 32 - 1 ∧
          k₂.sched.created = k₁.sched.created) := by
  refine main_returns_forks sane_grantingHeap 0 0 startedKernel rfl (by decide) _ ?_ _ _
  refine .cons (.of_step rfl not_false (by decide)) rfl ?_
  refine .cons (.of_step rfl (fun h => absurd h.1 (by decide)) (by decide)) rfl ?_
  exact .cons (.of_step rfl (fun h => absurd h.1 (by decide)) (by decide)) rfl trivial

end SynapseKernel.User
