import SynapseKernel.Lib.Search
import SynapseKernel.Proc.SchedRuns

/-! # Who else reads and writes tasks

The executor (kernel/executor.c) looks a pid up in the ready queues and sets the
state of the task it finds, procfs (kernel/proc/procfs.c) prints what is in the
queues, and `sleep` (kernel/syscall.c) sets the state of the current task around
calls of `schedule`. What goes to the console is left out. -/
namespace SynapseKernel.Proc
open SynapseKernel.Word SynapseKernel.Kheap SynapseKernel.Links SynapseKernel.Runs

variable {s s' : Sched} {q : Nat → List Nat} {p t : Nat} {cpu : RegsContext} {regs : Regs}

section WalkQueues
variable {σ ρ : Type} {body : σ → Nat → Except ρ σ}

/-- A loop over the ready queues with the indices `is`, each walked with one
round for every block of the heap. -/
def walkQueues (body : σ → Nat → Except ρ σ) (s : Sched) : List Nat → σ → Option (Except ρ σ)
  | [], acc => some (.ok acc)
  | i :: is, acc =>
    match walk body s.next s.heap.requests (s.readyQueue i) acc with
    | none => none
    | some (.error r) => some (.error r)
    | some (.ok acc) => walkQueues body s is acc

/-- The loop runs through queues that are lists one after the other and ends. -/
theorem walkQueues_eq {is : List Nat}
    (h : ∀ i ∈ is, IsList s.next (s.readyQueue i) (q i) ∧ (q i).length ≤ s.heap.requests)
    (acc : σ) : walkQueues body s is acc = some ((is.flatMap q).foldlM body acc) := by
  induction is generalizing acc with
  | nil => rfl
  | cons i is ih =>
    obtain ⟨⟨hlist, hlen⟩, hrest⟩ := List.forall_mem_cons.mp h
    rw [walkQueues, hlist.walk_eq hlen, List.flatMap_cons, List.foldlM_append]
    cases (q i).foldlM body acc with
    | error r => rfl
    | ok acc => exact ih hrest acc

/-- A queue has no more tasks than there are blocks. -/
theorem SchedInv.length_le (h : SchedInv s q) (p : Nat) : (q p).length ≤ s.heap.requests :=
  BlockHeap.length_le (h.list p).nodup fun t ht => h.handed t (h.queued p t ht)

theorem SchedInv.walkQueues_eq (h : SchedInv s q) (is : List Nat) (acc : σ) :
    walkQueues body s is acc = some ((is.flatMap q).foldlM body acc) :=
  Proc.walkQueues_eq (fun i _ => ⟨h.list i, h.length_le i⟩) acc

end WalkQueues

/-! ## kernel/executor.c -/

/-- `ai_action_type_t`. -/
inductive AiActionType
  | alert
  | kill
  | pause
  | resume
deriving DecidableEq, Repr

/-- `ai_action_t`. -/
structure AiAction where
  type : AiActionType
  pid : Nat
  reason : List UInt8
  message : List UInt8

/-- The first queued task with this pid is returned as the `error`. -/
def findTask (s : Sched) (pid : Nat) : Option (Except Nat Unit) :=
  walkQueues (Search.search fun t => (s.tcb t).pid = pid) s (List.range maxPriority) ()

def setTaskState (s : Sched) (task : Nat) (state : TaskState) : Sched :=
  s.modify task fun t => { t with state := state }

/-- `none` is a walk that does not end. -/
def setFoundState (s : Sched) (pid : Nat) (state : TaskState) : Option Sched :=
  match findTask s pid with
  | none => none
  | some (.error t) => some (setTaskState s t state)
  | some (.ok ()) => some s

/-- The answer to the prompt. -/
def Confirms (c : Char) : Prop := c = 'y' ∨ c = 'Y'

instance (c : Char) : Decidable (Confirms c) := inferInstanceAs (Decidable (_ ∨ _))

/-- `execute_ai_action` once the message is parsed. `kill` reads the current
task's record without a test for `NULL`. -/
def executeAction (s : Sched) (action : AiAction) (c : Char) (cpu : RegsContext) : Option Sched :=
  match action.type with
  | .alert => some s
  | .kill =>
    if Confirms c then
      if s.currentTask = 0 then none
      else if (s.tcb s.currentTask).pid = action.pid then taskExit s cpu
      else setFoundState s action.pid .zombie
    else some s
  | .pause => if Confirms c then setFoundState s action.pid .blocked else some s
  | .resume => if Confirms c then setFoundState s action.pid .ready else some s

/-! ## kernel/proc/procfs.c -/

/-- The text `generate_proc_ps_content` leaves in a buffer of `bufSize` bytes.
`header` and `line` are what `snprintf` writes of the header and of a task's
line, before the terminating NUL, into the room that is left. -/
def generateProcPsContent (s : Sched) (header : Nat → List UInt8)
    (line : Task → Nat → List UInt8) (bufSize : Nat) : Option (List UInt8) :=
  let print (text : List UInt8) (t : Nat) : Except (List UInt8) (List UInt8) :=
    let text := text ++ line (s.tcb t) (bufSize - text.length)
    if bufSize ≤ text.length then .error text else .ok text
  let text := header bufSize
  if bufSize ≤ text.length then some text
  else
    match (if s.currentTask ≠ 0 then print text s.currentTask else .ok text) with
    | .error text => some text
    | .ok text =>
      match walkQueues print s (List.range maxPriority) text with
      | none => none
      | some (.error text) => some text
      | some (.ok text) => some text

/-- The task `generate_proc_pid_status_content` prints, `0` for none. -/
def findStatusTask (s : Sched) (pid : Nat) : Option Nat :=
  if s.currentTask ≠ 0 ∧ (s.tcb s.currentTask).pid = pid then some s.currentTask
  else
    match findTask s pid with
    | none => none
    | some (.error t) => some t
    | some (.ok ()) => some 0

/-! ## sleep (kernel/syscall.c) -/

/-- `sys_sleep_handler` up to its loop: `end_ticks` and the blocked task. -/
def sleepStart (s : Sched) (regs : Regs) : Option (Nat × Sched) :=
  if s.currentTask = 0 then none
  else some (u32 (s.systemTicks + u32 (regs.ebx * 100)), setTaskState s s.currentTask .blocked)

/-- One test of the loop with what follows it, on whichever task is current then. -/
def sleepRound (s : Sched) (endTicks : Nat) (cpu : RegsContext) : Option Sched :=
  if s.systemTicks < endTicks then some (schedule s cpu)
  else if s.currentTask = 0 then none
  else some (setTaskState s s.currentTask .ready)

/-! ## The operations together -/

inductive TaskOp
  | sched (op : SchedOp)
  | execute (action : AiAction) (answer : Char) (cpu : RegsContext)
  | sleep (regs : Regs)
  | sleepRound (endTicks : Nat) (cpu : RegsContext)

/-- An operation that would read through `NULL` or not end is not carried out. -/
def taskStep (s : Sched) : TaskOp → Sched
  | .sched op => schedStep s op
  | .execute action answer cpu => (executeAction s action answer cpu).getD s
  | .sleep regs => ((sleepStart s regs).map Prod.snd).getD s
  | .sleepRound endTicks cpu => (sleepRound s endTicks cpu).getD s

/-- The action is a confirmed kill of the current task. -/
def KillsCurrent (s : Sched) (action : AiAction) (c : Char) : Prop :=
  action.type = .kill ∧ Confirms c ∧ s.currentTask ≠ 0 ∧ (s.tcb s.currentTask).pid = action.pid

instance (s : Sched) (action : AiAction) (c : Char) : Decidable (KillsCurrent s action c) :=
  inferInstanceAs (Decidable (_ ∧ _))

/-- The state in which the operation calls `schedule`, if it does. -/
def scheduleEntry (s : Sched) : TaskOp → Option Sched
  | .sched (.create _ _ _) => none
  | .sched (.fork _) => none
  | .sched (.schedule _) => some s
  | .sched (.tick regs _) =>
    some (saveInterrupted { s with systemTicks := u32 (s.systemTicks + 1) } regs)
  | .sched (.exit _) => if s.currentTask = 0 then none else some (releaseCurrent s)
  | .execute action c _ => if KillsCurrent s action c then some (releaseCurrent s) else none
  | .sleep _ => none
  | .sleepRound endTicks _ => if s.systemTicks < endTicks then some s else none

theorem executeAction_kill {action : AiAction} {c : Char} (h : KillsCurrent s action c)
    (cpu : RegsContext) :
    (executeAction s action c cpu).getD s = schedule (releaseCurrent s) cpu := by
  obtain ⟨htype, hc, h0, hpid⟩ := h
  simp only [executeAction, htype, if_pos hc, if_neg h0, if_pos hpid, taskExit, Option.getD_some]

/-! ## The queues through every operation -/

theorem Sound.setTaskState (h : Sound s) (task : Nat) (state : TaskState) :
    Sound (setTaskState s task state) :=
  h.modify ⟨fun _ => rfl, fun _ => rfl, fun _ => rfl⟩ fun hm => (h.fit hm).dir

/-- The search for a pid ends, with a queued task or with none. -/
theorem findTask_cases (h : Sound s) (pid : Nat) :
    (∃ t, findTask s pid = some (.error t) ∧ t ∈ s.created) ∨ findTask s pid = some (.ok ()) := by
  obtain ⟨q, hinv, -⟩ := h
  have hqueued : ∀ t ∈ (List.range maxPriority).flatMap q, t ∈ s.created := by
    intro t ht
    obtain ⟨p, -, hp⟩ := List.mem_flatMap.mp ht
    exact hinv.queued p t hp
  rw [findTask, hinv.walkQueues_eq]
  rcases Search.foldlM_search (fun t => (s.tcb t).pid = pid)
      ((List.range maxPriority).flatMap q) with
    ⟨pre, t, post, hl, -, -, hr⟩ | ⟨-, hr⟩
  · rw [hr]
    refine .inl ⟨t, rfl, hqueued t ?_⟩
    rw [hl]
    exact List.mem_append_right _ List.mem_cons_self
  · rw [hr]
    exact .inr rfl

/-- What a state set through a pid does. -/
theorem setFoundState_cases (h : Sound s) (pid : Nat) (state : TaskState) :
    (∃ t, findTask s pid = some (.error t) ∧ t ∈ s.created ∧
      setFoundState s pid state = some (setTaskState s t state)) ∨
    (findTask s pid = some (.ok ()) ∧ setFoundState s pid state = some s) := by
  rcases findTask_cases h pid with ⟨t, he, hm⟩ | he
  · refine .inl ⟨t, he, hm, ?_⟩
    rw [setFoundState, he]
  · refine .inr ⟨he, ?_⟩
    rw [setFoundState, he]

/-- The state an action puts a queued task in. -/
def AiActionType.queuedState : AiActionType → Option TaskState
  | .alert => none
  | .kill => some .zombie
  | .pause => some .blocked
  | .resume => some .ready

/-- The executor looks the pid up in the queues. -/
def LooksUp (s : Sched) (action : AiAction) (c : Char) : Prop :=
  Confirms c ∧ (action.type = .kill → s.currentTask ≠ 0)

instance (s : Sched) (action : AiAction) (c : Char) : Decidable (LooksUp s action c) :=
  inferInstanceAs (Decidable (_ ∧ _))

theorem executeAction_queued {action : AiAction} {c : Char} (hk : ¬ KillsCurrent s action c)
    (cpu : RegsContext) : (executeAction s action c cpu).getD s =
      match action.type.queuedState with
      | none => s
      | some state =>
        if LooksUp s action c then (setFoundState s action.pid state).getD s else s := by
  cases htype : action.type with
  | alert => simp only [executeAction, htype, Option.getD_some, AiActionType.queuedState]
  | kill =>
    simp only [executeAction, htype, AiActionType.queuedState, LooksUp]
    by_cases hc : Confirms c
    · by_cases h0 : s.currentTask = 0
      · rw [if_pos hc, if_pos h0, if_neg fun hl => hl.2 trivial h0]
        rfl
      · have hpid : (s.tcb s.currentTask).pid ≠ action.pid := fun hp => hk ⟨htype, hc, h0, hp⟩
        rw [if_pos hc, if_neg h0, if_neg hpid, if_pos ⟨hc, fun _ => h0⟩]
    · rw [if_neg hc, if_neg fun hl => hc hl.1]
      rfl
  | pause | resume =>
    simp only [executeAction, htype, AiActionType.queuedState, LooksUp]
    by_cases hc : Confirms c
    · rw [if_pos hc, if_pos ⟨hc, fun he => nomatch he⟩]
    · rw [if_neg hc, if_neg fun hl => hc hl.1]
      rfl

/-- Everything an action can do but kill the current task. -/
theorem executeAction_cases (h : Sound s) {action : AiAction} {c : Char}
    (hk : ¬ KillsCurrent s action c) (cpu : RegsContext) :
    (∃ t state, action.type.queuedState = some state ∧ LooksUp s action c ∧
      findTask s action.pid = some (.error t) ∧ t ∈ s.created ∧
      (executeAction s action c cpu).getD s = setTaskState s t state) ∨
    ((action.type.queuedState = none ∨ ¬ LooksUp s action c ∨
        findTask s action.pid = some (.ok ())) ∧
      (executeAction s action c cpu).getD s = s) := by
  rw [executeAction_queued hk]
  cases hstate : action.type.queuedState with
  | none => exact .inr ⟨.inl rfl, rfl⟩
  | some state =>
    by_cases hl : LooksUp s action c
    · rcases setFoundState_cases h action.pid state with ⟨t, hf, hm, he⟩ | ⟨hf, he⟩
      · refine .inl ⟨t, state, rfl, hl, hf, hm, ?_⟩
        simp only [if_pos hl, he, Option.getD_some]
      · refine .inr ⟨.inr (.inr hf), ?_⟩
        simp only [if_pos hl, he, Option.getD_some]
    · exact .inr ⟨.inr (.inl hl), if_neg hl⟩

/-- The data is in order wherever `schedule` is entered. -/
theorem Sound.scheduleEntry (h : Sound s) {op : TaskOp} {s₁ : Sched}
    (he : scheduleEntry s op = some s₁) : Sound s₁ := by
  cases op with
  | sched op =>
    cases op with
    | create entry name priority => cases he
    | fork regs => cases he
    | schedule cpu =>
      obtain rfl := Option.some.inj he
      exact h
    | tick regs cpu =>
      obtain rfl := Option.some.inj he
      exact h.saveInterrupted regs
    | exit cpu =>
      obtain ⟨h0, he⟩ := Option.ite_none_left_eq_some.mp he
      obtain rfl := Option.some.inj he
      exact h.releaseCurrent h0
  | execute action c cpu =>
    obtain ⟨hk, he⟩ := Option.ite_none_right_eq_some.mp he
    obtain rfl := Option.some.inj he
    exact h.releaseCurrent hk.2.2.1
  | sleep regs => cases he
  | sleepRound endTicks cpu =>
    obtain ⟨-, he⟩ := Option.ite_none_right_eq_some.mp he
    obtain rfl := Option.some.inj he
    exact h

theorem Sound.taskStep (h : Sound s) (op : TaskOp) : Sound (taskStep s op) := by
  cases op with
  | sched op => exact h.step op
  | execute action c cpu =>
    have hstep : Proc.taskStep s (.execute action c cpu) = (executeAction s action c cpu).getD s :=
      rfl
    rw [hstep]
    by_cases hk : KillsCurrent s action c
    · rw [executeAction_kill hk cpu]
      exact (h.releaseCurrent hk.2.2.1).schedule cpu
    · rcases executeAction_cases h hk cpu with ⟨t, state, -, -, -, -, he⟩ | ⟨-, he⟩
      · rw [he]
        exact h.setTaskState t state
      · rw [he]
        exact h
  | sleep regs =>
    simp only [Proc.taskStep, sleepStart]
    split
    · exact h
    · exact h.setTaskState _ _
  | sleepRound endTicks cpu =>
    simp only [Proc.taskStep, Proc.sleepRound]
    split
    · exact h.schedule cpu
    · split
      · exact h
      · exact h.setTaskState _ _

end SynapseKernel.Proc
