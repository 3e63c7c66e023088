import SynapseKernel.Proc.PageDirs
import SynapseKernel.Proc.TaskStates

/-! # When dead or suspended tasks run again

`schedule` takes tasks from the queues without a look at their state and puts
the current task back whatever its state is, and the executor changes the state
of a task and leaves it queued. A run keeps dead tasks dead and suspended tasks
suspended exactly when every operation meets a state that is `SafeOp` for it. -/
namespace SynapseKernel.Proc
open SynapseKernel.Word SynapseKernel.Kheap SynapseKernel.Links SynapseKernel.Runs

variable {s s' : Sched} {w : Writes} {q : Nat → List Nat} {p t : Nat} {cpu : RegsContext}

/-- What `task_exit` needs: the current task is not put back, and the task taken
from the queues is neither dead nor blocked. -/
structure SafeExit (w : Writes) (s : Sched) : Prop where
  slice : ¬ SliceOver s
  dispatch : ∀ p t, First s p t → ¬ Dead w t ∧ (s.tcb t).state ≠ .blocked

/-- The condition on the state before an operation. -/
def SafeOp (s : Sched) (w : Writes) : TaskOp → Prop
  | .sched (.create _ _ _) => True
  | .sched (.fork _) => True
  | .sched (.schedule _) => s.currentTask ≠ 0 → SafeSchedule w s
  | .sched (.tick _ _) => s.currentTask ≠ 0 → SafeSchedule w s
  | .sched (.exit _) => s.currentTask ≠ 0 → SafeExit w s
  | .execute action c _ =>
    if KillsCurrent s action c then SafeExit w s
    else Confirms c → action.type = .resume →
      ∀ t, findTask s action.pid = some (.error t) → ¬ Dead w t
  | .sleep _ => True
  | .sleepRound endTicks _ => s.currentTask ≠ 0 →
    if s.systemTicks < endTicks then SafeSchedule w s else ¬ Dead w s.currentTask

/-! ## Before the call of schedule -/

theorem tcb_releaseCurrent (s : Sched) :
    (releaseCurrent s).tcb = (setTaskState s s.currentTask .zombie).tcb ∧
      (releaseCurrent s).readyQueue = s.readyQueue ∧
      (releaseCurrent s).currentTask = s.currentTask ∧
      (releaseCurrent s).created = s.created := by
  rcases releaseCurrent_cases s with ⟨-, he⟩ | ⟨b, -, -, he⟩
  · rw [he]
    exact ⟨rfl, rfl, rfl, rfl⟩
  · rw [he]
    exact ⟨rfl, rfl, rfl, rfl⟩

theorem SafeSchedule.congr (h : SafeSchedule w s) (hc : s'.currentTask = s.currentTask)
    (hq : s'.readyQueue = s.readyQueue) (ht : ∀ t, (s'.tcb t).timeSlice = (s.tcb t).timeSlice ∧
      (s'.tcb t).priority = (s.tcb t).priority ∧ (s'.tcb t).state = (s.tcb t).state) :
    SafeSchedule w s' := by
  have hover : SliceOver s' ↔ SliceOver s := by
    rw [SliceOver, SliceOver, hc, (ht _).1]
  refine ⟨fun ho => hc ▸ h.requeue (hover.mp ho), fun p t hfirst hlt => ?_⟩
  rw [(ht t).2.2]
  refine h.dispatch p t ⟨hfirst.low, hq ▸ hfirst.head, hfirst.ne, hq ▸ hfirst.above⟩ fun ho => ?_
  have hlt := hlt (hover.mpr ho)
  rwa [hc, (ht _).2.1] at hlt

theorem saveInterrupted_fields (s : Sched) (regs : Regs) :
    (saveInterrupted s regs).currentTask = s.currentTask ∧
    (saveInterrupted s regs).readyQueue = s.readyQueue ∧
    (saveInterrupted s regs).created = s.created ∧
    ∀ t, ((saveInterrupted s regs).tcb t).timeSlice = (s.tcb t).timeSlice ∧
      ((saveInterrupted s regs).tcb t).priority = (s.tcb t).priority ∧
      ((saveInterrupted s regs).tcb t).state = (s.tcb t).state := by
  rw [saveInterrupted]
  split
  · refine ⟨rfl, rfl, rfl, fun t => ⟨?_, ?_, ?_⟩⟩
    · refine s.modify_field Task.timeSlice ?_ _ t
      exact fun _ => rfl
    · refine s.modify_field Task.priority ?_ _ t
      exact fun _ => rfl
    · refine s.modify_field Task.state ?_ _ t
      exact fun _ => rfl
  · exact ⟨rfl, rfl, rfl, fun _ => ⟨rfl, rfl, rfl⟩⟩

theorem safeSchedule_releaseCurrent (h : Sound s) :
    SafeSchedule ((s.currentTask, .zombie) :: w) (releaseCurrent s) ↔ SafeExit w s := by
  obtain ⟨htcb, hqueue, hcur, -⟩ := tcb_releaseCurrent s
  have hslice : ((releaseCurrent s).tcb s.currentTask).timeSlice =
      (s.tcb s.currentTask).timeSlice := by
    rw [htcb]
    refine s.modify_field Task.timeSlice ?_ _ _
    exact fun _ => rfl
  have hover : SliceOver (releaseCurrent s) ↔ SliceOver s := by
    rw [SliceOver, SliceOver, hcur, hslice]
  have hfirst : ∀ p t, First (releaseCurrent s) p t ↔ First s p t := fun p t =>
    ⟨fun hf => ⟨hf.low, hqueue ▸ hf.head, hf.ne, hqueue ▸ hf.above⟩,
      fun hf => ⟨hf.low, hqueue.symm ▸ hf.head, hf.ne, hqueue.symm ▸ hf.above⟩⟩
  obtain ⟨q, hinv, hon⟩ := h
  have hsame : ∀ p t, First s p t →
      (¬ Dead ((s.currentTask, .zombie) :: w) t ∧ ((releaseCurrent s).tcb t).state ≠ .blocked ↔
        ¬ Dead w t ∧ (s.tcb t).state ≠ .blocked) := by
    intro p t hf
    have hne := hf.ne_current hinv hon
    have hstate : (releaseCurrent s).tcb t = s.tcb t := by
      rw [htcb]
      exact Function.update_of_ne hne _ _
    have hdead : Dead ((s.currentTask, .zombie) :: w) t ↔ Dead w t := by
      rw [Dead, List.mem_cons]
      exact or_iff_right fun he => hne (congrArg Prod.fst he)
    rw [hstate, hdead]
  constructor
  · intro hs
    have hnot : ¬ SliceOver s := fun ho => by
      have hd := hs.requeue (hover.mpr ho)
      rw [hcur] at hd
      exact hd List.mem_cons_self
    refine ⟨hnot, fun p t hf => (hsame p t hf).mp ?_⟩
    exact hs.dispatch p t ((hfirst p t).mpr hf) fun ho => absurd (hover.mp ho) hnot
  · intro hs
    refine ⟨fun ho => absurd (hover.mp ho) hs.slice, fun p t hf _ => ?_⟩
    exact (hsame p t ((hfirst p t).mp hf)).mpr (hs.dispatch p t ((hfirst p t).mp hf))

theorem Follows.setTaskState (h : Follows s w) (ht : t ∈ s.created) (state : TaskState) :
    Follows (setTaskState s t state) ((t, state) :: w) :=
  h.modify ht fun _ => rfl

theorem Follows.releaseCurrent (h : Follows s w) (hm : s.currentTask ∈ s.created) :
    Follows (releaseCurrent s) ((s.currentTask, .zombie) :: w) := by
  obtain ⟨htcb, -, -, hcreated⟩ := tcb_releaseCurrent s
  exact (h.setTaskState hm .zombie).keep hcreated fun t _ => congrArg (fun f => (f t).state) htcb

/-! ## Each operation -/

theorem create_writes (h : Sound s) (hf : Follows s w) (entry : Nat) (name : TaskName)
    (priority : Nat) :
    Follows (createTask s entry name priority).2 (createWrites s entry name priority ++ w) ∧
      (Lawful (createWrites s entry name priority ++ w) ↔ Lawful w) := by
  obtain ⟨q, hinv, -⟩ := h
  rcases createTask_cases s entry name priority with ⟨-, -, hc⟩ | ⟨-, hc, hr⟩
  · have hwrites : createWrites s entry name priority = [(s.heap.requests + 1, .ready)] := by
      rw [createWrites, hc]
      rfl
    have hnew : (withTask s entry name priority).tcb (s.heap.requests + 1) =
        newTask s entry name priority := Function.update_self _ _ _
    obtain ⟨hadd, hdead⟩ := hf.add hinv.fresh rfl (congrArg Task.state hnew)
      (fun x hx => congrArg Task.state (hinv.update_old hx))
    rw [hwrites, hc]
    exact ⟨hadd, (lawful_ready w _).trans (and_iff_right hdead)⟩
  · have hwrites : createWrites s entry name priority = [] := if_pos hc
    rw [hwrites]
    exact ⟨hf.refused hinv hr, Iff.rfl⟩

theorem fork_writes (h : Sound s) (hf : Follows s w) (regs : Regs) :
    Follows (schedStep s (.fork regs)) (ownWrites s (.sched (.fork regs)) ++ w) ∧
      (Lawful (ownWrites s (.sched (.fork regs)) ++ w) ↔ Lawful w) := by
  by_cases h0 : s.currentTask = 0
  · simp only [schedStep, sysForkHandler, ownWrites, if_pos h0]
    exact ⟨hf, Iff.rfl⟩
  obtain ⟨hfollows, hlawful⟩ := create_writes h hf regs.eip ⟨"forked", forked_fits⟩
    (s.tcb s.currentTask).priority
  simp only [ownWrites, if_neg h0]
  refine ⟨?_, hlawful⟩
  simp only [schedStep, sysForkHandler, if_neg h0]
  split
  · exact hfollows
  · refine hfollows.keep rfl fun t _ => ?_
    refine Sched.modify_field Task.state ?_ _ _ t
    exact fun _ => rfl

theorem exit_writes (h : Sound s) (h0 : s.currentTask ≠ 0) (hf : Follows s w)
    (cpu : RegsContext) :
    Follows (schedule (releaseCurrent s) cpu)
        (scheduleWrites (releaseCurrent s) ++ [(s.currentTask, .zombie)] ++ w) ∧
      (Lawful (scheduleWrites (releaseCurrent s) ++ [(s.currentTask, .zombie)] ++ w) ↔
        SafeExit w s ∧ Lawful w) := by
  have hm := h.current h0
  obtain ⟨hfollows, hlawful⟩ :=
    schedule_writes (h.releaseCurrent h0) (hf.releaseCurrent hm) cpu
  rw [List.append_assoc, List.singleton_append]
  refine ⟨hfollows, ?_⟩
  rw [hlawful, safeSchedule_releaseCurrent h, (tcb_releaseCurrent s).2.2.1,
    lawful_stop w _ (.inr rfl)]
  exact and_congr_left' ⟨fun hs => hs h0, fun hs _ => hs⟩

theorem tick_writes (h : Sound s) (hf : Follows s w) (regs : Regs) (cpu : RegsContext) :
    Follows (taskStep s (.sched (.tick regs cpu))) (taskWrites s (.sched (.tick regs cpu)) ++ w) ∧
      (Lawful (taskWrites s (.sched (.tick regs cpu)) ++ w) ↔
        (s.currentTask ≠ 0 → SafeSchedule w s) ∧ Lawful w) := by
  obtain ⟨hcur, hqueue, hcreated, hfields⟩ :=
    saveInterrupted_fields { s with systemTicks := u32 (s.systemTicks + 1) } regs
  have hf₁ := hf.keep hcreated fun t _ => (hfields t).2.2
  obtain ⟨hfollows, hlawful⟩ := schedule_writes (h.saveInterrupted regs) hf₁ cpu
  have hsafe : SafeSchedule w
      (saveInterrupted { s with systemTicks := u32 (s.systemTicks + 1) } regs) ↔
      SafeSchedule w s :=
    ⟨fun hs => hs.congr hcur.symm hqueue.symm fun t =>
        ⟨(hfields t).1.symm, (hfields t).2.1.symm, (hfields t).2.2.symm⟩,
      fun hs => hs.congr hcur hqueue hfields⟩
  have hwrites : taskWrites s (.sched (.tick regs cpu)) =
      scheduleWrites (saveInterrupted { s with systemTicks := u32 (s.systemTicks + 1) } regs) :=
    List.append_nil _
  rw [hwrites]
  refine ⟨hfollows, ?_⟩
  rw [hlawful, hsafe, hcur]

/-- Of the states the executor sets only `ready` may be unlawful. -/
theorem lawful_execute {action : AiAction} {c : Char} {state : TaskState}
    (hstate : action.type.queuedState = some state) (hl : LooksUp s action c)
    (hfind : findTask s action.pid = some (.error t)) :
    Lawful ((t, state) :: w) ↔ (Confirms c → action.type = .resume →
      ∀ x, findTask s action.pid = some (.error x) → ¬ Dead w x) ∧ Lawful w := by
  cases htype : action.type with
  | alert =>
    rw [htype] at hstate
    cases hstate
  | kill =>
    rw [htype] at hstate
    obtain rfl := Option.some.inj hstate
    exact (lawful_stop w t (.inr rfl)).trans (and_iff_right fun _ he => nomatch he).symm
  | pause =>
    rw [htype] at hstate
    obtain rfl := Option.some.inj hstate
    exact (lawful_stop w t (.inl rfl)).trans (and_iff_right fun _ he => nomatch he).symm
  | resume =>
    rw [htype] at hstate
    obtain rfl := Option.some.inj hstate
    refine (lawful_ready w t).trans (and_congr_left' ⟨fun hd _ _ x hx => ?_, fun hd => ?_⟩)
    · have htx : t = x := Except.error.inj (Option.some.inj (hfind.symm.trans hx))
      exact htx ▸ hd
    · exact hd hl.1 rfl t hfind

theorem execute_writes (h : Sound s) (hf : Follows s w) (action : AiAction) (c : Char)
    (cpu : RegsContext) :
    Follows (taskStep s (.execute action c cpu)) (taskWrites s (.execute action c cpu) ++ w) ∧
      (Lawful (taskWrites s (.execute action c cpu) ++ w) ↔
        SafeOp s w (.execute action c cpu) ∧ Lawful w) := by
  have hstep : taskStep s (.execute action c cpu) = (executeAction s action c cpu).getD s := rfl
  rw [hstep]
  by_cases hk : KillsCurrent s action c
  · simp only [taskWrites, scheduleEntry, ownWrites, SafeOp, if_pos hk]
    rw [executeAction_kill hk]
    exact exit_writes h hk.2.2.1 hf cpu
  simp only [taskWrites, scheduleEntry, ownWrites, SafeOp, if_neg hk, List.nil_append]
  rcases executeAction_cases h hk cpu with ⟨t, state, hstate, hl, hfind, hm, he⟩ | ⟨hnone, he⟩
  · have hwrites : foundWrites s action = [(t, state)] := by
      rw [foundWrites, hstate, hfind]
    rw [he, if_pos hl, hwrites]
    exact ⟨hf.setTaskState hm state, lawful_execute hstate hl hfind⟩
  · have hwrites : (if LooksUp s action c then foundWrites s action else []) = [] := by
      rcases hnone with hnone | hno | hfind
      · rw [foundWrites, hnone]
        exact ite_self _
      · exact if_neg hno
      · rw [foundWrites, hfind]
        cases action.type.queuedState with
        | none => exact ite_self _
        | some state => exact ite_self _
    rw [he, hwrites]
    refine ⟨hf, (and_iff_right fun hc htype t hfind => ?_).symm⟩
    rcases hnone with hnone | hno | hfind'
    · rw [htype] at hnone
      cases hnone
    · refine absurd ⟨hc, fun hkill => ?_⟩ hno
      cases htype.symm.trans hkill
    · cases hfind.symm.trans hfind'

/-- With no current task nothing exits. -/
theorem taskExit_writes (h : Sound s) (hf : Follows s w) (cpu : RegsContext) :
    Follows (taskStep s (.sched (.exit cpu))) (taskWrites s (.sched (.exit cpu)) ++ w) ∧
      (Lawful (taskWrites s (.sched (.exit cpu)) ++ w) ↔
        SafeOp s w (.sched (.exit cpu)) ∧ Lawful w) := by
  by_cases h0 : s.currentTask = 0
  · have hstep : taskStep s (.sched (.exit cpu)) = s := by
      simp only [taskStep, schedStep, taskExit, if_pos h0, Option.getD_none]
    simp only [taskWrites, scheduleEntry, ownWrites, SafeOp, if_pos h0, hstep]
    exact ⟨hf, (and_iff_right fun hne => absurd h0 hne).symm⟩
  · have hstep : taskStep s (.sched (.exit cpu)) = schedule (releaseCurrent s) cpu :=
      schedStep_exit h0 cpu
    simp only [taskWrites, scheduleEntry, ownWrites, SafeOp, if_neg h0, hstep]
    obtain ⟨hfollows, hlawful⟩ := exit_writes h h0 hf cpu
    exact ⟨hfollows, hlawful.trans (and_congr_left' ⟨fun hs _ => hs, fun hs => hs h0⟩)⟩

theorem sleep_writes (h : Sound s) (hf : Follows s w) (regs : Regs) :
    Follows (taskStep s (.sleep regs)) (taskWrites s (.sleep regs) ++ w) ∧
      (Lawful (taskWrites s (.sleep regs) ++ w) ↔ SafeOp s w (.sleep regs) ∧ Lawful w) := by
  by_cases h0 : s.currentTask = 0
  · simp only [taskWrites, scheduleEntry, ownWrites, SafeOp, taskStep, sleepStart, if_pos h0]
    exact ⟨hf, (and_iff_right trivial).symm⟩
  · simp only [taskWrites, scheduleEntry, ownWrites, SafeOp, taskStep, sleepStart, if_neg h0]
    exact ⟨hf.setTaskState (h.current h0) _,
      (lawful_stop w _ (.inl rfl)).trans (and_iff_right trivial).symm⟩

theorem sleepRound_writes (h : Sound s) (hf : Follows s w) (endTicks : Nat) (cpu : RegsContext) :
    Follows (taskStep s (.sleepRound endTicks cpu))
        (taskWrites s (.sleepRound endTicks cpu) ++ w) ∧
      (Lawful (taskWrites s (.sleepRound endTicks cpu) ++ w) ↔
        SafeOp s w (.sleepRound endTicks cpu) ∧ Lawful w) := by
  by_cases hlt : s.systemTicks < endTicks
  · have hstep : taskStep s (.sleepRound endTicks cpu) = schedule s cpu := by
      simp only [taskStep, sleepRound, if_pos hlt, Option.getD_some]
    simp only [taskWrites, scheduleEntry, ownWrites, SafeOp, if_pos hlt, if_pos (Or.inl hlt),
      hstep, List.append_nil]
    exact schedule_writes h hf cpu
  · by_cases h0 : s.currentTask = 0
    · simp only [taskWrites, scheduleEntry, ownWrites, SafeOp, taskStep, sleepRound, if_neg hlt,
        if_pos h0, if_pos (Or.inr h0)]
      exact ⟨hf, (and_iff_right fun hne => absurd h0 hne).symm⟩
    · simp only [taskWrites, scheduleEntry, ownWrites, SafeOp, taskStep, sleepRound, if_neg hlt,
        if_neg h0, if_neg (not_or.mpr ⟨hlt, h0⟩)]
      exact ⟨hf.setTaskState (h.current h0) _,
        (lawful_ready w _).trans (and_congr_left' ⟨fun hd _ => hd, fun hd => hd h0⟩)⟩

/-- **What an operation writes, and when that is lawful.** -/
theorem lawful_taskWrites (h : Sound s) (hf : Follows s w) (op : TaskOp) :
    Follows (taskStep s op) (taskWrites s op ++ w) ∧
      (Lawful (taskWrites s op ++ w) ↔ SafeOp s w op ∧ Lawful w) := by
  cases op with
  | sched op =>
    cases op with
    | create entry name priority =>
      obtain ⟨hfollows, hlawful⟩ := create_writes h hf entry name priority
      exact ⟨hfollows, hlawful.trans (and_iff_right trivial).symm⟩
    | fork regs =>
      obtain ⟨hfollows, hlawful⟩ := fork_writes h hf regs
      exact ⟨hfollows, hlawful.trans (and_iff_right trivial).symm⟩
    | schedule cpu =>
      have hwrites : taskWrites s (.sched (.schedule cpu)) = scheduleWrites s := List.append_nil _
      rw [hwrites]
      exact schedule_writes h hf cpu
    | tick regs cpu => exact tick_writes h hf regs cpu
    | exit cpu => exact taskExit_writes h hf cpu
  | execute action c cpu => exact execute_writes h hf action c cpu
  | sleep regs => exact sleep_writes h hf regs
  | sleepRound endTicks cpu => exact sleepRound_writes h hf endTicks cpu

/-! ## Runs -/

/-- The scheduler with the record of the writes to task states. -/
structure Watched where
  sched : Sched
  writes : Writes

def watchedStep (m : Watched) (op : TaskOp) : Watched :=
  ⟨taskStep m.sched op, taskWrites m.sched op ++ m.writes⟩

/-- The scheduler after `sched_init`; every task is ready. -/
def watchedInit (heap : BlockHeap) (i j : Nat) : Watched := ⟨schedInit (.boot heap i j), []⟩

/-- What every run keeps. -/
structure Recorded (m : Watched) : Prop where
  sound : Sound m.sched
  follows : Follows m.sched m.writes

/-- A record in a fresh block; nothing was written since it was made. -/
theorem Follows.fresh (h : Follows s []) (hinv : SchedInv s q) {x : Task} (hx : x.state = .ready)
    (hcreated : s'.created = (s.heap.requests + 1) :: s.created)
    (htcb : s'.tcb = Function.update s.tcb (s.heap.requests + 1) x) : Follows s' [] := by
  refine ⟨fun y hy => (nomatch hy), fun t ht => ?_⟩
  rw [hcreated] at ht
  rw [htcb]
  rcases List.mem_cons.mp ht with rfl | ht
  · rw [Function.update_self]
    exact hx
  · rw [hinv.update_old ht]
    exact h.state t ht

theorem follows_schedInit {heap : BlockHeap} (hs : heap.Sane) (i j : Nat) :
    Follows (schedInit (.boot heap i j)) [] := by
  have hinv := schedInv_boot hs i j
  have hboot : Follows { Sched.boot heap i j with readyQueue := fun _ => 0 } [] :=
    ⟨fun x hx => (nomatch hx), fun t ht => (nomatch ht)⟩
  have hidle : Follows (queuedIdle { Sched.boot heap i j with readyQueue := fun _ => 0 }) [] :=
    hboot.fresh hinv rfl rfl rfl
  rcases schedInit_cases (.boot heap i j) with hr | hr | ⟨-, he⟩
  · exact hboot.refused hinv hr
  · exact hidle.refused (hinv.queuedIdle rfl) hr
  · rw [he]
    exact hidle.fresh (hinv.queuedIdle rfl) rfl rfl rfl

theorem recorded_init {heap : BlockHeap} (hs : heap.Sane) (i j : Nat) :
    Recorded (watchedInit heap i j) :=
  ⟨.schedInit hs i j, follows_schedInit hs i j⟩

theorem Recorded.step {m : Watched} (h : Recorded m) (op : TaskOp) :
    Recorded (watchedStep m op) :=
  ⟨h.sound.taskStep op, (lawful_taskWrites h.sound h.follows op).1⟩

theorem Recorded.always {m : Watched} (h : Recorded m) (ops : List TaskOp) :
    Always watchedStep (fun m => Follows m.sched m.writes) m ops := by
  induction ops generalizing m with
  | nil => exact h.follows
  | cons op ops ih => exact ⟨h.follows, ih (h.step op)⟩

theorem Recorded.always_lawful_iff {m : Watched} (h : Recorded m) (hl : Lawful m.writes)
    (ops : List TaskOp) : Always watchedStep (fun m => Lawful m.writes) m ops ↔
      Guarded watchedStep (fun m op => SafeOp m.sched m.writes op) m ops := by
  refine always_iff_guarded (fun m => Recorded m ∧ Lawful m.writes) (fun m hm => hm.2)
    (fun m op hm hok => ⟨hm.1.step op, ?_⟩) (fun m op hm hno hbad => hno ?_) ⟨h, hl⟩ ops
  · exact (lawful_taskWrites hm.1.sound hm.1.follows op).2.mpr ⟨hok, hm.2⟩
  · exact ((lawful_taskWrites hm.1.sound hm.1.follows op).2.mp hbad).1

/-- **Dead and suspended tasks stay so** in a run from `sched_init` if and only
if every operation is safe in the state it meets. The record of the writes
follows the states of the tasks all along. The heap of numbered blocks is taken
for that of `kheap.c`, which it is as long as no directory is freed twice
(`exit_frees_live`): that takes a fork, or a second exit of one task. -/
theorem lawful_iff_safeOp (heap : BlockHeap) (hs : heap.Sane) (i j : Nat) (ops : List TaskOp) :
    Always watchedStep (fun m => Follows m.sched m.writes) (watchedInit heap i j) ops ∧
      (Always watchedStep (fun m => Lawful m.writes) (watchedInit heap i j) ops ↔
        Guarded watchedStep (fun m op => SafeOp m.sched m.writes op) (watchedInit heap i j) ops) :=
  ⟨(recorded_init hs i j).always ops, (recorded_init hs i j).always_lawful_iff trivial ops⟩

/-- Two printers outrank the init task, which goes to sleep; the one that waits is paused
and resumed, the one that runs is killed, and the other one exits. -/
def printerRun : List TaskOp :=
  [.sched (.schedule .zero), .sched (.create 0x2000 ⟨"printer", by decide⟩ 6),
    .sched (.create 0x2000 ⟨"printer", by decide⟩ 6), .sleep zeroRegs, .sleepRound 5 .zero,
    .execute ⟨.pause, 2, [], []⟩ 'y' .zero, .execute ⟨.resume, 2, [], []⟩ 'y' .zero,
    .execute ⟨.kill, 3, [], []⟩ 'y' .zero, .sched (.exit .zero)]

theorem lawful_iff_safeOp_grantingHeap :
    Always watchedStep (fun m => Follows m.sched m.writes) (watchedInit grantingHeap 0x1000 0x1100)
        printerRun ∧
      Guarded watchedStep (fun m op => SafeOp m.sched m.writes op)
        (watchedInit grantingHeap 0x1000 0x1100) printerRun := by
  obtain ⟨hfollows, hiff⟩ :=
    lawful_iff_safeOp grantingHeap sane_grantingHeap 0x1000 0x1100 printerRun
  refine ⟨hfollows, hiff.mp ?_⟩
  simp only [printerRun, Always]
  decide +kernel

/-- The operator kills the queued init task, and pauses it. -/
def killInit : TaskOp := .execute ⟨.kill, 1, [], []⟩ 'y' .zero

def pauseInit : TaskOp := .execute ⟨.pause, 1, [], []⟩ 'y' .zero

/-- The next call of `schedule` runs the killed task, and the paused one. -/
theorem killed_runs : (watchedInit grantingHeap 0x1000 0x1100).sched.currentTask ≠ 0 ∧
    ¬ Always watchedStep (fun m => Lawful m.writes) (watchedInit grantingHeap 0x1000 0x1100)
      [killInit, .sched (.schedule .zero)] ∧
    ¬ Always watchedStep (fun m => Lawful m.writes) (watchedInit grantingHeap 0x1000 0x1100)
      [pauseInit, .sched (.schedule .zero)] := by
  refine ⟨by decide, fun h => ?_, fun h => ?_⟩
  · have hlast : Lawful (watchedStep (watchedStep (watchedInit grantingHeap 0x1000 0x1100) killInit)
        (.sched (.schedule .zero))).writes := h.2.2
    exact absurd hlast (by decide)
  · have hlast : Lawful (watchedStep (watchedStep (watchedInit grantingHeap 0x1000 0x1100) pauseInit)
        (.sched (.schedule .zero))).writes := h.2.2
    exact absurd hlast (by decide)

end SynapseKernel.Proc
