import SynapseKernel.Proc.Executor

/-! # The writes to task states

Beside a run of the scheduler stands the record of every assignment to a `state`
field, the latest first. The record is `Lawful` if no task that was a zombie is
made ready or running again and no task is dispatched while it is blocked.
`lawful_taskWrites` says what the state before an operation has to be for that. -/
namespace SynapseKernel.Proc
open SynapseKernel.Word SynapseKernel.Kheap SynapseKernel.Links SynapseKernel.Runs

abbrev Writes := List (Nat × TaskState)

variable {s s' : Sched} {w : Writes} {q : Nat → List Nat} {p t : Nat} {cpu : RegsContext}

/-- The task was a zombie at some time. -/
def Dead (w : Writes) (t : Nat) : Prop := (t, TaskState.zombie) ∈ w

instance (w : Writes) (t : Nat) : Decidable (Dead w t) := inferInstanceAs (Decidable (_ ∈ _))

/-- Only `schedule` writes `running`, to the task it dispatches. -/
def Lawful : Writes → Prop
  | [] => True
  | (t, state) :: before =>
    (state = .ready ∨ state = .running → ¬ Dead before t) ∧
    (state = .running → before.lookup t ≠ some .blocked) ∧ Lawful before

instance decidableLawful : (w : Writes) → Decidable (Lawful w)
  | [] => inferInstanceAs (Decidable True)
  | (t, state) :: before =>
    have := decidableLawful before
    inferInstanceAs (Decidable ((state = .ready ∨ state = .running → ¬ Dead before t) ∧
      (state = .running → before.lookup t ≠ some .blocked) ∧ Lawful before))

/-! ## What each operation writes -/

/-- What is written when the current task is put back into its queue. -/
def requeueWrites (s : Sched) : Writes :=
  let charged := chargeCurrent s
  if (charged.tcb charged.currentTask).timeSlice = 0 then [(s.currentTask, .ready)] else []

/-- The writes of one call of `schedule`. -/
def scheduleWrites (s : Sched) : Writes :=
  if s.currentTask = 0 then []
  else
    let (next, s₁) := popReady maxPriority (afterSlice s)
    if next ≠ 0 then (next, .running) :: requeueWrites s
    else
      let (idle, _) := createIdleTask s₁
      if idle = 0 then requeueWrites s
      else (idle, .running) :: (idle, .ready) :: requeueWrites s

/-- The writes of `create_task`. -/
def createWrites (s : Sched) (entry : Nat) (name : TaskName) (priority : Nat) : Writes :=
  let (task, _) := createTask s entry name priority
  if task = 0 then [] else [(task, .ready)]

/-- The write to the queued task the executor finds. -/
def foundWrites (s : Sched) (action : AiAction) : Writes :=
  match action.type.queuedState, findTask s action.pid with
  | some state, some (.error t) => [(t, state)]
  | _, _ => []

/-- The writes of an operation apart from those of the `schedule` it calls. -/
def ownWrites (s : Sched) : TaskOp → Writes
  | .sched (.create entry name priority) => createWrites s entry name priority
  | .sched (.fork regs) =>
    if s.currentTask = 0 then []
    else createWrites s regs.eip ⟨"forked", forked_fits⟩ (s.tcb s.currentTask).priority
  | .sched (.schedule _) => []
  | .sched (.tick _ _) => []
  | .sched (.exit _) => if s.currentTask = 0 then [] else [(s.currentTask, .zombie)]
  | .execute action c _ =>
    if KillsCurrent s action c then [(s.currentTask, .zombie)]
    else if LooksUp s action c then foundWrites s action
    else []
  | .sleep _ => if s.currentTask = 0 then [] else [(s.currentTask, .blocked)]
  | .sleepRound endTicks _ =>
    if s.systemTicks < endTicks ∨ s.currentTask = 0 then [] else [(s.currentTask, .ready)]

def taskWrites (s : Sched) (op : TaskOp) : Writes :=
  (match scheduleEntry s op with
    | some s₁ => scheduleWrites s₁
    | none => []) ++ ownWrites s op

/-! ## The record follows the states -/

/-- Every task is in the state last written to it, `ready` if none was. -/
structure Follows (s : Sched) (w : Writes) : Prop where
  created : ∀ x ∈ w, x.1 ∈ s.created
  state : ∀ t ∈ s.created, (s.tcb t).state = (w.lookup t).getD .ready

theorem lookup_cons (w : Writes) (t x : Nat) (state : TaskState) :
    ((t, state) :: w).lookup x = if x = t then some state else w.lookup x := by
  rw [List.lookup_cons]
  by_cases hx : x = t
  · rw [if_pos hx, beq_iff_eq.mpr hx]
  · rw [if_neg hx, beq_eq_false_iff_ne.mpr hx]

theorem Follows.keep (h : Follows s w) (hc : s'.created = s.created)
    (ht : ∀ t ∈ s.created, (s'.tcb t).state = (s.tcb t).state) : Follows s' w := by
  refine ⟨fun x hx => hc ▸ h.created x hx, fun t hm => ?_⟩
  rw [hc] at hm
  rw [ht t hm]
  exact h.state t hm

theorem Follows.modify (h : Follows s w) {f : Task → Task} {state : TaskState}
    (ht : t ∈ s.created) (hf : ∀ x, (f x).state = state) :
    Follows (s.modify t f) ((t, state) :: w) := by
  refine ⟨List.forall_mem_cons.mpr ⟨ht, h.created⟩, fun x hx => ?_⟩
  rw [lookup_cons]
  simp only [Sched.modify]
  by_cases hxt : x = t
  · rw [if_pos hxt, hxt, Function.update_self]
    exact hf _
  · rw [if_neg hxt, Function.update_of_ne hxt]
    exact h.state x hx

/-- A new task is ready. -/
theorem Follows.add (h : Follows s w) (hfresh : t ∉ s.created)
    (hcreated : s'.created = t :: s.created) (hnew : (s'.tcb t).state = .ready)
    (hold : ∀ x ∈ s.created, (s'.tcb x).state = (s.tcb x).state) :
    Follows s' ((t, .ready) :: w) ∧ ¬ Dead w t := by
  refine ⟨⟨fun x hx => ?_, fun x hx => ?_⟩, fun hd => hfresh (h.created _ hd)⟩
  · rw [hcreated]
    rcases List.mem_cons.mp hx with rfl | hx
    · exact List.mem_cons_self
    · exact List.mem_cons_of_mem _ (h.created x hx)
  · rw [hcreated] at hx
    rw [lookup_cons]
    rcases List.mem_cons.mp hx with rfl | hx
    · rw [if_pos rfl]
      exact hnew
    · have hne : x ≠ t := fun he => hfresh (he ▸ hx)
      rw [if_neg hne, hold x hx]
      exact h.state x hx

theorem lawful_ready (w : Writes) (t : Nat) :
    Lawful ((t, .ready) :: w) ↔ ¬ Dead w t ∧ Lawful w :=
  ⟨fun h => ⟨h.1 (.inl rfl), h.2.2⟩, fun h => ⟨fun _ => h.1, fun he => (nomatch he), h.2⟩⟩

theorem lawful_running (w : Writes) (t : Nat) :
    Lawful ((t, .running) :: w) ↔ ¬ Dead w t ∧ w.lookup t ≠ some .blocked ∧ Lawful w :=
  ⟨fun h => ⟨h.1 (.inr rfl), h.2.1 rfl, h.2.2⟩, fun h => ⟨fun _ => h.1, fun _ => h.2.1, h.2.2⟩⟩

/-- A task may always be suspended or killed. -/
theorem lawful_stop (w : Writes) (t : Nat) {state : TaskState}
    (hs : state = .blocked ∨ state = .zombie) : Lawful ((t, state) :: w) ↔ Lawful w := by
  refine ⟨fun h => h.2.2, fun h => ⟨fun he => ?_, fun he => ?_, h⟩⟩
  · rcases hs with rfl | rfl
    · cases he with
      | inl he => cases he
      | inr he => cases he
    · cases he with
      | inl he => cases he
      | inr he => cases he
  · rcases hs with rfl | rfl
    · cases he
    · cases he

theorem dead_ready (w : Writes) (x t : Nat) : Dead ((x, .ready) :: w) t ↔ Dead w t := by
  rw [Dead, List.mem_cons]
  exact or_iff_right fun he => nomatch congrArg Prod.snd he

theorem Follows.blocked_iff (h : Follows s w) (ht : t ∈ s.created) :
    w.lookup t = some .blocked ↔ (s.tcb t).state = .blocked := by
  rw [h.state t ht]
  cases hl : w.lookup t with
  | none => exact ⟨fun he => (nomatch he), fun he => (nomatch he)⟩
  | some state => exact ⟨fun he => Option.some.inj he, congrArg some⟩

/-! ## One call of schedule -/

/-- The current task is in the last tick of its time slice. -/
def SliceOver (s : Sched) : Prop := (s.tcb s.currentTask).timeSlice = 1

/-- `t` is first in the highest ready queue that is not empty, the one of priority `p`. -/
structure First (s : Sched) (p t : Nat) : Prop where
  low : p < maxPriority
  head : s.readyQueue p = t
  ne : t ≠ 0
  above : ∀ r, p < r → r < maxPriority → s.readyQueue r = 0

/-- The task put back, if any, is not dead, and the task taken from the queues
is neither dead nor blocked. -/
structure SafeSchedule (w : Writes) (s : Sched) : Prop where
  requeue : SliceOver s → ¬ Dead w s.currentTask
  dispatch : ∀ p t, First s p t → (SliceOver s → (s.tcb s.currentTask).priority < p) →
    ¬ Dead w t ∧ (s.tcb t).state ≠ .blocked

theorem First.unique {r x : Nat} (h : First s p t) (h' : First s r x) : r = p ∧ x = t := by
  have hpr : p = r := by
    rcases Nat.lt_trichotomy p r with hlt | he | hlt
    · exact absurd (h'.head.symm.trans (h.above r hlt h'.low)) h'.ne
    · exact he
    · exact absurd (h.head.symm.trans (h'.above p hlt h.low)) h.ne
  subst hpr
  exact ⟨rfl, h'.head.symm.trans h.head⟩

theorem Queues.first (h : Queues s q) {rest : List Nat} (hp : p < maxPriority)
    (hq : q p = t :: rest) (habove : ∀ r < maxPriority, p < r → q r = []) : First s p t := by
  have hlist := h.list p
  rw [hq] at hlist
  refine ⟨hp, hlist.1, hlist.2.1, fun r hpr hr => ?_⟩
  have hnil := h.list r
  rw [habove r hr hpr] at hnil
  exact hnil

theorem First.mem (h : First s p t) (hq : Queues s q) : t ∈ q p := by
  have hlist := hq.list p
  rw [h.head] at hlist
  cases hqp : q p with
  | nil =>
    rw [hqp] at hlist
    exact absurd hlist h.ne
  | cons x l =>
    rw [hqp] at hlist
    rw [hlist.1]
    exact List.mem_cons_self

/-- The first task of the queues is not the current one. -/
theorem First.ne_current (h : First s p t) (hinv : SchedInv s q) (hon : Off s q ∨ AtBoot s q) :
    t ≠ s.currentTask := by
  have ht := h.mem hinv.toQueues
  rintro rfl
  rcases hon with hoff | hboot
  · exact hoff p ht
  · -- a task of priority 5 is queued, and the idle task is not
    have hp : p = 0 := hinv.unique_queue hboot.idle ht
    have hinit := hinv.list 5
    rw [h.above 5 (hp ▸ by decide) (by decide)] at hinit
    cases hq : q 5 with
    | nil => exact hboot.init hq
    | cons x l =>
      rw [hq] at hinit
      exact hinit.2.1 hinit.1.symm

/-- What `schedule` takes from the queues, the task it has just put back or the
one that was first before the call. -/
theorem popReady_afterSlice (h : SchedInv s q) (h0 : s.currentTask ≠ 0)
    (hon : Off s q ∨ AtBoot s q) :
    (∃ p t, t ∈ s.created ∧ t ≠ 0 ∧
      popReady maxPriority (afterSlice s) = (t, popped (afterSlice s) p t) ∧
      ((SliceOver s ∧ t = s.currentTask ∧
          ∀ r x, First s r x → ¬ (s.tcb s.currentTask).priority < r) ∨
        (First s p t ∧ (SliceOver s → (s.tcb s.currentTask).priority < p)))) ∨
    (popReady maxPriority (afterSlice s) = (0, afterSlice s) ∧ ¬ SliceOver s ∧
      (∀ r x, ¬ First s r x) ∧ SchedInv (afterSlice s) q) := by
  have hm := h.current.resolve_left h0
  rcases afterSlice_cases h h0 hon with ⟨hover, hoff, -, h₁⟩ | ⟨hlt, -, h₁⟩
  · set c := (s.tcb s.currentTask).priority with hc
    rcases popReady_cases h₁.toQueues maxPriority with
      ⟨hempty, -⟩ | ⟨p, t, rest, hp, hq, habove, he⟩
    · have hnil := hempty c (h.fit _ hm).low
      rw [Function.update_self] at hnil
      cases hnil
    · have hcreated : t ∈ s.created :=
        (touches_afterSlice s).created ▸ h₁.queued p t (hq ▸ List.mem_cons_self)
      have hne : t ≠ 0 := (h₁.list p).ne_zero t (hq ▸ List.mem_cons_self)
      refine .inl ⟨p, t, hcreated, hne, he, ?_⟩
      by_cases hpc : p = c
      · subst hpc
        rw [Function.update_self] at hq
        refine .inl ⟨hover, (List.cons.inj hq).1.symm, fun r x hfirst hlt => ?_⟩
        have hnil := habove r hfirst.low hlt
        rw [Function.update_of_ne (Nat.ne_of_gt hlt)] at hnil
        exact List.not_mem_nil (hnil ▸ hfirst.mem h.toQueues)
      · rw [Function.update_of_ne hpc] at hq
        have hcp : c < p := by
          refine Nat.lt_of_le_of_ne (not_lt.mp fun hlt => ?_) (Ne.symm hpc)
          have hnil := habove c (h.fit _ hm).low hlt
          rw [Function.update_self] at hnil
          cases hnil
        refine .inr ⟨h.toQueues.first hp hq fun r hr hpr => ?_, fun _ => hcp⟩
        have hnil := habove r hr hpr
        rwa [Function.update_of_ne (Nat.ne_of_gt (Nat.lt_trans hcp hpr))] at hnil
  · have hnot : ¬ SliceOver s := Nat.ne_of_gt hlt
    rcases popReady_cases h₁.toQueues maxPriority with
      ⟨hempty, he⟩ | ⟨p, t, rest, hp, hq, habove, he⟩
    · refine .inr ⟨he, hnot, fun r x hfirst => ?_, h₁⟩
      exact List.not_mem_nil (hempty r hfirst.low ▸ hfirst.mem h.toQueues)
    · exact .inl ⟨p, t, h.queued p t (hq ▸ List.mem_cons_self),
        (h.list p).ne_zero t (hq ▸ List.mem_cons_self), he,
        .inr ⟨h.toQueues.first hp hq habove, fun hover => absurd hover hnot⟩⟩

theorem sliceOver_iff (h : Sound s) (h0 : s.currentTask ≠ 0) :
    ((chargeCurrent s).tcb (chargeCurrent s).currentTask).timeSlice = 0 ↔ SliceOver s := by
  have hfit := h.fit (h.current h0)
  have hle : (s.tcb s.currentTask).timeSlice ≤ 10 := hfit.le
  have hpos := hfit.pos
  have hslice : ((chargeCurrent s).tcb (chargeCurrent s).currentTask).timeSlice =
      (s.tcb s.currentTask).timeSlice - 1 := by
    simp only [chargeCurrent, Sched.modify, Function.update_self]
    exact sub32_of_le (by omega) hpos
  rw [hslice, SliceOver]
  omega

/-- What putting the current task back writes. -/
theorem requeue_cases (h : Sound s) (h0 : s.currentTask ≠ 0) (hf : Follows s w) :
    Follows (afterSlice s) (requeueWrites s ++ w) ∧
      ((SliceOver s ∧ requeueWrites s = [(s.currentTask, .ready)]) ∨
        (¬ SliceOver s ∧ requeueWrites s = [])) := by
  have hcharge : Follows (chargeCurrent s) w := by
    refine hf.keep rfl fun t _ => s.modify_field Task.state ?_ _ t
    exact fun _ => rfl
  by_cases hover : SliceOver s
  · have hif := (sliceOver_iff h h0).mpr hover
    have hready : Follows ((chargeCurrent s).modify s.currentTask fun t =>
        { t with
          state := .ready, timeSlice := taskTimeSlice
          siblingNext := (chargeCurrent s).readyQueue t.priority }) ((s.currentTask, .ready) :: w) :=
      hcharge.modify (h.current h0) fun _ => rfl
    refine ⟨?_, .inl ⟨hover, if_pos hif⟩⟩
    rw [requeueWrites, if_pos hif, afterSlice, if_pos hif]
    exact hready.keep rfl fun _ _ => rfl
  · have hif := mt (sliceOver_iff h h0).mp hover
    refine ⟨?_, .inr ⟨hover, if_neg hif⟩⟩
    rw [requeueWrites, if_neg hif, afterSlice, if_neg hif]
    exact hcharge

theorem lawful_requeueWrites (h : Sound s) (h0 : s.currentTask ≠ 0) (hf : Follows s w) :
    Lawful (requeueWrites s ++ w) ↔ (SliceOver s → ¬ Dead w s.currentTask) ∧ Lawful w := by
  rcases (requeue_cases h h0 hf).2 with ⟨hover, he⟩ | ⟨hover, he⟩
  · rw [he]
    exact (lawful_ready w _).trans (and_congr_left' ⟨fun hd _ => hd, fun hd => hd hover⟩)
  · rw [he]
    exact ⟨fun hl => ⟨fun ho => absurd ho hover, hl⟩, fun hl => hl.2⟩

theorem dead_requeueWrites (s : Sched) (w : Writes) (t : Nat) :
    Dead (requeueWrites s ++ w) t ↔ Dead w t := by
  simp only [requeueWrites]
  split
  · exact dead_ready w _ t
  · exact Iff.rfl

theorem Follows.popped (h : Follows s w) (p t : Nat) : Follows (popped s p t) w := by
  refine h.keep rfl fun x _ => Sched.modify_field Task.state ?_ _ t x
  exact fun _ => rfl

theorem Follows.dispatch (h : Follows s w) (ht : t ∈ s.created) (cpu : RegsContext) :
    Follows (dispatch s cpu t) ((t, .running) :: w) := by
  have hrun : Follows (s.modify t fun x => { x with state := .running, lastScheduled := 0 })
      ((t, .running) :: w) := h.modify ht fun _ => rfl
  simp only [Proc.dispatch]
  split
  · refine hrun.keep (touches_switchRecords _ cpu _).created fun x _ => ?_
    rw [switchRecords]
    split
    · rfl
    · refine Sched.modify_field Task.state ?_ _ _ x
      exact fun _ => rfl
  · exact hrun

theorem Follows.refused (h : Follows s w) (hinv : SchedInv s q) (hr : Refused s s') :
    Follows s' w :=
  h.keep hr.created fun t ht => by rw [hr.tcb t (hinv.handed t ht).2]

/-- A task is taken from the queues. -/
theorem schedule_popped (h0 : s.currentTask ≠ 0) (hne : t ≠ 0)
    (he : popReady maxPriority (afterSlice s) = (t, popped (afterSlice s) p t))
    (cpu : RegsContext) :
    schedule s cpu = dispatch (popped (afterSlice s) p t) cpu t ∧
      scheduleWrites s = (t, .running) :: requeueWrites s := by
  constructor
  · rw [schedule_eq h0, he]
    exact if_pos hne
  · rw [scheduleWrites, if_neg h0, he]
    exact if_pos hne

/-- The queues are empty. -/
theorem schedule_idle (h0 : s.currentTask ≠ 0)
    (he : popReady maxPriority (afterSlice s) = (0, afterSlice s)) (cpu : RegsContext) :
    (schedule s cpu =
      if (createIdleTask (afterSlice s)).1 = 0 then (createIdleTask (afterSlice s)).2
      else dispatch (createIdleTask (afterSlice s)).2 cpu (createIdleTask (afterSlice s)).1) ∧
    scheduleWrites s =
      if (createIdleTask (afterSlice s)).1 = 0 then requeueWrites s
      else ((createIdleTask (afterSlice s)).1, .running) ::
        ((createIdleTask (afterSlice s)).1, .ready) :: requeueWrites s := by
  constructor
  · rw [schedule_eq h0, he]
    exact if_neg (not_not.mpr rfl)
  · rw [scheduleWrites, if_neg h0, he]
    exact if_neg (not_not.mpr rfl)

/-- The task that was just put back runs again. -/
theorem lawful_redispatch (h : Sound s) (h0 : s.currentTask ≠ 0) (hf : Follows s w)
    (hover : SliceOver s) (hlow : ∀ r x, First s r x → ¬ (s.tcb s.currentTask).priority < r) :
    Lawful ((s.currentTask, .running) :: (requeueWrites s ++ w)) ↔
      (s.currentTask ≠ 0 → SafeSchedule w s) ∧ Lawful w := by
  have hreq := (requeue_cases h h0 hf).2
  have hlook : (requeueWrites s ++ w).lookup s.currentTask ≠ some .blocked := by
    rw [(hreq.resolve_right fun hr => hr.1 hover).2, List.singleton_append, lookup_cons,
      if_pos rfl]
    intro hb
    cases hb
  rw [lawful_running, lawful_requeueWrites h h0 hf, dead_requeueWrites]
  constructor
  · rintro ⟨hd, -, -, hl⟩
    exact ⟨fun _ => ⟨fun _ => hd, fun r x hr hlt => absurd (hlt hover) (hlow r x hr)⟩, hl⟩
  · rintro ⟨hs, hl⟩
    exact ⟨(hs h0).requeue hover, hlook, fun _ => (hs h0).requeue hover, hl⟩

/-- The first task of the queues runs. -/
theorem lawful_dispatch {p : Nat} (h : Sound s) (h0 : s.currentTask ≠ 0) (hf : Follows s w)
    (ht : t ∈ s.created) (hne : t ≠ s.currentTask) (hfirst : First s p t)
    (hlt : SliceOver s → (s.tcb s.currentTask).priority < p) :
    Lawful ((t, .running) :: (requeueWrites s ++ w)) ↔
      (s.currentTask ≠ 0 → SafeSchedule w s) ∧ Lawful w := by
  have hlook : (requeueWrites s ++ w).lookup t = some .blocked ↔ (s.tcb t).state = .blocked := by
    rw [← hf.blocked_iff ht]
    rcases (requeue_cases h h0 hf).2 with ⟨-, hr⟩ | ⟨-, hr⟩
    · rw [hr, List.singleton_append, lookup_cons, if_neg hne]
    · rw [hr, List.nil_append]
  rw [lawful_running, lawful_requeueWrites h h0 hf, dead_requeueWrites]
  constructor
  · rintro ⟨hd, hb, hr, hl⟩
    refine ⟨fun _ => ⟨hr, fun r x hx _ => ?_⟩, hl⟩
    obtain ⟨-, rfl⟩ := hfirst.unique hx
    exact ⟨hd, fun hs => hb (hlook.mpr hs)⟩
  · rintro ⟨hs, hl⟩
    obtain ⟨hd, hb⟩ := (hs h0).dispatch p t hfirst hlt
    exact ⟨hd, fun hx => hb (hlook.mp hx), (hs h0).requeue, hl⟩

/-- With empty queues the idle task is made and runs, or nothing is written. -/
theorem idle_writes (h : Sound s) (h0 : s.currentTask ≠ 0) (hf : Follows s w)
    (he : popReady maxPriority (afterSlice s) = (0, afterSlice s)) (hsafe : SafeSchedule w s)
    (hinv : SchedInv (afterSlice s) q) (cpu : RegsContext) :
    Follows (schedule s cpu) (scheduleWrites s ++ w) ∧
      (Lawful (scheduleWrites s ++ w) ↔
        (s.currentTask ≠ 0 → SafeSchedule w s) ∧ Lawful w) := by
  obtain ⟨hafter, -⟩ := requeue_cases h h0 hf
  have hlawful := lawful_requeueWrites h h0 hf
  obtain ⟨hschedule, hwrites⟩ := schedule_idle h0 he cpu
  rw [hschedule, hwrites]
  rcases createIdleTask_cases (afterSlice s) with ⟨-, hc⟩ | ⟨-, hc, hr⟩
  · rw [hc, if_neg (Nat.succ_ne_zero _), if_neg (Nat.succ_ne_zero _), List.cons_append,
      List.cons_append]
    have hidle : (withIdleTask (afterSlice s)).tcb ((afterSlice s).heap.requests + 1) =
        newIdleTask (afterSlice s) := Function.update_self _ _ _
    have hold : ∀ x ∈ (afterSlice s).created,
        (withIdleTask (afterSlice s)).tcb x = (afterSlice s).tcb x := fun x hx =>
      hinv.update_old hx
    obtain ⟨hadd, hnew⟩ := hafter.add hinv.fresh rfl (congrArg Task.state hidle)
      (fun x hx => congrArg Task.state (hold x hx))
    refine ⟨hadd.dispatch List.mem_cons_self cpu, ?_⟩
    rw [lawful_running, lawful_ready, hlawful, dead_ready, lookup_cons, if_pos rfl]
    constructor
    · rintro ⟨-, -, -, -, hl⟩
      exact ⟨fun _ => hsafe, hl⟩
    · rintro ⟨-, hl⟩
      refine ⟨hnew, fun hb => ?_, hnew, hsafe.requeue, hl⟩
      cases hb
  · rw [if_pos hc, if_pos hc, hlawful]
    exact ⟨hafter.refused hinv hr, and_congr_left' ⟨fun _ _ => hsafe, fun _ => hsafe.requeue⟩⟩

/-- **What one call of `schedule` writes**, and when that is lawful. -/
theorem schedule_writes (h : Sound s) (hf : Follows s w) (cpu : RegsContext) :
    Follows (schedule s cpu) (scheduleWrites s ++ w) ∧
      (Lawful (scheduleWrites s ++ w) ↔
        (s.currentTask ≠ 0 → SafeSchedule w s) ∧ Lawful w) := by
  by_cases h0 : s.currentTask = 0
  · rw [schedule, scheduleWrites, if_pos h0, if_pos h0]
    exact ⟨hf, ⟨fun hl => ⟨fun hne => absurd h0 hne, hl⟩, fun hl => hl.2⟩⟩
  obtain ⟨q, hinv, hon⟩ := h
  have h : Sound s := ⟨q, hinv, hon⟩
  rcases popReady_afterSlice hinv h0 hon with ⟨p, t, ht, hne, he, hpick⟩ | ⟨he, hover, hno, hinv'⟩
  · obtain ⟨hschedule, hwrites⟩ := schedule_popped h0 hne he cpu
    have hafter := (requeue_cases h h0 hf).1
    rw [hschedule, hwrites, List.cons_append]
    refine ⟨(hafter.popped p t).dispatch ((touches_afterSlice s).created.symm ▸ ht) cpu, ?_⟩
    rcases hpick with ⟨hover, rfl, hlow⟩ | ⟨hfirst, hlt⟩
    · exact lawful_redispatch h h0 hf hover hlow
    · exact lawful_dispatch h h0 hf ht (hfirst.ne_current hinv hon) hfirst hlt
  · refine idle_writes h h0 hf he ?_ hinv' cpu
    exact ⟨fun ho => absurd ho hover, fun r x hx => absurd hx (hno r x)⟩

end SynapseKernel.Proc
