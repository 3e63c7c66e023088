import SynapseKernel.Proc.SchedQueues

/-! # One call of schedule

`schedule` charges the current task and puts it back if its time slice is over
(`afterSlice`), takes the first task off the highest nonempty queue or makes an
idle task (`schedule_cases`), and switches to it. -/
namespace SynapseKernel.Proc
open SynapseKernel.Word SynapseKernel.Kheap SynapseKernel.Links

variable {s s' s'' : Sched} {q : Nat → List Nat} {p t : Nat} {rest : List Nat} {cpu : RegsContext}

/-- The state in which `schedule` looks for the next task. -/
def afterSlice (s : Sched) : Sched :=
  let s := chargeCurrent s
  if (s.tcb s.currentTask).timeSlice = 0 then requeueCurrent s else s

/-- The state after `t` is taken off the head of queue `p`. -/
def popped (s : Sched) (p t : Nat) : Sched :=
  { s with readyQueue := Function.update s.readyQueue p (s.next t) }.modify t fun x =>
    { x with siblingNext := 0 }

/-! ## What scheduling leaves alone -/

/-- Only queues, the choice of the current task and the rest of the records change. -/
structure Touches (s s' : Sched) : Prop where
  heap : s'.heap = s.heap
  created : s'.created = s.created
  exited : s'.exited = s.exited
  freedDirs : s'.freedDirs = s.freedDirs
  priority : ∀ t, (s'.tcb t).priority = (s.tcb t).priority
  pageDir : ∀ t, (s'.tcb t).pageDir = (s.tcb t).pageDir

theorem Touches.refl (s : Sched) : Touches s s :=
  ⟨rfl, rfl, rfl, rfl, fun _ => rfl, fun _ => rfl⟩

theorem Touches.trans (h : Touches s s') (h' : Touches s' s'') : Touches s s'' :=
  ⟨h'.heap.trans h.heap, h'.created.trans h.created, h'.exited.trans h.exited,
    h'.freedDirs.trans h.freedDirs, fun t => (h'.priority t).trans (h.priority t),
    fun t => (h'.pageDir t).trans (h.pageDir t)⟩

theorem Touches.modify {task : Nat} {f : Task → Task}
    (hf : ∀ x, (f x).priority = x.priority ∧ (f x).pageDir = x.pageDir) :
    Touches s (s.modify task f) :=
  ⟨rfl, rfl, rfl, rfl, s.modify_field _ (fun x => (hf x).1) task,
    s.modify_field _ (fun x => (hf x).2) task⟩

theorem touches_chargeCurrent (s : Sched) : Touches s (chargeCurrent s) :=
  .modify fun _ => ⟨rfl, rfl⟩

theorem touches_requeueCurrent (s : Sched) : Touches s (requeueCurrent s) := by
  have hmod : Touches s (s.modify s.currentTask fun t =>
      { t with
        state := .ready, timeSlice := taskTimeSlice, siblingNext := s.readyQueue t.priority }) :=
    .modify fun _ => ⟨rfl, rfl⟩
  exact ⟨rfl, rfl, rfl, rfl, hmod.priority, hmod.pageDir⟩

theorem touches_afterSlice (s : Sched) : Touches s (afterSlice s) := by
  have hcharge := touches_chargeCurrent s
  rw [afterSlice]
  split
  · exact hcharge.trans (touches_requeueCurrent _)
  · exact hcharge

theorem touches_popped (s : Sched) (p t : Nat) : Touches s (popped s p t) := by
  have hqueue : Touches s { s with readyQueue := Function.update s.readyQueue p (s.next t) } :=
    ⟨rfl, rfl, rfl, rfl, fun _ => rfl, fun _ => rfl⟩
  exact hqueue.trans (.modify fun _ => ⟨rfl, rfl⟩)

theorem touches_switchRecords (s : Sched) (cpu : RegsContext) (old : Nat) :
    Touches s (switchRecords s cpu old) := by
  rw [switchRecords]
  split
  · exact .refl s
  · exact .modify fun _ => ⟨rfl, rfl⟩

theorem touches_dispatch (s : Sched) (cpu : RegsContext) (t : Nat) :
    Touches s (dispatch s cpu t) := by
  have hmod : Touches s (s.modify t fun x => { x with state := .running, lastScheduled := 0 }) :=
    .modify fun _ => ⟨rfl, rfl⟩
  simp only [dispatch]
  split
  · refine hmod.trans (Touches.trans ?_ (touches_switchRecords _ cpu _))
    exact ⟨rfl, rfl, rfl, rfl, fun _ => rfl, fun _ => rfl⟩
  · exact hmod

theorem currentTask_switchRecords (s : Sched) (cpu : RegsContext) (old : Nat) :
    (switchRecords s cpu old).currentTask = s.currentTask := by
  rw [switchRecords]
  split <;> rfl

theorem currentTask_dispatch (s : Sched) (cpu : RegsContext) (t : Nat) :
    (dispatch s cpu t).currentTask = t := by
  simp only [dispatch]
  split
  · exact currentTask_switchRecords _ _ _
  · next heq => exact not_not.mp heq

/-! ## The invariant through the parts of schedule -/

/-- A task with time left is charged for one tick. -/
theorem SchedInv.chargeCurrent (h : SchedInv s q)
    (hslice : 1 < (s.tcb s.currentTask).timeSlice) : SchedInv (chargeCurrent s) q := by
  refine h.modify (fun _ => rfl) (fun _ => rfl) fun hm => ?_
  have hfit := h.fit _ hm
  have hle : (s.tcb s.currentTask).timeSlice ≤ 10 := hfit.le
  have hsub : sub32 (s.tcb s.currentTask).timeSlice 1 = (s.tcb s.currentTask).timeSlice - 1 :=
    sub32_of_le (by omega) (by omega)
  exact ⟨hfit.low, hsub ▸ Nat.sub_pos_of_lt hslice, hsub ▸ Nat.le_trans (Nat.sub_le _ _) hle,
    hfit.dir⟩

/-- The records after the current task is put back. -/
theorem tcb_requeueCurrent (s : Sched) :
    (requeueCurrent (chargeCurrent s)).tcb = Function.update s.tcb s.currentTask
      { s.tcb s.currentTask with
        totalRuntime := u32 ((s.tcb s.currentTask).totalRuntime + 1), state := .ready
        timeSlice := taskTimeSlice
        siblingNext := s.readyQueue (s.tcb s.currentTask).priority } := by
  simp only [requeueCurrent, chargeCurrent, Sched.modify, Function.update_idem,
    Function.update_self]

theorem readyQueue_requeueCurrent (s : Sched) :
    (requeueCurrent (chargeCurrent s)).readyQueue =
      Function.update s.readyQueue (s.tcb s.currentTask).priority s.currentTask := by
  simp only [requeueCurrent, chargeCurrent, Sched.modify, Function.update_self]

/-- A task whose time is over goes to the head of its queue. -/
theorem Queues.requeueCurrent (h : Queues s q) (h0 : s.currentTask ≠ 0) (hoff : Off s q)
    (hp : (s.tcb s.currentTask).priority = p) :
    Queues (requeueCurrent (chargeCurrent s)) (Function.update q p (s.currentTask :: q p)) := by
  subst hp
  refine h.push h0 hoff (readyQueue_requeueCurrent s) ?_ ?_ fun x hx => ?_
  · rw [Sched.next, tcb_requeueCurrent, Function.update_self]
  · rw [tcb_requeueCurrent, Function.update_self]
  · rw [tcb_requeueCurrent, Function.update_of_ne hx]

/-- It has a new slice there. -/
theorem SchedInv.requeueCurrent (h : SchedInv s q) (hm : s.currentTask ∈ s.created)
    (hoff : Off s q) (hp : (s.tcb s.currentTask).priority = p) :
    SchedInv (requeueCurrent (Proc.chargeCurrent s))
      (Function.update q p (s.currentTask :: q p)) := by
  have hfit := h.fit _ hm
  refine ⟨h.toQueues.requeueCurrent (Nat.ne_of_gt (h.handed _ hm).1) hoff hp,
    h.sane, fun r x hx => ?_, h.handed, fun x hx => ?_, .inl rfl⟩
  · by_cases hr : r = p
    · subst hr
      rw [Function.update_self] at hx
      rcases List.mem_cons.mp hx with rfl | hx
      · exact hm
      · exact h.queued r x hx
    · rw [Function.update_of_ne hr] at hx
      exact h.queued r x hx
  · rw [tcb_requeueCurrent]
    by_cases hxc : x = s.currentTask
    · rw [hxc, Function.update_self]
      exact ⟨hfit.low, Nat.zero_lt_succ _, Nat.le_refl _, hfit.dir⟩
    · rw [Function.update_of_ne hxc]
      exact h.fit x hx

theorem Queues.popped (h : Queues s q) (hq : q p = t :: rest) :
    Queues (popped s p t) (Function.update q p rest) :=
  h.pop hq rfl fun _ hx => Function.update_of_ne hx _ _

theorem SchedInv.popped (h : SchedInv s q) (hq : q p = t :: rest) :
    SchedInv (popped s p t) (Function.update q p rest) := by
  refine ⟨h.toQueues.popped hq, h.sane,
    fun r x hx => ?_, h.handed, fun x hx => ?_, h.current⟩
  · by_cases hr : r = p
    · subst hr
      rw [Function.update_self] at hx
      exact h.queued r x (hq ▸ List.mem_cons_of_mem _ hx)
    · rw [Function.update_of_ne hr] at hx
      exact h.queued r x hx
  · simp only [Proc.popped, Sched.modify]
    by_cases hxt : x = t
    · rw [hxt, Function.update_self]
      exact (h.fit t (hxt ▸ hx)).same rfl rfl rfl
    · rw [Function.update_of_ne hxt]
      exact h.fit x hx

theorem SchedInv.dispatch (h : SchedInv s q) (ht : t ∈ s.created) :
    SchedInv (dispatch s cpu t) q := by
  have hrun : SchedInv (s.modify t fun x => { x with state := .running, lastScheduled := 0 }) q :=
    h.inert ⟨fun _ => rfl, fun _ => rfl, fun _ => rfl⟩ fun hm => (h.fit t hm).dir
  simp only [Proc.dispatch]
  split
  · rw [switchRecords]
    have hset : SchedInv { s.modify t (fun x => { x with state := .running, lastScheduled := 0 })
        with currentTask := t } q :=
      hrun.congr hrun.sane rfl rfl rfl rfl (.inr ht)
    split
    · exact hset
    · exact hset.inert ⟨fun _ => rfl, fun _ => rfl, fun _ => rfl⟩ fun hm => (hset.fit _ hm).dir
  · exact hrun

theorem Queues.dispatch (h : Queues s q) (cpu : RegsContext) (t : Nat) :
    Queues (dispatch s cpu t) q := by
  have hrun : Queues (s.modify t fun x => { x with state := .running, lastScheduled := 0 }) q :=
    h.modify (fun _ => rfl) fun _ => rfl
  simp only [Proc.dispatch]
  split
  · rw [switchRecords]
    split
    · exact hrun.congr rfl fun _ _ _ => ⟨rfl, rfl⟩
    · have hset : Queues { s.modify t (fun x => { x with state := .running, lastScheduled := 0 })
          with currentTask := t } q := hrun.congr rfl fun _ _ _ => ⟨rfl, rfl⟩
      exact hset.modify (fun _ => rfl) fun _ => rfl
  · exact hrun

/-- Taken off its queue, the task is in none. -/
theorem Queues.popped_off (h : Queues s q) (hq : q p = t :: rest) (r : Nat) :
    t ∉ Function.update q p rest r := by
  have hnodup := (h.list p).nodup
  have hmem : t ∈ q p := hq ▸ List.mem_cons_self
  rw [hq] at hnodup
  by_cases hr : r = p
  · subst hr
    rw [Function.update_self]
    exact (List.nodup_cons.mp hnodup).1
  · rw [Function.update_of_ne hr]
    exact fun hm => hr (h.unique_queue hmem hm)

/-! ## The whole call -/

/-- The scan takes the head of the highest nonempty queue. -/
theorem popReady_cases (h : Queues s q) (n : Nat) :
    ((∀ r < n, q r = []) ∧ popReady n s = (0, s)) ∨
    ∃ p t rest, p < n ∧ q p = t :: rest ∧ (∀ r < n, p < r → q r = []) ∧
      popReady n s = (t, popped s p t) := by
  induction n with
  | zero => exact .inl ⟨fun r hr => absurd hr (Nat.not_lt_zero r), rfl⟩
  | succ n ih =>
    have hlist := h.list n
    cases hq : q n with
    | nil =>
      rw [hq] at hlist
      have hnull : s.readyQueue n = 0 := hlist
      have hskip : popReady (n + 1) s = popReady n s := by
        rw [popReady]
        exact if_neg (not_not.mpr hnull)
      have hlt : ∀ r < n + 1, r < n ∨ q r = [] := by
        intro r hr
        rcases Nat.lt_succ_iff_lt_or_eq.mp hr with hr | rfl
        · exact .inl hr
        · exact .inr hq
      rw [hskip]
      rcases ih with ⟨hempty, he⟩ | ⟨p, t, rest, hp, hqp, habove, he⟩
      · exact .inl ⟨fun r hr => (hlt r hr).elim (hempty r) id, he⟩
      · refine .inr ⟨p, t, rest, Nat.lt_succ_of_lt hp, hqp, fun r hr hpr => ?_, he⟩
        exact (hlt r hr).elim (fun hr => habove r hr hpr) id
    | cons t rest =>
      rw [hq] at hlist
      obtain ⟨hhead, hne, -⟩ := hlist
      refine .inr ⟨n, t, rest, Nat.lt_succ_self n, hq, fun r hr hnr => ?_, ?_⟩
      · omega
      · rw [popReady, hhead]
        exact if_pos hne

/-- Where `schedule` looks for the next task, by whether the time slice is over. -/
theorem afterSlice_cases (h : SchedInv s q) (h0 : s.currentTask ≠ 0)
    (hon : Off s q ∨ AtBoot s q) :
    ((s.tcb s.currentTask).timeSlice = 1 ∧ Off s q ∧ (afterSlice s).currentTask = 0 ∧
      SchedInv (afterSlice s) (Function.update q (s.tcb s.currentTask).priority
        (s.currentTask :: q (s.tcb s.currentTask).priority))) ∨
    (1 < (s.tcb s.currentTask).timeSlice ∧ afterSlice s = chargeCurrent s ∧
      SchedInv (afterSlice s) q) := by
  have hm := h.current.resolve_left h0
  have hfit := h.fit _ hm
  have hle : (s.tcb s.currentTask).timeSlice ≤ 10 := hfit.le
  have hslice : ((chargeCurrent s).tcb (chargeCurrent s).currentTask).timeSlice =
      (s.tcb s.currentTask).timeSlice - 1 := by
    simp only [Proc.chargeCurrent, Sched.modify, Function.update_self]
    exact sub32_of_le (by omega) hfit.pos
  by_cases h1 : (s.tcb s.currentTask).timeSlice = 1
  · have hover : afterSlice s = requeueCurrent (chargeCurrent s) := by
      rw [afterSlice]
      exact if_pos (hslice.trans (by rw [h1]))
    -- at boot the time slice is whole
    have hoff : Off s q := hon.resolve_right fun hb => by
      have hwhole := hb.slice
      rw [h1] at hwhole
      cases hwhole
    refine .inl ⟨h1, hoff, ?_, ?_⟩
    · rw [hover]
      rfl
    · rw [hover]
      exact h.requeueCurrent hm hoff rfl
  · have hlt : 1 < (s.tcb s.currentTask).timeSlice := Nat.lt_of_le_of_ne hfit.pos (Ne.symm h1)
    have hgo : afterSlice s = chargeCurrent s := by
      rw [afterSlice]
      exact if_neg (by rw [hslice]; omega)
    exact .inr ⟨hlt, hgo, hgo ▸ h.chargeCurrent hlt⟩

theorem exists_afterSlice (h : SchedInv s q) (h0 : s.currentTask ≠ 0)
    (hon : Off s q ∨ AtBoot s q) : ∃ q', SchedInv (afterSlice s) q' := by
  rcases afterSlice_cases h h0 hon with ⟨-, -, -, h'⟩ | ⟨-, -, h'⟩
  · exact ⟨_, h'⟩
  · exact ⟨_, h'⟩

theorem schedule_eq (h0 : s.currentTask ≠ 0) (cpu : RegsContext) : schedule s cpu =
    if (popReady maxPriority (afterSlice s)).1 ≠ 0 then
      dispatch (popReady maxPriority (afterSlice s)).2 cpu (popReady maxPriority (afterSlice s)).1
    else if (createIdleTask (popReady maxPriority (afterSlice s)).2).1 = 0 then
      (createIdleTask (popReady maxPriority (afterSlice s)).2).2
    else dispatch (createIdleTask (popReady maxPriority (afterSlice s)).2).2 cpu
      (createIdleTask (popReady maxPriority (afterSlice s)).2).1 := by
  rw [schedule, if_neg h0]
  rfl

/-- Everything `schedule` can do with a current task. -/
theorem schedule_cases (h0 : s.currentTask ≠ 0) (h : SchedInv (afterSlice s) q)
    (cpu : RegsContext) :
    (∃ p t rest, q p = t :: rest ∧ (∀ r, p < r → q r = []) ∧
      schedule s cpu = dispatch (popped (afterSlice s) p t) cpu t) ∨
    ((∀ p, q p = []) ∧
      (schedule s cpu = dispatch (withIdleTask (afterSlice s)) cpu (s.heap.requests + 1) ∨
        Refused (afterSlice s) (schedule s cpu))) := by
  have hsched := schedule_eq h0 cpu
  rcases popReady_cases h.toQueues maxPriority with
    ⟨hempty, he⟩ | ⟨p, t, rest, -, hq, habove, he⟩
  · rw [he] at hsched
    refine .inr ⟨fun p => ?_, ?_⟩
    · by_cases hp : p < maxPriority
      · exact hempty p hp
      · exact h.empty_of_le (not_lt.mp hp)
    · rw [if_neg (not_not.mpr rfl)] at hsched
      rcases createIdleTask_cases (afterSlice s) with ⟨-, hc⟩ | ⟨-, hc, hr⟩
      · rw [hc, if_neg (Nat.succ_ne_zero _), (touches_afterSlice s).heap] at hsched
        exact .inl hsched
      · rw [if_pos hc] at hsched
        exact .inr (hsched ▸ hr)
  · refine .inl ⟨p, t, rest, hq, fun r hpr => ?_, ?_⟩
    · by_cases hr : r < maxPriority
      · exact habove r hr hpr
      · exact h.empty_of_le (not_lt.mp hr)
    · have hlist := h.list p
      rw [hq] at hlist
      rw [hsched, he]
      exact if_pos hlist.2.1

end SynapseKernel.Proc
