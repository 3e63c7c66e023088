import SynapseKernel.Proc.SchedRuns

/-! # When a task is lost

`schedule` puts the current task back only when its time slice is over; a task
that is displaced earlier is in no queue and not current. The first call after
`sched_init` displaces the idle task, which `sched_init` left queued as well;
the second displaces a task that is not queued. -/
namespace SynapseKernel.Proc
open SynapseKernel.Word SynapseKernel.Kheap SynapseKernel.Links SynapseKernel.Runs

variable {s s' : Sched} {q : Nat → List Nat} {p t : Nat} {cpu : RegsContext} {regs : Regs}

/-- The task runs, or is linked in the ready queue of its priority. -/
def Runnable (s : Sched) (t : Nat) : Prop :=
  t = s.currentTask ∨ Linked s.next (s.readyQueue (s.tcb t).priority) t

def AllRunnable (s : Sched) : Prop := ∀ t ∈ s.created, Runnable s t

/-- The operation calls `schedule`. -/
def SchedOp.dispatches : SchedOp → Bool
  | .create _ _ _ => false
  | .fork _ => false
  | .schedule _ => true
  | .tick _ _ => true
  | .exit _ => true

def SchedOp.exits : SchedOp → Bool
  | .exit _ => true
  | _ => false

theorem SchedInv.runnable_iff (h : SchedInv s q) :
    Runnable s t ↔ t = s.currentTask ∨ t ∈ q (s.tcb t).priority :=
  or_congr_right (h.list _).linked_iff

/-! ## Before the first call and after it -/

/-- Nothing was scheduled since `sched_init`. -/
structure Unscheduled (s : Sched) (q : Nat → List Nat) : Prop where
  inv : SchedInv s q
  boot : AtBoot s q
  queued : ∀ t ∈ s.created, t ∈ q (s.tcb t).priority
  slice : ∀ t ∈ s.created, (s.tcb t).timeSlice = taskTimeSlice

/-- `schedule` was called once: the current task has a whole time slice and is
in no queue, and the idle task is back in its own. -/
structure Scheduled (s : Sched) (q : Nat → List Nat) : Prop where
  inv : SchedInv s q
  current : s.currentTask ≠ 0
  off : Off s q
  slice : (s.tcb s.currentTask).timeSlice = taskTimeSlice
  idle : q 0 ≠ []
  queued : ∀ t ∈ s.created, t = s.currentTask ∨ t ∈ q (s.tcb t).priority

/-- The tasks, which of them is current, and what `schedule` reads of them. -/
structure SameTasks (s s' : Sched) : Prop where
  created : s'.created = s.created
  currentTask : s'.currentTask = s.currentTask
  priority : ∀ t ∈ s.created, (s'.tcb t).priority = (s.tcb t).priority
  timeSlice : ∀ t ∈ s.created, (s'.tcb t).timeSlice = (s.tcb t).timeSlice

theorem SameTasks.refused (h : SchedInv s q) (hr : Refused s s') : SameTasks s s' := by
  have htcb : ∀ t ∈ s.created, s'.tcb t = s.tcb t := fun t ht => hr.tcb t (h.handed t ht).2
  exact ⟨hr.created, hr.currentTask, fun t ht => by rw [htcb t ht], fun t ht => by rw [htcb t ht]⟩

theorem SameTasks.inert {f : Task → Task} (hf : Inert f) (task : Nat) :
    SameTasks s (s.modify task f) :=
  ⟨rfl, rfl, fun t _ => s.modify_field _ hf.priority task t,
    fun t _ => s.modify_field _ hf.timeSlice task t⟩

theorem Unscheduled.congr (h : Unscheduled s q) (hinv : SchedInv s' q) (hs : SameTasks s s') :
    Unscheduled s' q := by
  have hm := h.inv.queued 0 _ h.boot.idle
  refine ⟨hinv, h.boot.congr hs.currentTask (hs.timeSlice _ hm), fun t ht => ?_, fun t ht => ?_⟩
  · rw [hs.created] at ht
    rw [hs.priority t ht]
    exact h.queued t ht
  · rw [hs.created] at ht
    rw [hs.timeSlice t ht]
    exact h.slice t ht

theorem Scheduled.congr (h : Scheduled s q) (hinv : SchedInv s' q) (hs : SameTasks s s') :
    Scheduled s' q := by
  have hm := h.inv.current.resolve_left h.current
  refine ⟨hinv, ?_, h.off.congr hs.currentTask, ?_, h.idle, fun t ht => ?_⟩
  · rw [hs.currentTask]
    exact h.current
  · rw [hs.currentTask, hs.timeSlice _ hm]
    exact h.slice
  · rw [hs.created] at ht
    rw [hs.priority t ht, hs.currentTask]
    exact h.queued t ht

section WithTask
variable (entry : Nat) (name : TaskName)

theorem withTask_new (s : Sched) (q : Nat → List Nat) :
    s.heap.requests + 1 ∈ Function.update q p ((s.heap.requests + 1) :: q p)
      ((withTask s entry name p).tcb (s.heap.requests + 1)).priority := by
  have hprio : ((withTask s entry name p).tcb (s.heap.requests + 1)).priority = p := by
    simp only [withTask, Function.update_self, newTask]
  rw [hprio, Function.update_self]
  exact List.mem_cons_self

theorem withTask_old (h : SchedInv s q) (ht : t ∈ s.created) :
    (withTask s entry name p).tcb t = s.tcb t :=
  h.update_old ht

theorem Unscheduled.withTask (h : Unscheduled s q) (hp : p < maxPriority) :
    Unscheduled (withTask s entry name p)
      (Function.update q p ((s.heap.requests + 1) :: q p)) := by
  refine ⟨h.inv.withTask entry name hp, h.boot.withTask h.inv entry name, fun t ht => ?_,
    fun t ht => ?_⟩
  · rcases List.mem_cons.mp ht with rfl | ht
    · exact withTask_new entry name s q
    · rw [withTask_old entry name h.inv ht]
      exact subset_push q p _ _ (h.queued t ht)
  · rcases List.mem_cons.mp ht with rfl | ht
    · simp only [Proc.withTask, Function.update_self, newTask]
    · rw [withTask_old entry name h.inv ht]
      exact h.slice t ht

theorem Scheduled.withTask (h : Scheduled s q) (hp : p < maxPriority) :
    Scheduled (withTask s entry name p)
      (Function.update q p ((s.heap.requests + 1) :: q p)) := by
  have hm := h.inv.current.resolve_left h.current
  refine ⟨h.inv.withTask entry name hp, h.current, h.off.withTask h.inv entry name, ?_,
    fun hnil => h.idle ?_, fun t ht => ?_⟩
  · exact (congrArg Task.timeSlice (withTask_old entry name h.inv hm)).trans h.slice
  · exact List.subset_nil.mp (hnil ▸ subset_push q p _ 0)
  · rcases List.mem_cons.mp ht with rfl | ht
    · exact .inr (withTask_new entry name s q)
    · rw [withTask_old entry name h.inv ht]
      exact (h.queued t ht).imp_right fun hq => subset_push q p _ _ hq

end WithTask

theorem Unscheduled.sound (h : Unscheduled s q) : Sound s := ⟨q, h.inv, .inr h.boot⟩

theorem Scheduled.sound (h : Scheduled s q) : Sound s := ⟨q, h.inv, .inl h.off⟩

theorem Unscheduled.current (h : Unscheduled s q) : s.currentTask ≠ 0 :=
  (h.inv.list 0).ne_zero _ h.boot.idle

/-- What holds whatever is created holds after every operation but a dispatch. -/
theorem exists_schedStep {Φ : Sched → (Nat → List Nat) → Prop}
    (hinv : ∀ {s q}, Φ s q → SchedInv s q ∧ Sound s ∧ s.currentTask ≠ 0)
    (hcongr : ∀ {s s' q}, Φ s q → SchedInv s' q → SameTasks s s' → Φ s' q)
    (hnew : ∀ {s q p}, Φ s q → ∀ entry name, p < maxPriority →
      Φ (withTask s entry name p) (Function.update q p ((s.heap.requests + 1) :: q p)))
    (h : Φ s q) {op : SchedOp} (hop : op.dispatches = false) : ∃ q', Φ (schedStep s op) q' := by
  obtain ⟨hi, hsound, h0⟩ := hinv h
  cases op with
  | create entry name priority =>
    rcases createTask_cases s entry name priority with ⟨hp, -, hc⟩ | ⟨-, -, hr⟩
    · rw [schedStep, hc]
      exact ⟨_, hnew h entry name hp⟩
    · exact ⟨q, hcongr h (hi.refused hr) (.refused hi hr)⟩
  | fork regs =>
    have hm := hsound.current h0
    rcases fork_cases hsound h0 regs with ⟨-, he⟩ | ⟨-, hr⟩
    · rw [he]
      exact ⟨_, hcongr (hnew h regs.eip _ (hi.fit _ hm).low) (hi.forked hm regs)
        (.inert (inert_inherit _ regs) _)⟩
    · exact ⟨q, hcongr h (hi.refused hr) (.refused hi hr)⟩
  | schedule cpu => cases hop
  | tick regs cpu => cases hop
  | exit cpu => cases hop

/-- Creating tasks does not lose one. -/
theorem Unscheduled.step (h : Unscheduled s q) {op : SchedOp} (hop : op.dispatches = false) :
    ∃ q', Unscheduled (schedStep s op) q' :=
  exists_schedStep (fun h => ⟨h.inv, h.sound, h.current⟩) .congr (fun h entry name hp =>
    h.withTask entry name hp) h hop

theorem Scheduled.step (h : Scheduled s q) {op : SchedOp} (hop : op.dispatches = false) :
    ∃ q', Scheduled (schedStep s op) q' :=
  exists_schedStep (fun h => ⟨h.inv, h.sound, h.current⟩) .congr (fun h entry name hp =>
    h.withTask entry name hp) h hop

/-! ## One call of schedule -/

theorem timeSlice_popped (s : Sched) (p t x : Nat) :
    ((popped s p t).tcb x).timeSlice = (s.tcb x).timeSlice := by
  refine Sched.modify_field Task.timeSlice ?_ _ t x
  exact fun _ => rfl

theorem timeSlice_switchRecords (s : Sched) (cpu : RegsContext) (old x : Nat) :
    ((switchRecords s cpu old).tcb x).timeSlice = (s.tcb x).timeSlice := by
  rw [switchRecords]
  split
  · rfl
  · refine s.modify_field Task.timeSlice ?_ old x
    exact fun _ => rfl

theorem timeSlice_dispatch (s : Sched) (cpu : RegsContext) (t x : Nat) :
    ((dispatch s cpu t).tcb x).timeSlice = (s.tcb x).timeSlice := by
  have hrun : ((s.modify t fun x => { x with state := .running, lastScheduled := 0 }).tcb
      x).timeSlice = (s.tcb x).timeSlice := by
    refine s.modify_field Task.timeSlice ?_ t x
    exact fun _ => rfl
  simp only [dispatch]
  split
  · exact (timeSlice_switchRecords _ cpu _ x).trans hrun
  · exact hrun

theorem popped_subset {rest : List Nat} (hq : q p = t :: rest) (r : Nat) :
    Function.update q p rest r ⊆ q r := by
  intro x hx
  by_cases hr : r = p
  · subst hr
    rw [Function.update_self] at hx
    exact hq ▸ List.mem_cons_of_mem _ hx
  · rwa [Function.update_of_ne hr] at hx

theorem mem_popped {rest : List Nat} (hq : q p = t :: rest) {x r : Nat} (hx : x ∈ q r) :
    x = t ∨ x ∈ Function.update q p rest r := by
  by_cases hr : r = p
  · subst hr
    rw [Function.update_self]
    exact List.mem_cons.mp (hq ▸ hx)
  · rw [Function.update_of_ne hr]
    exact .inr hx

/-- With time left and tasks queued, the current task is displaced by the first
task of the highest queue and put nowhere. -/
theorem schedule_displaces (h : SchedInv s q) (h0 : s.currentTask ≠ 0)
    (hon : Off s q ∨ AtBoot s q) (hslice : (s.tcb s.currentTask).timeSlice = taskTimeSlice)
    {r : Nat} (hr : q r ≠ []) (cpu : RegsContext) : ∃ p t rest, q p = t :: rest ∧ r ≤ p ∧
      SchedInv (schedule s cpu) (Function.update q p rest) ∧ (schedule s cpu).currentTask = t ∧
      Touches s (schedule s cpu) ∧
      ∀ x, x ≠ s.currentTask → ((schedule s cpu).tcb x).timeSlice = (s.tcb x).timeSlice := by
  obtain ⟨hcharge, h₁⟩ : afterSlice s = chargeCurrent s ∧ SchedInv (afterSlice s) q := by
    rcases afterSlice_cases h h0 hon with ⟨hone, -⟩ | ⟨-, hcharge, h₁⟩
    · rw [hslice] at hone
      cases hone
    · exact ⟨hcharge, h₁⟩
  rcases schedule_cases h0 h₁ cpu with ⟨p, t, rest, hq, habove, he⟩ | ⟨hempty, -⟩
  · refine ⟨p, t, rest, hq, not_lt.mp fun hlt => hr (habove r hlt), ?_, ?_, ?_, fun x hx => ?_⟩
    · rw [he]
      exact (h₁.popped hq).dispatch (h₁.queued p t (hq ▸ List.mem_cons_self))
    · rw [he, currentTask_dispatch]
    · rw [he]
      exact (touches_afterSlice s).trans ((touches_popped _ p t).trans (touches_dispatch _ cpu t))
    · rw [he, timeSlice_dispatch, timeSlice_popped, hcharge]
      exact congrArg Task.timeSlice (Function.update_of_ne hx _ _)
  · exact absurd (hempty r) hr

/-- The first call: the idle task is displaced, and is still queued. -/
theorem Unscheduled.schedule (h : Unscheduled s q) (cpu : RegsContext) :
    ∃ q', Scheduled (schedule s cpu) q' := by
  obtain ⟨p, t, rest, hq, hp, hinv, hcur, htouch, hslice⟩ :=
    schedule_displaces h.inv h.current (.inr h.boot) h.boot.slice h.boot.init cpu
  have ht : t ∈ q p := hq ▸ List.mem_cons_self
  have hp0 : (0 : Nat) ≠ p := by omega
  have hne : t ≠ s.currentTask := fun he => hp0 (h.inv.unique_queue ht (he ▸ h.boot.idle))
  refine ⟨_, hinv, ?_, fun r => ?_, ?_, ?_, fun x hx => ?_⟩
  · rw [hcur]
    exact (h.inv.list p).ne_zero t ht
  · rw [hcur]
    exact h.inv.popped_off hq r
  · rw [hcur, hslice t hne]
    exact h.slice t (h.inv.queued p t ht)
  · rw [Function.update_of_ne hp0]
    exact List.ne_nil_of_mem h.boot.idle
  · rw [htouch.created] at hx
    rw [htouch.priority, hcur]
    exact mem_popped hq (h.queued x hx)

/-- The second call: the task displaced is in no queue. -/
theorem Scheduled.not_allRunnable (h : Scheduled s q) (cpu : RegsContext) :
    ¬ AllRunnable (schedule s cpu) := by
  obtain ⟨p, t, rest, hq, -, hinv, hcur, htouch, -⟩ :=
    schedule_displaces h.inv h.current (.inl h.off) h.slice h.idle cpu
  intro hall
  have hm := h.inv.current.resolve_left h.current
  rcases hinv.runnable_iff.mp (hall s.currentTask (htouch.created ▸ hm)) with he | hmem
  · rw [hcur] at he
    exact h.off p (he ▸ hq ▸ List.mem_cons_self)
  · exact h.off _ (popped_subset hq _ hmem)

/-! ## Runs -/

theorem schedule_of_dispatches {op : SchedOp} (hop : op.dispatches = true)
    (hno : op.exits = false) : ∃ s₁ cpu, schedStep s op = schedule s₁ cpu ∧
      SameTasks s s₁ ∧ ∀ q, SchedInv s q → SchedInv s₁ q := by
  cases op with
  | create entry name priority => cases hop
  | fork regs => cases hop
  | schedule cpu => exact ⟨s, cpu, rfl, ⟨rfl, rfl, fun _ _ => rfl, fun _ _ => rfl⟩, fun _ h => h⟩
  | tick regs cpu =>
    obtain ⟨f, hf, hdir, he⟩ := timerInterruptHandler_eq s regs
    have hsame := SameTasks.inert (s := { s with systemTicks := u32 (s.systemTicks + 1) }) hf
      s.currentTask
    refine ⟨_, cpu, he cpu, ⟨rfl, rfl, hsame.priority, hsame.timeSlice⟩, fun q h => ?_⟩
    have hticks : SchedInv { s with systemTicks := u32 (s.systemTicks + 1) } q :=
      h.congr h.sane rfl rfl rfl rfl h.current
    exact hticks.inert hf fun hm b hb => (h.fit _ hm).dir b ((hdir _).symm.trans hb)
  | exit cpu => cases hno

theorem Unscheduled.runnable (h : Unscheduled s q) : AllRunnable s := fun t ht =>
  h.inv.runnable_iff.mpr (.inr (h.queued t ht))

theorem Scheduled.runnable (h : Scheduled s q) : AllRunnable s := fun t ht =>
  h.inv.runnable_iff.mpr (h.queued t ht)

/-- An operation that schedules nothing does not count. -/
theorem always_cons_of_quiet {p : Nat → Prop} {op : SchedOp} {ops : List SchedOp}
    (hrun : AllRunnable s) (hd : op.dispatches = false)
    (h : Always schedStep AllRunnable (schedStep s op) ops ↔ p (ops.countP SchedOp.dispatches)) :
    Always schedStep AllRunnable s (op :: ops) ↔ p ((op :: ops).countP SchedOp.dispatches) := by
  rw [List.countP_cons_of_neg (by rw [hd]; decide), ← h]
  exact ⟨fun ha => ha.2, fun ha => ⟨hrun, ha⟩⟩

/-- Once something was scheduled, nothing else may be. -/
theorem Scheduled.always_iff {ops : List SchedOp} (hno : ∀ op ∈ ops, op.exits = false)
    (h : Scheduled s q) :
    Always schedStep AllRunnable s ops ↔ ops.countP SchedOp.dispatches = 0 := by
  induction ops generalizing s q with
  | nil => exact ⟨fun _ => rfl, fun _ => h.runnable⟩
  | cons op ops ih =>
    have hop := hno op List.mem_cons_self
    have hrest : ∀ op ∈ ops, op.exits = false := fun op' hm => hno op' (List.mem_cons_of_mem _ hm)
    cases hd : op.dispatches with
    | false =>
      obtain ⟨q', h'⟩ := h.step hd
      exact always_cons_of_quiet (p := (· = 0)) h.runnable hd (ih hrest h')
    | true =>
      rw [List.countP_cons_of_pos hd]
      refine ⟨fun ha => ?_, fun h0 => absurd h0 (Nat.succ_ne_zero _)⟩
      obtain ⟨s₁, cpu, he, hs, hi⟩ := schedule_of_dispatches (s := s) hd hop
      have hlost := (h.congr (hi q h.inv) hs).not_allRunnable cpu
      exact absurd (he ▸ ha.2.head) hlost

theorem Unscheduled.always_iff {ops : List SchedOp} (hno : ∀ op ∈ ops, op.exits = false)
    (h : Unscheduled s q) :
    Always schedStep AllRunnable s ops ↔ ops.countP SchedOp.dispatches ≤ 1 := by
  induction ops generalizing s q with
  | nil => exact ⟨fun _ => Nat.zero_le _, fun _ => h.runnable⟩
  | cons op ops ih =>
    have hop := hno op List.mem_cons_self
    have hrest : ∀ op ∈ ops, op.exits = false := fun op' hm => hno op' (List.mem_cons_of_mem _ hm)
    cases hd : op.dispatches with
    | false =>
      obtain ⟨q', h'⟩ := h.step hd
      exact always_cons_of_quiet (p := (· ≤ 1)) h.runnable hd (ih hrest h')
    | true =>
      obtain ⟨s₁, cpu, he, hs, hi⟩ := schedule_of_dispatches (s := s) hd hop
      obtain ⟨q', h'⟩ := (h.congr (hi q h.inv) hs).schedule cpu
      rw [List.countP_cons_of_pos hd, Nat.succ_le_succ_iff, Nat.le_zero,
        ← h'.always_iff hrest, ← he]
      exact ⟨fun ha => ha.2, fun ha => ⟨h.runnable, ha⟩⟩

theorem unscheduled_started (h : SchedInv s fun _ => []) (hq : s.readyQueue 0 = 0)
    (hc : s.created = []) : Unscheduled (started s) (startedQueues s) := by
  obtain ⟨hinv, hboot⟩ := h.started hq
  have hidle := started_idle s
  have hinit : (started s).tcb (s.heap.requests + 3) =
      newTask (queuedIdle s) s.initEntry ⟨"init", init_fits⟩ 5 := Function.update_self _ _ _
  have hcreated : ∀ t ∈ (started s).created,
      t = s.heap.requests + 3 ∨ t = s.heap.requests + 1 := by
    intro t ht
    rcases List.mem_cons.mp ht with rfl | ht
    · exact .inl rfl
    · rcases List.mem_cons.mp ht with rfl | ht
      · exact .inr rfl
      · rw [hc] at ht
        cases ht
  refine ⟨hinv, hboot, fun t ht => ?_, fun t ht => ?_⟩
  · rcases hcreated t ht with rfl | rfl
    · rw [hinit]
      exact List.mem_cons_self
    · rw [hidle]
      exact List.mem_cons_self
  · rcases hcreated t ht with rfl | rfl
    · rw [hinit]
      rfl
    · rw [hidle]
      rfl

/-- A `sched_init` that sets the current task was refused nothing. -/
theorem schedInit_eq {heap : BlockHeap} {i j : Nat}
    (hok : (schedInit (.boot heap i j)).currentTask ≠ 0) :
    schedInit (.boot heap i j) =
      started { Sched.boot heap i j with readyQueue := fun _ => 0 } := by
  rcases schedInit_cases (.boot heap i j) with hr | hr | ⟨-, he⟩
  · exact absurd hr.currentTask hok
  · exact absurd hr.currentTask hok
  · exact he

/-- **No task is lost** in a run from a successful `sched_init` if and only if
`schedule` is called at most once in it. -/
theorem allRunnable_iff (heap : BlockHeap) (hs : heap.Sane) (i j : Nat)
    (hok : (schedInit (.boot heap i j)).currentTask ≠ 0) (ops : List SchedOp)
    (hno : ∀ op ∈ ops, op.exits = false) :
    Always schedStep AllRunnable (schedInit (.boot heap i j)) ops ↔
      ops.countP SchedOp.dispatches ≤ 1 := by
  rw [schedInit_eq hok]
  exact (unscheduled_started (schedInv_boot hs i j) rfl rfl).always_iff hno

theorem allRunnable_iff_grantingHeap :
    Always schedStep AllRunnable (schedInit (.boot grantingHeap 0x1000 0x1100))
      [.schedule .zero] ↔ [SchedOp.schedule .zero].countP SchedOp.dispatches ≤ 1 :=
  allRunnable_iff grantingHeap sane_grantingHeap 0x1000 0x1100 (by decide) _ (by decide)

/-- After `sched_init` two calls of `schedule` lose the init task. -/
theorem schedule_loses_init : (schedInit (.boot grantingHeap 0x1000 0x1100)).currentTask ≠ 0 ∧
    ¬ Always schedStep AllRunnable (schedInit (.boot grantingHeap 0x1000 0x1100))
      [.schedule .zero, .schedule .zero] := by
  have hok : (schedInit (.boot grantingHeap 0x1000 0x1100)).currentTask ≠ 0 := by decide
  refine ⟨hok, ?_⟩
  rw [schedInit_eq hok, (unscheduled_started (schedInv_boot sane_grantingHeap _ _) rfl rfl).always_iff
    (by decide)]
  decide

end SynapseKernel.Proc
