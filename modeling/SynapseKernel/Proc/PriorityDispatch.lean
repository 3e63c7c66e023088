import SynapseKernel.Proc.RunnableTasks

/-! # Strict priority

`schedule` scans the queues and never compares what it finds with the current
task. A task whose time slice ends is in its queue again when the scan starts, so
the highest priority wins; a task with time left is displaced by whatever is
queued, and by a new idle task if nothing is. `schedule_highest_iff` is one call,
`guarded_highest_iff` a run. -/
namespace SynapseKernel.Proc
open SynapseKernel.Word SynapseKernel.Kheap SynapseKernel.Links SynapseKernel.Runs

variable {s s' s₁ : Sched} {q : Nat → List Nat} {p t : Nat} {cpu : RegsContext} {regs : Regs}

/-- The task is in a ready queue. -/
def Queued (s : Sched) (t : Nat) : Prop := ∃ p < maxPriority, Linked s.next (s.readyQueue p) t

/-- The current task of `s'` has at least the priority of every task that was queued
in `s` and of the task that was current. -/
def RunsHighest (s s' : Sched) : Prop :=
  ∀ t, Queued s t ∨ (t = s.currentTask ∧ t ≠ 0) →
    s'.currentTask ≠ 0 ∧ (s'.tcb t).priority ≤ (s'.tcb s'.currentTask).priority

/-- What strict priority asks of an operation that calls `schedule`. -/
def HighestAt (s : Sched) : SchedOp → Prop
  | .create _ _ _ => True
  | .fork _ => True
  | .schedule cpu => RunsHighest s (schedule s cpu)
  | .tick regs cpu => RunsHighest s (timerInterruptHandler s regs cpu)
  | .exit _ => True

/-- The current task may be displaced: its time slice ends with this tick, a task of at
least its priority is queued, or nothing is queued and either it has priority 0 as
the idle task or there is no memory for a new idle task. Without a current task
nothing is queued. -/
def MayDisplace (s : Sched) : Prop :=
  if s.currentTask = 0 then ∀ t, ¬ Queued s t
  else
    (s.tcb s.currentTask).timeSlice = 1 ∨
    (∃ t, Queued s t ∧ (s.tcb s.currentTask).priority ≤ (s.tcb t).priority) ∨
    ((∀ t, ¬ Queued s t) ∧ ((s.tcb s.currentTask).priority = 0 ∨ ¬ s.heap.GrantsNext 2))

def MayDisplaceAt (s : Sched) : SchedOp → Prop
  | .create _ _ _ => True
  | .fork _ => True
  | .schedule _ => MayDisplace s
  | .tick _ _ => MayDisplace s
  | .exit _ => True

theorem SchedInv.queued_iff (h : SchedInv s q) : Queued s t ↔ ∃ p, t ∈ q p := by
  constructor
  · rintro ⟨p, -, hl⟩
    exact ⟨p, (h.list p).linked_iff.mp hl⟩
  · rintro ⟨p, ht⟩
    refine ⟨p, ?_, (h.list p).linked_iff.mpr ht⟩
    rw [← h.priority p t ht]
    exact (h.fit t (h.queued p t ht)).low

theorem SchedInv.not_queued (h : SchedInv s q) (hempty : ∀ p, q p = []) (t : Nat) :
    ¬ Queued s t := by
  rw [h.queued_iff]
  rintro ⟨p, ht⟩
  rw [hempty p] at ht
  cases ht

/-! ## A call of schedule -/

/-- With nothing queued `schedule` turns to a new idle task. -/
theorem schedule_none (h0 : s.currentTask ≠ 0) (h : SchedInv (afterSlice s) q)
    (hempty : ∀ p, q p = []) (cpu : RegsContext) :
    (s.heap.GrantsNext 2 ∧
      schedule s cpu = dispatch (withIdleTask (afterSlice s)) cpu (s.heap.requests + 1)) ∨
    (¬ s.heap.GrantsNext 2 ∧ schedule s cpu = (createIdleTask (afterSlice s)).2 ∧
      Refused (afterSlice s) (schedule s cpu)) := by
  have hheap : (afterSlice s).heap = s.heap := (touches_afterSlice s).heap
  have hsched := schedule_eq h0 cpu
  rcases popReady_cases h.toQueues maxPriority with ⟨-, he⟩ | ⟨p, t, rest, -, hq, -⟩
  · rw [he, if_neg (not_not.mpr rfl)] at hsched
    rcases createIdleTask_cases (afterSlice s) with ⟨hg, hc⟩ | ⟨hno, hc, hr⟩
    · rw [hc, if_neg (Nat.succ_ne_zero _), hheap] at hsched
      exact .inl ⟨hheap ▸ hg, hsched⟩
    · rw [if_pos hc] at hsched
      exact .inr ⟨hheap ▸ hno, hsched, hsched ▸ hr⟩
  · rw [hempty p] at hq
    cases hq

/-- A task of queue `p` gets the processor when nothing above `p` is queued. -/
theorem highest_popped (h : SchedInv (afterSlice s) q) {rest : List Nat} (hq : q p = t :: rest)
    (he : schedule s cpu = dispatch (popped (afterSlice s) p t) cpu t) :
    Touches s (schedule s cpu) ∧ (schedule s cpu).currentTask = t ∧ t ≠ 0 ∧
      (s.tcb t).priority = p := by
  have ht : t ∈ q p := hq ▸ List.mem_cons_self
  have hslice := touches_afterSlice s
  refine ⟨?_, ?_, (h.list p).ne_zero t ht, ?_⟩
  · rw [he]
    exact hslice.trans ((touches_popped _ p t).trans (touches_dispatch _ cpu t))
  · rw [he, currentTask_dispatch]
  · rw [← hslice.priority]
    exact h.priority p t ht

/-- The scan finds the highest of the tasks that are in the queues when it starts. -/
theorem runsHighest_popped (h : SchedInv s q) {q₁ : Nat → List Nat}
    (h₁ : SchedInv (afterSlice s) q₁) (hsub : ∀ r, q r ⊆ q₁ r) {rest : List Nat}
    (hq : q₁ p = t :: rest) (habove : ∀ r, p < r → q₁ r = [])
    (he : schedule s cpu = dispatch (popped (afterSlice s) p t) cpu t) :
    RunsHighest s (schedule s cpu) ↔
      (s.currentTask ≠ 0 → (s.tcb s.currentTask).priority ≤ p) := by
  obtain ⟨htouch, hcur, h0, hp⟩ := highest_popped h₁ hq he
  have hle : ∀ r x, x ∈ q r → r ≤ p := by
    intro r x hx
    by_contra hlt
    have hx₁ := hsub r hx
    rw [habove r (not_le.mp hlt)] at hx₁
    cases hx₁
  constructor
  · intro hrun hne
    have hpr := (hrun s.currentTask (.inr ⟨rfl, hne⟩)).2
    rwa [htouch.priority, htouch.priority, hcur, hp] at hpr
  · intro hcurrent x hx
    rw [htouch.priority, htouch.priority, hcur, hp]
    refine ⟨h0, ?_⟩
    rcases hx with hx | ⟨rfl, hne⟩
    · obtain ⟨r, hr⟩ := h.queued_iff.mp hx
      rw [h.priority r x hr]
      exact hle r x hr
    · exact hcurrent hne

/-- A task whose slice ends competes with the others from its queue. -/
theorem runsHighest_of_expired (h : SchedInv s q) (h0 : s.currentTask ≠ 0)
    (h₁ : SchedInv (afterSlice s) (Function.update q (s.tcb s.currentTask).priority
      (s.currentTask :: q (s.tcb s.currentTask).priority))) : RunsHighest s (schedule s cpu) := by
  have hmem : s.currentTask ∈ Function.update q (s.tcb s.currentTask).priority
      (s.currentTask :: q (s.tcb s.currentTask).priority) (s.tcb s.currentTask).priority := by
    rw [Function.update_self]
    exact List.mem_cons_self
  rcases schedule_cases h0 h₁ cpu with ⟨p, t, rest, hq, habove, he⟩ | ⟨hempty, -⟩
  · refine (runsHighest_popped h h₁ (subset_push q _ _) hq habove he).mpr fun _ => ?_
    by_contra hlt
    rw [habove _ (not_le.mp hlt)] at hmem
    cases hmem
  · rw [hempty] at hmem
    cases hmem

/-- With nothing queued only the idle task may make room for a new idle task. -/
theorem runsHighest_of_empty (h : SchedInv s q) (h0 : s.currentTask ≠ 0)
    (h₁ : SchedInv (afterSlice s) q) (hgo : afterSlice s = chargeCurrent s)
    (hempty : ∀ p, q p = []) : RunsHighest s (schedule s cpu) ↔
      (s.tcb s.currentTask).priority = 0 ∨ ¬ s.heap.GrantsNext 2 := by
  have hm := h.current.resolve_left h0
  have hslice := touches_afterSlice s
  have hnone : ∀ t, Queued s t ∨ (t = s.currentTask ∧ t ≠ 0) → t = s.currentTask :=
    fun t ht => (ht.resolve_left (h.not_queued hempty t)).1
  rcases schedule_none h0 h₁ hempty cpu with ⟨hg, he⟩ | ⟨hno, -, hr⟩
  · have hcur : (schedule s cpu).currentTask = s.heap.requests + 1 := by
      rw [he, currentTask_dispatch]
    have hprio : ∀ x, ((schedule s cpu).tcb x).priority =
        ((withIdleTask (afterSlice s)).tcb x).priority := by
      rw [he]
      exact (touches_dispatch _ cpu _).priority
    have hidle : ((schedule s cpu).tcb (s.heap.requests + 1)).priority = 0 := by
      have hnew : (withIdleTask (afterSlice s)).tcb ((afterSlice s).heap.requests + 1) =
          newIdleTask (afterSlice s) := Function.update_self _ _ _
      rw [hprio, ← hslice.heap, hnew]
      rfl
    have hold : ((schedule s cpu).tcb s.currentTask).priority =
        (s.tcb s.currentTask).priority := by
      rw [hprio, ← hslice.priority]
      refine congrArg Task.priority (h₁.update_old ?_)
      rw [hslice.created]
      exact hm
    rw [or_iff_left (not_not.mpr hg)]
    constructor
    · intro hrun
      have hle := (hrun _ (.inr ⟨rfl, h0⟩)).2
      rw [hcur, hidle, hold] at hle
      exact Nat.le_zero.mp hle
    · intro hzero t ht
      rw [hcur, hidle, hnone t ht, hold, hzero]
      exact ⟨Nat.succ_ne_zero _, Nat.le_refl 0⟩
  · have hcur : (schedule s cpu).currentTask = s.currentTask := by
      rw [hr.currentTask, hgo]
      rfl
    refine ⟨fun _ => .inr hno, fun _ t ht => ?_⟩
    rw [hcur, hnone t ht]
    exact ⟨h0, Nat.le_refl _⟩

/-- **One call of schedule** keeps strict priority exactly when the current task may be
displaced. -/
theorem schedule_highest_iff (h : Sound s) (cpu : RegsContext) :
    RunsHighest s (schedule s cpu) ↔ MayDisplace s := by
  obtain ⟨q, hinv, hon⟩ := h
  by_cases h0 : s.currentTask = 0
  · rw [MayDisplace, if_pos h0, schedule, if_pos h0]
    constructor
    · intro hrun t ht
      exact (hrun t (.inl ht)).1 h0
    · rintro hnone t (ht | ⟨rfl, hne⟩)
      · exact absurd ht (hnone t)
      · exact absurd h0 hne
  · rw [MayDisplace, if_neg h0]
    rcases afterSlice_cases hinv h0 hon with ⟨hone, -, -, h₁⟩ | ⟨hlt, hgo, h₁⟩
    · exact iff_of_true (runsHighest_of_expired hinv h0 h₁) (.inl hone)
    · rw [or_iff_right (Nat.ne_of_gt hlt)]
      rcases schedule_cases h0 h₁ cpu with ⟨p, t, rest, hq, habove, he⟩ | ⟨hempty, -⟩
      · obtain ⟨-, -, -, hp⟩ := highest_popped h₁ hq he
        have ht : Queued s t := hinv.queued_iff.mpr ⟨p, hq ▸ List.mem_cons_self⟩
        rw [runsHighest_popped hinv h₁ (fun _ => List.Subset.refl _) hq habove he]
        constructor
        · intro hle
          exact .inl ⟨t, ht, hp ▸ hle h0⟩
        · rintro (⟨x, hx, hle⟩ | ⟨hnone, -⟩) -
          · obtain ⟨r, hr⟩ := hinv.queued_iff.mp hx
            rw [hinv.priority r x hr] at hle
            refine Nat.le_trans hle ?_
            by_contra hlt
            rw [habove r (not_le.mp hlt)] at hr
            cases hr
          · exact absurd ht (hnone t)
      · have hnone := hinv.not_queued hempty
        have hno : ¬ ∃ t, Queued s t ∧ (s.tcb s.currentTask).priority ≤ (s.tcb t).priority := by
          rintro ⟨t, ht, -⟩
          exact hnone t ht
        rw [runsHighest_of_empty hinv h0 h₁ hgo hempty, or_iff_right hno, and_iff_right hnone]

/-! ## A timer interrupt -/

/-- The states agree in everything `schedule` looks at. -/
structure SameQueues (s s' : Sched) : Prop where
  heap : s'.heap = s.heap
  readyQueue : s'.readyQueue = s.readyQueue
  currentTask : s'.currentTask = s.currentTask
  created : s'.created = s.created
  next : s'.next = s.next
  priority : ∀ t, (s'.tcb t).priority = (s.tcb t).priority
  timeSlice : ∀ t, (s'.tcb t).timeSlice = (s.tcb t).timeSlice

theorem SameQueues.queued (h : SameQueues s s₁) : Queued s₁ t ↔ Queued s t := by
  rw [Queued, Queued, h.readyQueue, h.next]

theorem SameQueues.runsHighest (h : SameQueues s s₁) : RunsHighest s₁ s' ↔ RunsHighest s s' := by
  simp only [RunsHighest, h.queued, h.currentTask]

theorem SameQueues.mayDisplace (h : SameQueues s s₁) : MayDisplace s₁ ↔ MayDisplace s := by
  simp only [MayDisplace, h.queued, h.currentTask, h.timeSlice, h.priority, h.heap]

/-- The state in which the handler of the timer interrupt calls `schedule`. -/
def atInterrupt (s : Sched) (regs : Regs) : Sched :=
  saveInterrupted { s with systemTicks := u32 (s.systemTicks + 1) } regs

theorem timerInterruptHandler_eq_schedule (s : Sched) (regs : Regs) (cpu : RegsContext) :
    timerInterruptHandler s regs cpu = schedule (atInterrupt s regs) cpu := rfl

theorem Sound.atInterrupt (h : Sound s) (regs : Regs) : Sound (atInterrupt s regs) :=
  h.saveInterrupted regs

theorem sameQueues_atInterrupt (s : Sched) (regs : Regs) : SameQueues s (atInterrupt s regs) := by
  obtain ⟨f, hf, -, he⟩ :=
    saveInterrupted_eq { s with systemTicks := u32 (s.systemTicks + 1) } regs
  rw [atInterrupt, he]
  refine ⟨rfl, rfl, rfl, rfl, ?_, ?_, ?_⟩
  · funext t
    exact Sched.modify_field Task.siblingNext hf.siblingNext _ _ t
  · exact Sched.modify_field Task.priority hf.priority _ _
  · exact Sched.modify_field Task.timeSlice hf.timeSlice _ _

/-! ## Runs -/

theorem highestAt_iff (h : Sound s) (op : SchedOp) : HighestAt s op ↔ MayDisplaceAt s op := by
  cases op with
  | create entry name priority => exact Iff.rfl
  | fork regs => exact Iff.rfl
  | schedule cpu => exact schedule_highest_iff h cpu
  | tick regs cpu =>
    have hsame := sameQueues_atInterrupt s regs
    rw [HighestAt, MayDisplaceAt, timerInterruptHandler_eq_schedule, ← hsame.runsHighest,
      ← hsame.mayDisplace]
    exact schedule_highest_iff (h.atInterrupt regs) cpu
  | exit cpu => exact Iff.rfl

/-- **Strict priority.** In a run from `sched_init` every call of `schedule` gives the
processor to a task of the highest priority if and only if each of them is made in a
state in which the current task may be displaced. -/
theorem guarded_highest_iff {heap : BlockHeap} (hs : heap.Sane) (idleEntry initEntry : Nat)
    (ops : List SchedOp) :
    Guarded schedStep HighestAt (schedInit (.boot heap idleEntry initEntry)) ops ↔
      Guarded schedStep MayDisplaceAt (schedInit (.boot heap idleEntry initEntry)) ops :=
  guarded_congr Sound (fun _ op _ h _ => h.step op) (fun _ op _ h => highestAt_iff h op)
    (.schedInit hs idleEntry initEntry)

/-- With a single call, by which the init task displaces the idle task. -/
theorem guarded_highest_iff_one :
    Guarded schedStep HighestAt (schedInit (.boot grantingHeap 0 0)) [.schedule .zero] ↔
      Guarded schedStep MayDisplaceAt (schedInit (.boot grantingHeap 0 0)) [.schedule .zero] :=
  guarded_highest_iff sane_grantingHeap 0 0 _

/-- The second call displaces the init task, which has 9 ticks left, by the idle task. -/
theorem not_guarded_highest_two :
    ¬ Guarded schedStep HighestAt (schedInit (.boot grantingHeap 0 0))
      [.schedule .zero, .schedule .zero] := by
  set s := schedule (schedInit (.boot grantingHeap 0 0)) .zero with hs
  have hinit : s.currentTask = 3 ∧ ((schedule s .zero).tcb 3).priority = 5 := by
    rw [hs]
    exact ⟨by decide, by decide⟩
  have hidle : (schedule s .zero).currentTask = 1 ∧ ((schedule s .zero).tcb 1).priority = 0 := by
    rw [hs]
    exact ⟨by decide, by decide⟩
  intro h
  have hrun : RunsHighest s (schedule s .zero) := h.2.1
  have hle := (hrun 3 (.inr ⟨hinit.1.symm, by decide⟩)).2
  rw [hinit.2, hidle.1, hidle.2] at hle
  exact absurd hle (by decide)

end SynapseKernel.Proc
