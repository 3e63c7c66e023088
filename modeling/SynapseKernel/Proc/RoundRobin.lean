import SynapseKernel.Proc.SchedRuns

/-! # Tasks of one priority

A task whose time slice ends is put back at the end of the queue from which
`schedule` takes the next task, so it is taken again at once (`schedule_expired`).
The other tasks of its priority wait for as long as slices end. -/
namespace SynapseKernel.Proc
open SynapseKernel.Word SynapseKernel.Kheap SynapseKernel.Links

variable {s : Sched} {q : Nat → List Nat} {p : Nat} {cpu : RegsContext}

/-- The current task, of priority `p`, is in no queue, and no task of higher priority
is queued. -/
structure Leading (s : Sched) (q : Nat → List Nat) (p : Nat) : Prop extends Queues s q where
  current : s.currentTask ≠ 0
  off : Off s q
  own : (s.tcb s.currentTask).priority = p
  low : p < maxPriority
  highest : ∀ r, p < r → q r = []

/-! ## The end of a time slice -/

theorem afterSlice_expired (hslice : (s.tcb s.currentTask).timeSlice = 1) :
    afterSlice s = requeueCurrent (chargeCurrent s) := by
  have hover : ((chargeCurrent s).tcb (chargeCurrent s).currentTask).timeSlice = 0 := by
    simp only [chargeCurrent, Sched.modify, Function.update_self, hslice]
    exact sub32_of_le (by decide) (Nat.le_refl 1)
  rw [afterSlice]
  exact if_pos hover

/-- The queues after the current task is put back. -/
theorem Leading.requeued (h : Leading s q p) (hslice : (s.tcb s.currentTask).timeSlice = 1) :
    Queues (afterSlice s) (Function.update q p (s.currentTask :: q p)) := by
  rw [afterSlice_expired hslice]
  exact h.toQueues.requeueCurrent h.current h.off h.own

/-- The task that was put back is the first that is found. -/
theorem Leading.popReady_eq (h : Leading s q p)
    (hslice : (s.tcb s.currentTask).timeSlice = 1) :
    popReady maxPriority (afterSlice s) =
      (s.currentTask, popped (afterSlice s) p s.currentTask) := by
  have hself : Function.update q p (s.currentTask :: q p) p = s.currentTask :: q p :=
    Function.update_self ..
  rcases popReady_cases (h.requeued hslice) maxPriority with
    ⟨hempty, -⟩ | ⟨r, t, rest, hr, hq, habove, he⟩
  · rw [hempty p h.low] at hself
    cases hself
  · have hrp : r = p := by
      rcases lt_trichotomy r p with hlt | heq | hgt
      · rw [habove p h.low hlt] at hself
        cases hself
      · exact heq
      · rw [Function.update_of_ne (Nat.ne_of_gt hgt), h.highest r hgt] at hq
        cases hq
    subst hrp
    obtain ⟨rfl, -⟩ := List.cons.inj (hself.symm.trans hq)
    exact he

/-- The task goes on, and the queues are what they were. -/
theorem schedule_expired (h : Leading s q p) (hslice : (s.tcb s.currentTask).timeSlice = 1)
    (cpu : RegsContext) :
    (schedule s cpu).currentTask = s.currentTask ∧ Leading (schedule s cpu) q p := by
  have hself : Function.update q p (s.currentTask :: q p) p = s.currentTask :: q p :=
    Function.update_self ..
  have he : schedule s cpu =
      dispatch (popped (afterSlice s) p s.currentTask) cpu s.currentTask := by
    rw [schedule_eq h.current, h.popReady_eq hslice, if_pos h.current]
  have hcur : (schedule s cpu).currentTask = s.currentTask := by
    rw [he, currentTask_dispatch]
  have hqueues := (h.requeued hslice).popped hself
  rw [Function.update_idem, Function.update_eq_self] at hqueues
  have htouch := (touches_afterSlice s).trans
    ((touches_popped _ p s.currentTask).trans (touches_dispatch _ cpu s.currentTask))
  refine ⟨hcur, he ▸ hqueues.dispatch cpu _, hcur ▸ h.current, fun r => hcur ▸ h.off r, ?_,
    h.low, h.highest⟩
  rw [hcur, he, htouch.priority]
  exact h.own

/-! ## One slice after the other -/

/-- The current task has run until the last tick of its slice. -/
def runDown (s : Sched) : Sched :=
  s.modify s.currentTask fun t => { t with timeSlice := 1 }

theorem slice_runDown (s : Sched) :
    ((runDown s).tcb (runDown s).currentTask).timeSlice = 1 := by
  simp only [runDown, Sched.modify, Function.update_self]

theorem Leading.runDown (h : Leading s q p) : Leading (runDown s) q p where
  toQueues := h.toQueues.modify (fun _ => rfl) fun _ => rfl
  current := h.current
  off := h.off
  own := by
    simp only [Proc.runDown, Sched.modify, Function.update_self]
    exact h.own
  low := h.low
  highest := h.highest

/-- The tasks dispatched as slices end one after the other, with no arrival in between. -/
def dispatchedInTurn (s : Sched) : List RegsContext → List Nat
  | [] => []
  | cpu :: rest =>
    let s' := schedule (runDown s) cpu
    s'.currentTask :: dispatchedInTurn s' rest

theorem Leading.dispatchedInTurn_eq (h : Leading s q p) (cpus : List RegsContext) :
    dispatchedInTurn s cpus = List.replicate cpus.length s.currentTask := by
  induction cpus generalizing s with
  | nil => rfl
  | cons cpu rest ih =>
    obtain ⟨hcur, hnext⟩ := schedule_expired h.runDown (slice_runDown s) cpu
    rw [dispatchedInTurn, ih hnext, hcur]
    rfl

/-- **No turns.** Where slices end while another task of the same priority is queued,
the same task is dispatched, and in as many slices as there are tasks of its priority
not every one of them is dispatched. -/
theorem no_round_robin (s : Sched) (q : Nat → List Nat) (p : Nat) (h : Leading s q p)
    (hslice : (s.tcb s.currentTask).timeSlice = 1) (hpeer : q p ≠ []) (cpu : RegsContext)
    (cpus : List RegsContext) (hturns : cpus.length = (s.currentTask :: q p).length) :
    ¬ (schedule s cpu).currentTask ≠ s.currentTask ∧
      ¬ (dispatchedInTurn s cpus).Perm (s.currentTask :: q p) := by
  refine ⟨not_not.mpr (schedule_expired h hslice cpu).1, fun hperm => ?_⟩
  have hnodup : (s.currentTask :: q p).Nodup :=
    List.nodup_cons.mpr ⟨h.off p, (h.list p).nodup⟩
  rw [h.dispatchedInTurn_eq, hturns] at hperm
  have hone := List.nodup_replicate.mp (hperm.nodup_iff.mpr hnodup)
  rw [List.length_cons] at hone
  exact hpeer (List.eq_nil_of_length_eq_zero (by omega))

/-- Two tasks of priority 5: task 1 has one tick left, task 2 is queued. -/
def peers : Sched :=
  { Sched.boot grantingHeap 0 0 with
    tcb := fun _ => { Task.zero with priority := 5, timeSlice := 1 }
    readyQueue := Function.update (fun _ => 0) 5 2, currentTask := 1 }

def peersQueued : Nat → List Nat := Function.update (fun _ => []) 5 [2]

theorem leading_peers : Leading peers peersQueued 5 := by
  have hcases : ∀ r, (r = 5 ∧ peersQueued r = [2] ∧ peers.readyQueue r = 2) ∨
      (r ≠ 5 ∧ peersQueued r = [] ∧ peers.readyQueue r = 0) := by
    intro r
    by_cases hr : r = 5
    · subst hr
      exact .inl ⟨rfl, rfl, rfl⟩
    · refine .inr ⟨hr, ?_, ?_⟩
      · rw [peersQueued, Function.update_of_ne hr]
      · simp only [peers, Function.update_of_ne hr]
  refine ⟨⟨fun r => ?_, fun r t ht => ?_⟩, by decide, fun r => ?_, rfl, by decide, fun r hr => ?_⟩
  · rcases hcases r with ⟨-, hq, hhead⟩ | ⟨-, hq, hhead⟩
    · rw [hq, hhead]
      exact ⟨rfl, by decide, rfl⟩
    · rw [hq, hhead]
      rfl
  · rcases hcases r with ⟨rfl, -⟩ | ⟨-, hq, -⟩
    · rfl
    · rw [hq] at ht
      cases ht
  · rcases hcases r with ⟨-, hq, -⟩ | ⟨-, hq, -⟩
    · rw [hq]
      decide
    · rw [hq]
      exact List.not_mem_nil
  · rcases hcases r with ⟨rfl, -⟩ | ⟨-, hq, -⟩
    · exact absurd hr (by decide)
    · exact hq

theorem no_round_robin_peers :
    ¬ (schedule peers .zero).currentTask ≠ peers.currentTask ∧
      ¬ (dispatchedInTurn peers [.zero, .zero]).Perm [1, 2] :=
  no_round_robin peers peersQueued 5 leading_peers rfl (by decide) .zero [.zero, .zero] rfl

/-- Task 1 is dispatched again, and once more at the end of its next slice. -/
theorem peers_not_in_turn :
    ¬ ∀ (s : Sched) (q : Nat → List Nat) (p : Nat), Leading s q p →
      (s.tcb s.currentTask).timeSlice = 1 → q p ≠ [] → ∀ (cpu : RegsContext)
      (cpus : List RegsContext), cpus.length = (s.currentTask :: q p).length →
        (schedule s cpu).currentTask ≠ s.currentTask ∧
          (dispatchedInTurn s cpus).Perm (s.currentTask :: q p) := by
  intro h
  exact (h peers peersQueued 5 leading_peers rfl (by decide) .zero [.zero, .zero] rfl).1
    (schedule_expired leading_peers rfl .zero).1

end SynapseKernel.Proc
