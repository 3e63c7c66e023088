import SynapseKernel.Lib.Links
import SynapseKernel.Proc.SchedCreate

/-! # The ready queues as lists

`Queues s q` keeps beside each queue the list of the tasks in it. `SchedInv` is
what every operation of the scheduler preserves: each queue is a finite list of
created tasks of its priority, and records are in range. The current task is
queued only between `sched_init` and the first `schedule` (`AtBoot`). -/
namespace SynapseKernel.Proc
open SynapseKernel.Word SynapseKernel.Kheap SynapseKernel.Links

variable {s s' : Sched} {q q' : Nat → List Nat} {p t : Nat} {rest : List Nat} {cpu : RegsContext}

abbrev Sched.next (s : Sched) (t : Nat) : Nat := (s.tcb t).siblingNext

/-- An assignment to other fields of one record. -/
theorem Sched.modify_field {α : Type} (g : Task → α) {f : Task → Task} (hf : ∀ x, g (f x) = g x)
    (s : Sched) (task x : Nat) : g ((s.modify task f).tcb x) = g (s.tcb x) := by
  simp only [Sched.modify]
  by_cases hx : x = task
  · rw [hx, Function.update_self]
    exact hf _
  · rw [Function.update_of_ne hx]

/-- The queue of priority `p` is the list `q p`. -/
structure Queues (s : Sched) (q : Nat → List Nat) : Prop where
  list : ∀ p, IsList s.next (s.readyQueue p) (q p)
  priority : ∀ p, ∀ t ∈ q p, (s.tcb t).priority = p

theorem Queues.unique_queue (h : Queues s q) {r : Nat} (ht : t ∈ q p) (hr : t ∈ q r) : r = p :=
  (h.priority r t hr).symm.trans (h.priority p t ht)

theorem Queues.congr (h : Queues s q) (hr : s'.readyQueue = s.readyQueue)
    (ht : ∀ p, ∀ t ∈ q p, s'.next t = s.next t ∧ (s'.tcb t).priority = (s.tcb t).priority) :
    Queues s' q := by
  refine ⟨fun p => ?_, fun p t hp => (ht p t hp).2.trans (h.priority p t hp)⟩
  rw [hr]
  exact (h.list p).congr fun t hp => (ht p t hp).1

/-- An assignment that leaves a record linked where it is. -/
theorem Queues.modify (h : Queues s q) {task : Nat} {f : Task → Task}
    (hnext : ∀ x, (f x).siblingNext = x.siblingNext) (hprio : ∀ x, (f x).priority = x.priority) :
    Queues (s.modify task f) q :=
  h.congr rfl fun _ x _ => ⟨s.modify_field _ hnext task x, s.modify_field _ hprio task x⟩

/-- One queue becomes the list `l`, and the records of the others stay. -/
theorem Queues.update (h : Queues s q) {l : List Nat} {head : Nat}
    (hr : s'.readyQueue = Function.update s.readyQueue p head) (hlist : IsList s'.next head l)
    (hprio : ∀ x ∈ l, (s'.tcb x).priority = p)
    (hother : ∀ r, r ≠ p → ∀ x ∈ q r, s'.tcb x = s.tcb x) :
    Queues s' (Function.update q p l) := by
  refine ⟨fun r => ?_, fun r x hx => ?_⟩
  · rw [hr]
    by_cases hrp : r = p
    · subst hrp
      rw [Function.update_self, Function.update_self]
      exact hlist
    · rw [Function.update_of_ne hrp, Function.update_of_ne hrp]
      exact (h.list r).congr fun x hx => by rw [Sched.next, hother r hrp x hx]
  · by_cases hrp : r = p
    · subst hrp
      rw [Function.update_self] at hx
      exact hprio x hx
    · rw [Function.update_of_ne hrp] at hx
      rw [hother r hrp x hx]
      exact h.priority r x hx

/-- A task that is in no queue is put at the head of one. -/
theorem Queues.push (h : Queues s q) (h0 : t ≠ 0) (hoff : ∀ r, t ∉ q r)
    (hr : s'.readyQueue = Function.update s.readyQueue p t) (hnext : s'.next t = s.readyQueue p)
    (hprio : (s'.tcb t).priority = p) (hother : ∀ x, x ≠ t → s'.tcb x = s.tcb x) :
    Queues s' (Function.update q p (t :: q p)) := by
  have hold : ∀ r, ∀ x ∈ q r, s'.tcb x = s.tcb x := fun r x hx =>
    hother x fun he => hoff r (he ▸ hx)
  have hlist : IsList s'.next (s.readyQueue p) (q p) :=
    (h.list p).congr fun x hx => by rw [Sched.next, hold p x hx]
  refine h.update hr ⟨rfl, h0, hnext ▸ hlist⟩ (fun x hx => ?_) fun r _ => hold r
  rcases List.mem_cons.mp hx with rfl | hx
  · exact hprio
  · rw [hold p x hx]
    exact h.priority p x hx

/-- The head of a queue is taken off. -/
theorem Queues.pop (h : Queues s q) (hq : q p = t :: rest)
    (hr : s'.readyQueue = Function.update s.readyQueue p (s.next t))
    (hother : ∀ x, x ≠ t → s'.tcb x = s.tcb x) : Queues s' (Function.update q p rest) := by
  have hp := h.list p
  have hnodup := hp.nodup
  rw [hq] at hp hnodup
  have hrest : ∀ x ∈ rest, s'.tcb x = s.tcb x := fun x hx =>
    hother x fun he => (List.nodup_cons.mp hnodup).1 (he ▸ hx)
  refine h.update hr (hp.2.2.congr fun x hx => by rw [Sched.next, hrest x hx]) (fun x hx => ?_)
    fun r hrp x hx => ?_
  · rw [hrest x hx]
    exact h.priority p x (hq ▸ List.mem_cons_of_mem _ hx)
  · refine hother x fun he => hrp (h.unique_queue ?_ hx)
    rw [he, hq]
    exact List.mem_cons_self

/-! ## The invariant -/

/-- The record of a task between two operations, after `n` requests to the heap. -/
structure Fit (n : Nat) (t : Task) : Prop where
  low : t.priority < maxPriority
  pos : 0 < t.timeSlice
  le : t.timeSlice ≤ taskTimeSlice
  dir : ∀ b, t.pageDir = .heap b → 0 < b ∧ b ≤ n

theorem Fit.mono {n m : Nat} {x : Task} (h : Fit n x) (hle : n ≤ m) : Fit m x :=
  ⟨h.low, h.pos, h.le, fun b hb => ⟨(h.dir b hb).1, Nat.le_trans (h.dir b hb).2 hle⟩⟩

theorem Fit.same {n : Nat} {x y : Task} (h : Fit n x) (hp : y.priority = x.priority)
    (hs : y.timeSlice = x.timeSlice) (hd : y.pageDir = x.pageDir) : Fit n y :=
  ⟨hp ▸ h.low, hs ▸ h.pos, hs ▸ h.le, fun b hb => h.dir b (hd ▸ hb)⟩

structure SchedInv (s : Sched) (q : Nat → List Nat) : Prop extends Queues s q where
  sane : s.heap.Sane
  queued : ∀ p, ∀ t ∈ q p, t ∈ s.created
  handed : ∀ t ∈ s.created, 0 < t ∧ t ≤ s.heap.requests
  fit : ∀ t ∈ s.created, Fit s.heap.requests (s.tcb t)
  current : s.currentTask = 0 ∨ s.currentTask ∈ s.created

/-- The current task is in no queue. -/
def Off (s : Sched) (q : Nat → List Nat) : Prop := ∀ p, s.currentTask ∉ q p

/-- As `sched_init` leaves it: the idle task is current and queued, with a whole
time slice, and a task of higher priority is queued. -/
structure AtBoot (s : Sched) (q : Nat → List Nat) : Prop where
  idle : s.currentTask ∈ q 0
  slice : (s.tcb s.currentTask).timeSlice = taskTimeSlice
  init : q 5 ≠ []

theorem SchedInv.fresh (h : SchedInv s q) : s.heap.requests + 1 ∉ s.created := fun hm => by
  have := (h.handed _ hm).2
  omega

theorem SchedInv.fresh_off (h : SchedInv s q) (p : Nat) : s.heap.requests + 1 ∉ q p :=
  fun hm => h.fresh (h.queued p _ hm)

/-- A record in a fresh block leaves the others as they are. -/
theorem SchedInv.update_old (h : SchedInv s q) {x : Task} (ht : t ∈ s.created) :
    Function.update s.tcb (s.heap.requests + 1) x t = s.tcb t := by
  have hne : t ≠ s.heap.requests + 1 := fun he => h.fresh (he ▸ ht)
  exact Function.update_of_ne hne _ _

theorem SchedInv.empty_of_le (h : SchedInv s q) (hp : maxPriority ≤ p) : q p = [] := by
  refine List.eq_nil_iff_forall_not_mem.mpr fun t ht => ?_
  have hlow := (h.fit t (h.queued p t ht)).low
  rw [h.priority p t ht] at hlow
  exact absurd hp (not_le.mpr hlow)

/-- The same queues and records, whatever else changed. -/
theorem SchedInv.congr (h : SchedInv s q) (hsane : s'.heap.Sane)
    (hreq : s'.heap.requests = s.heap.requests) (htcb : s'.tcb = s.tcb)
    (hqueue : s'.readyQueue = s.readyQueue) (hcreated : s'.created = s.created)
    (hcurrent : s'.currentTask = 0 ∨ s'.currentTask ∈ s.created) : SchedInv s' q := by
  refine ⟨h.toQueues.congr hqueue fun p t _ => ?_, hsane, ?_, ?_, ?_, ?_⟩
  · rw [Sched.next, htcb]
    exact ⟨rfl, rfl⟩
  · rw [hcreated]
    exact h.queued
  · rw [hcreated, hreq]
    exact h.handed
  · rw [hcreated, hreq, htcb]
    exact h.fit
  · rw [hcreated]
    exact hcurrent

/-- An assignment to fields that `schedule` does not look at. -/
structure Inert (f : Task → Task) : Prop where
  siblingNext : ∀ x, (f x).siblingNext = x.siblingNext
  priority : ∀ x, (f x).priority = x.priority
  timeSlice : ∀ x, (f x).timeSlice = x.timeSlice

theorem SchedInv.modify (h : SchedInv s q) {task : Nat} {f : Task → Task}
    (hnext : ∀ x, (f x).siblingNext = x.siblingNext) (hprio : ∀ x, (f x).priority = x.priority)
    (hfit : task ∈ s.created → Fit s.heap.requests (f (s.tcb task))) :
    SchedInv (s.modify task f) q := by
  refine ⟨h.toQueues.modify hnext hprio, h.sane, h.queued, h.handed, fun x hx => ?_, h.current⟩
  simp only [Sched.modify]
  by_cases hxt : x = task
  · rw [hxt, Function.update_self]
    exact hfit (hxt ▸ hx)
  · rw [Function.update_of_ne hxt]
    exact h.fit x hx

theorem SchedInv.inert (h : SchedInv s q) {task : Nat} {f : Task → Task} (hf : Inert f)
    (hd : task ∈ s.created → ∀ b, (f (s.tcb task)).pageDir = .heap b →
      0 < b ∧ b ≤ s.heap.requests) : SchedInv (s.modify task f) q := by
  refine h.modify hf.siblingNext hf.priority fun hm => ?_
  have hfit := h.fit task hm
  exact ⟨(hf.priority _).le.trans_lt hfit.low, hfit.pos.trans_eq (hf.timeSlice _).symm,
    (hf.timeSlice _).le.trans hfit.le, hd hm⟩

theorem SchedInv.refused (h : SchedInv s q) (hr : Refused s s') : SchedInv s' q := by
  have htcb : ∀ t ∈ s.created, s'.tcb t = s.tcb t := fun t ht => hr.tcb t (h.handed t ht).2
  refine ⟨h.toQueues.congr hr.readyQueue fun p t ht => ?_, hr.heap.sane h.sane, ?_, ?_, ?_, ?_⟩
  · rw [Sched.next, htcb t (h.queued p t ht)]
    exact ⟨rfl, rfl⟩
  · rw [hr.created]
    exact h.queued
  · intro t ht
    rw [hr.created] at ht
    exact ⟨(h.handed t ht).1, Nat.le_trans (h.handed t ht).2 hr.heap.le⟩
  · intro t ht
    rw [hr.created] at ht
    rw [htcb t ht]
    exact (h.fit t ht).mono hr.heap.le
  · rw [hr.currentTask, hr.created]
    exact h.current

/-- A new record in a fresh block, whatever queue it goes to. -/
theorem SchedInv.add {task : Task} {n : Nat} (h : SchedInv s q) (hq : Queues s' q')
    (hheap : s'.heap = { s.heap with requests := s.heap.requests + (n + 1) })
    (htcb : s'.tcb = Function.update s.tcb (s.heap.requests + 1) task)
    (hfit : Fit (s.heap.requests + (n + 1)) task)
    (hcreated : s'.created = (s.heap.requests + 1) :: s.created)
    (hqueued : ∀ p, ∀ t ∈ q' p, t = s.heap.requests + 1 ∨ t ∈ q p)
    (hcurrent : s'.currentTask = s.currentTask) : SchedInv s' q' := by
  refine ⟨hq, ?_, fun p t ht => ?_, fun t ht => ?_, fun t ht => ?_, ?_⟩
  · rw [hheap]
    exact fun x hx => Nat.le_trans (h.sane x hx) (Nat.le_add_right _ _)
  · rw [hcreated]
    rcases hqueued p t ht with rfl | ht
    · exact List.mem_cons_self
    · exact List.mem_cons_of_mem _ (h.queued p t ht)
  · rw [hcreated] at ht
    simp only [hheap]
    rcases List.mem_cons.mp ht with rfl | ht
    · omega
    · have := h.handed t ht
      omega
  · rw [hcreated] at ht
    rw [htcb]
    rcases List.mem_cons.mp ht with rfl | ht
    · rw [Function.update_self, hheap]
      exact hfit
    · rw [h.update_old ht, hheap]
      exact (h.fit t ht).mono (Nat.le_add_right _ _)
  · rw [hcurrent, hcreated]
    exact h.current.imp_right (List.mem_cons_of_mem _)

theorem SchedInv.withTask (h : SchedInv s q) (entry : Nat) (name : TaskName)
    (hp : p < maxPriority) : SchedInv (withTask s entry name p)
      (Function.update q p ((s.heap.requests + 1) :: q p)) := by
  have hfit : Fit (s.heap.requests + 3) (newTask s entry name p) := by
    refine ⟨hp, Nat.zero_lt_succ _, Nat.le_refl _, fun b hb => ?_⟩
    have hdir : s.heap.requests + 2 = b := PageDir.heap.inj hb
    omega
  refine h.add (h.toQueues.push (Nat.succ_ne_zero _) h.fresh_off rfl ?_ ?_ fun x hx => ?_) (n := 2)
    rfl rfl hfit rfl (fun r x hx => ?_) rfl
  · simp only [Proc.withTask, Sched.next, Function.update_self, newTask]
  · simp only [Proc.withTask, Function.update_self, newTask]
  · exact Function.update_of_ne hx _ _
  · by_cases hr : r = p
    · subst hr
      rw [Function.update_self] at hx
      exact List.mem_cons.mp hx
    · rw [Function.update_of_ne hr] at hx
      exact .inr hx

theorem SchedInv.withIdleTask (h : SchedInv s q) : SchedInv (withIdleTask s) q := by
  have hother : ∀ p, ∀ t ∈ q p, (Proc.withIdleTask s).tcb t = s.tcb t := fun p t ht =>
    h.update_old (h.queued p t ht)
  refine h.add (h.toQueues.congr rfl fun p t ht => ?_) (n := 1) rfl rfl
    ⟨Nat.zero_lt_succ _, Nat.zero_lt_succ _, Nat.le_refl _, fun _ hb => by cases hb⟩ rfl
    (fun p t ht => .inr ht) rfl
  rw [Sched.next, hother p t ht]
  exact ⟨rfl, rfl⟩

end SynapseKernel.Proc
