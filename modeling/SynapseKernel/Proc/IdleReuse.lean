import SynapseKernel.Proc.PriorityDispatch

/-! # The idle task is not reused

With nothing queued `schedule` does not go back to the idle task `sched_init` made:
it makes another one, with pid 0 as well (`schedule_none`). A run of timer ticks
keeps the tasks and the heap as they are as long as no tick comes to that point
with memory left (`sameMemory_iff_no_idle`). -/
namespace SynapseKernel.Proc
open SynapseKernel.Word SynapseKernel.Kheap SynapseKernel.Links SynapseKernel.Runs

variable {s s' s₀ s₁ : Sched} {q : Nat → List Nat} {p t : Nat} {cpu : RegsContext} {regs : Regs}

/-- A timer tick, with the registers of the interrupted code and those at the call of
`switch_to`. -/
def tickStep (s : Sched) (tick : Regs × RegsContext) : Sched :=
  timerInterruptHandler s tick.1 tick.2

/-- The task control blocks and the live blocks of the heap are those of `s₀`, and no
two tasks have the same pid. -/
structure SameMemory (s₀ s : Sched) : Prop where
  created : s.created = s₀.created
  live : ∀ b, s.heap.Live b ↔ s₀.heap.Live b
  pids : (s.created.map fun t => (s.tcb t).pid).Nodup

/-- Nothing is queued, the current task has time left after this tick, and the heap
would grant a record and a stack. -/
structure MakesIdle (s : Sched) : Prop where
  current : s.currentTask ≠ 0
  alone : ∀ t, ¬ Queued s t
  slice : (s.tcb s.currentTask).timeSlice ≠ 1
  memory : s.heap.GrantsNext 2

/-! ## Pids -/

theorem pid_afterSlice (s : Sched) (t : Nat) : ((afterSlice s).tcb t).pid = (s.tcb t).pid := by
  have hcharge : ((chargeCurrent s).tcb t).pid = (s.tcb t).pid := by
    refine s.modify_field Task.pid ?_ _ t
    exact fun _ => rfl
  rw [afterSlice]
  split
  · have hrequeue : (((chargeCurrent s).modify s.currentTask fun x =>
        { x with
          state := .ready, timeSlice := taskTimeSlice
          siblingNext := (chargeCurrent s).readyQueue x.priority }).tcb t).pid =
        ((chargeCurrent s).tcb t).pid := by
      refine (chargeCurrent s).modify_field Task.pid ?_ _ t
      exact fun _ => rfl
    exact Eq.trans hrequeue hcharge
  · exact hcharge

theorem pid_popped (s : Sched) (p t x : Nat) : ((popped s p t).tcb x).pid = (s.tcb x).pid := by
  refine Sched.modify_field Task.pid ?_ _ t x
  exact fun _ => rfl

theorem pid_dispatch (s : Sched) (cpu : RegsContext) (t x : Nat) :
    ((dispatch s cpu t).tcb x).pid = (s.tcb x).pid := by
  have hrun : ((s.modify t fun x => { x with state := .running, lastScheduled := 0 }).tcb
      x).pid = (s.tcb x).pid := by
    refine s.modify_field Task.pid ?_ t x
    exact fun _ => rfl
  simp only [dispatch, switchRecords]
  split
  · split
    · exact hrun
    · refine (Sched.modify_field Task.pid ?_ _ _ x).trans hrun
      exact fun _ => rfl
  · exact hrun

theorem pid_saveInterrupted (s : Sched) (regs : Regs) (t : Nat) :
    ((saveInterrupted s regs).tcb t).pid = (s.tcb t).pid := by
  rw [saveInterrupted]
  split
  · refine s.modify_field Task.pid ?_ _ t
    exact fun _ => rfl
  · rfl

/-! ## One tick -/

/-- The tasks, their pids and the live blocks are the same. -/
structure Keeps (s s' : Sched) : Prop where
  created : s'.created = s.created
  live : ∀ b, s'.heap.Live b ↔ s.heap.Live b
  pid : ∀ t ∈ s.created, (s'.tcb t).pid = (s.tcb t).pid

theorem Keeps.sameMemory (h : Keeps s s') (hs : SameMemory s₀ s) : SameMemory s₀ s' := by
  refine ⟨h.created.trans hs.created, fun b => (h.live b).trans (hs.live b), ?_⟩
  rw [h.created, List.map_congr_left h.pid]
  exact hs.pids

/-- An idle task that is refused its memory leaves nothing behind on the heap. -/
theorem live_createIdleTask (hno : ¬ s.heap.GrantsNext 2) (b : Nat) :
    (createIdleTask s).2.heap.Live b ↔ s.heap.Live b := by
  cases h1 : s.heap.grants s.heap.requests with
  | false =>
    have hheap : (createIdleTask s).2.heap = (s.heap.kmalloc taskSize).2 := by
      simp (disch := decide) only [createIdleTask, BlockHeap.kmalloc_of_ne_zero, h1,
        Bool.false_eq_true, if_false, if_true]
    rw [hheap]
    exact BlockHeap.live_kmalloc_refused h1
  | true =>
    have h2 : s.heap.grants (s.heap.requests + 1) = false := by
      by_contra h2
      refine hno (((BlockHeap.grantsNext_zero s.heap).succ h1).succ ?_)
      exact Bool.eq_true_of_not_eq_false h2
    have hheap : (createIdleTask s).2.heap =
        (((s.heap.kmalloc taskSize).2.kmalloc kernelStackSize).2.kfree (s.heap.requests + 1)) := by
      simp (disch := decide) only [createIdleTask, BlockHeap.kmalloc_of_ne_zero, Sched.modify, h1,
        h2, if_true, Nat.succ_ne_zero, if_false, Bool.false_eq_true]
    rw [hheap, BlockHeap.live_kfree, @BlockHeap.live_kmalloc_refused (s.heap.kmalloc taskSize).2 _ _ h2,
      ← BlockHeap.live_kfree]
    exact BlockHeap.live_kmalloc_kfree

/-- With the time slice over the current task itself is queued again. -/
theorem slice_ne_one (h : SchedInv s q) (h0 : s.currentTask ≠ 0) (hon : Off s q ∨ AtBoot s q) :
    (∃ q₁, SchedInv (afterSlice s) q₁ ∧ (s.tcb s.currentTask).timeSlice = 1 ∧
      ∃ p, q₁ p ≠ []) ∨
    ((s.tcb s.currentTask).timeSlice ≠ 1 ∧ SchedInv (afterSlice s) q) := by
  rcases afterSlice_cases h h0 hon with ⟨hone, -, -, h₁⟩ | ⟨hlt, -, h₁⟩
  · refine .inl ⟨_, h₁, hone, (s.tcb s.currentTask).priority, ?_⟩
    rw [Function.update_self]
    exact List.cons_ne_nil _ _
  · exact .inr ⟨Nat.ne_of_gt hlt, h₁⟩

theorem keeps_popped (h₁ : SchedInv (afterSlice s) q) {rest : List Nat} (hq : q p = t :: rest)
    (he : schedule s cpu = dispatch (popped (afterSlice s) p t) cpu t) :
    Keeps s (schedule s cpu) := by
  have htouch := (highest_popped h₁ hq he).1
  refine ⟨htouch.created, fun b => ?_, fun x _ => ?_⟩
  · rw [htouch.heap]
  · rw [he, pid_dispatch, pid_popped, pid_afterSlice]

/-- A call of `schedule` that does not come to the fallback keeps everything. -/
theorem keeps_schedule (h : Sound s) (hno : ¬ MakesIdle s) (cpu : RegsContext) :
    Keeps s (schedule s cpu) := by
  obtain ⟨q, hinv, hon⟩ := h
  by_cases h0 : s.currentTask = 0
  · rw [schedule, if_pos h0]
    exact ⟨rfl, fun _ => Iff.rfl, fun _ _ => rfl⟩
  · have hslice := touches_afterSlice s
    rcases slice_ne_one hinv h0 hon with ⟨q₁, h₁, -, r, hr⟩ | ⟨hone, h₁⟩
    · rcases schedule_cases h0 h₁ cpu with ⟨p, t, rest, hq, -, he⟩ | ⟨hempty, -⟩
      · exact keeps_popped h₁ hq he
      · exact absurd (hempty r) hr
    · rcases schedule_cases h0 h₁ cpu with ⟨p, t, rest, hq, -, he⟩ | ⟨hempty, -⟩
      · exact keeps_popped h₁ hq he
      · rcases schedule_none h0 h₁ hempty cpu with ⟨hg, -⟩ | ⟨hfull, he, hr⟩
        · exact absurd ⟨h0, hinv.not_queued hempty, hone, hg⟩ hno
        · refine ⟨hr.created.trans hslice.created, fun b => ?_, fun x hx => ?_⟩
          · rw [he, live_createIdleTask (hslice.heap ▸ hfull), hslice.heap]
          · have hle : x ≤ (afterSlice s).heap.requests := by
              rw [hslice.heap]
              exact (hinv.handed x hx).2
            rw [hr.tcb x hle, pid_afterSlice]

/-- The fallback adds a task. -/
theorem created_of_makesIdle (h : Sound s) (hidle : MakesIdle s) (cpu : RegsContext) :
    (schedule s cpu).created = (s.heap.requests + 1) :: s.created := by
  obtain ⟨q, hinv, hon⟩ := h
  have hslice := touches_afterSlice s
  rcases slice_ne_one hinv hidle.current hon with ⟨-, -, hone, -⟩ | ⟨-, h₁⟩
  · exact absurd hone hidle.slice
  · have hempty : ∀ p, q p = [] := by
      intro p
      refine List.eq_nil_iff_forall_not_mem.mpr fun t ht => ?_
      exact hidle.alone t (hinv.queued_iff.mpr ⟨p, ht⟩)
    rcases schedule_none hidle.current h₁ hempty cpu with ⟨-, he⟩ | ⟨hfull, -⟩
    · rw [he, (touches_dispatch _ cpu _).created]
      have hnew : (withIdleTask (afterSlice s)).created =
          ((afterSlice s).heap.requests + 1) :: (afterSlice s).created := rfl
      rw [hnew, hslice.heap, hslice.created]
    · exact absurd hidle.memory hfull

/-! ## Runs -/

theorem SameQueues.makesIdle (h : SameQueues s s₁) : MakesIdle s₁ ↔ MakesIdle s := by
  constructor
  · intro hidle
    refine ⟨?_, fun t ht => hidle.alone t (h.queued.mpr ht), ?_, ?_⟩
    · rw [← h.currentTask]
      exact hidle.current
    · rw [← h.timeSlice, ← h.currentTask]
      exact hidle.slice
    · rw [← h.heap]
      exact hidle.memory
  · intro hidle
    refine ⟨?_, fun t ht => hidle.alone t (h.queued.mp ht), ?_, ?_⟩
    · rw [h.currentTask]
      exact hidle.current
    · rw [h.timeSlice, h.currentTask]
      exact hidle.slice
    · rw [h.heap]
      exact hidle.memory

/-- **One tick** keeps tasks and heap unless it comes to the fallback with memory left. -/
theorem keeps_tick (h : Sound s) (hno : ¬ MakesIdle s) (tick : Regs × RegsContext) :
    Keeps s (tickStep s tick) := by
  have hsame := sameQueues_atInterrupt s tick.1
  have hkeeps := keeps_schedule (h.atInterrupt tick.1) (mt hsame.makesIdle.mp hno) tick.2
  refine ⟨hkeeps.created.trans hsame.created, fun b => ?_, fun t ht => ?_⟩
  · rw [tickStep, timerInterruptHandler_eq_schedule, hkeeps.live, hsame.heap]
  · rw [tickStep, timerInterruptHandler_eq_schedule, hkeeps.pid t (hsame.created ▸ ht)]
    exact pid_saveInterrupted _ _ t

theorem Sound.tickStep (h : Sound s) (tick : Regs × RegsContext) : Sound (tickStep s tick) :=
  h.tick tick.1 tick.2

theorem sameMemory_init (heap : BlockHeap) (i j : Nat) :
    SameMemory (schedInit (.boot heap i j)) (schedInit (.boot heap i j)) := by
  refine ⟨rfl, fun _ => Iff.rfl, ?_⟩
  rcases schedInit_cases (.boot heap i j) with hr | hr | ⟨-, he⟩
  · rw [hr.created]
    exact List.nodup_nil
  · rw [hr.created]
    exact List.nodup_singleton _
  · rw [he]
    set s : Sched := { Sched.boot heap i j with readyQueue := fun _ => 0 }
    have hcreated : (started s).created = [s.heap.requests + 3, s.heap.requests + 1] := rfl
    have hinit : (started s).tcb (s.heap.requests + 3) =
        newTask (queuedIdle s) s.initEntry ⟨"init", init_fits⟩ 5 := Function.update_self _ _ _
    have hpids : (started s).created.map (fun t => ((started s).tcb t).pid) = [1, 0] := by
      rw [hcreated, List.map_cons, List.map_cons, List.map_nil, hinit, started_idle]
      rfl
    rw [hpids]
    decide

/-- **No memory for scheduling.** A run of timer ticks from the state `sched_init` leaves
keeps the tasks, their different pids and the live blocks of the heap if and only if
no tick finds nothing queued, time left for the current task, and memory for another
idle task. -/
theorem sameMemory_iff_no_idle {heap : BlockHeap} (hs : heap.Sane) (idleEntry initEntry : Nat)
    (ticks : List (Regs × RegsContext)) :
    Always tickStep (SameMemory (schedInit (.boot heap idleEntry initEntry)))
        (schedInit (.boot heap idleEntry initEntry)) ticks ↔
      Guarded tickStep (fun s _ => ¬ MakesIdle s)
        (schedInit (.boot heap idleEntry initEntry)) ticks := by
  set s₀ := schedInit (.boot heap idleEntry initEntry)
  refine always_iff_guarded (fun s => Sound s ∧ SameMemory s₀ s) (fun _ h => h.2)
    (fun _ tick h hno => ⟨h.1.tickStep tick, (keeps_tick h.1 hno tick).sameMemory h.2⟩)
    (fun s tick h hidle hsame => ?_) ⟨.schedInit hs idleEntry initEntry, sameMemory_init heap _ _⟩ ticks
  have hqueues := sameQueues_atInterrupt s tick.1
  have hadd := created_of_makesIdle (h.1.atInterrupt tick.1)
    (hqueues.makesIdle.mpr (not_not.mp hidle)) tick.2
  have hlength := congrArg List.length (hadd.symm.trans (hsame.created.trans h.2.created.symm))
  rw [List.length_cons, hqueues.created] at hlength
  exact absurd hlength (Nat.succ_ne_self _)

/-- A tick with all registers zero. -/
def zeroTick : Regs × RegsContext := (⟨0, 0, 0, 0, 0, 0, 0, 0, 0, 0, 0, 0, 0, 0, 0, 0⟩, .zero)

/-- With two ticks: the idle task is displaced and comes back. -/
theorem sameMemory_iff_no_idle_two :
    Always tickStep (SameMemory (schedInit (.boot grantingHeap 0 0)))
        (schedInit (.boot grantingHeap 0 0)) [zeroTick, zeroTick] ↔
      Guarded tickStep (fun s _ => ¬ MakesIdle s)
        (schedInit (.boot grantingHeap 0 0)) [zeroTick, zeroTick] :=
  sameMemory_iff_no_idle sane_grantingHeap 0 0 _

/-- The third tick makes a second idle task, with pid 0 as the first. -/
theorem not_sameMemory_three :
    ¬ Always tickStep (SameMemory (schedInit (.boot grantingHeap 0 0)))
      (schedInit (.boot grantingHeap 0 0)) [zeroTick, zeroTick, zeroTick] := by
  intro h
  have hlast : SameMemory (schedInit (.boot grantingHeap 0 0))
      ([zeroTick, zeroTick, zeroTick].foldl tickStep (schedInit (.boot grantingHeap 0 0))) :=
    h.2.2.2
  have hpids : ¬ (([zeroTick, zeroTick, zeroTick].foldl tickStep
      (schedInit (.boot grantingHeap 0 0))).created.map fun t =>
        (([zeroTick, zeroTick, zeroTick].foldl tickStep
          (schedInit (.boot grantingHeap 0 0))).tcb t).pid).Nodup := by decide
  exact hpids hlast.pids

end SynapseKernel.Proc
