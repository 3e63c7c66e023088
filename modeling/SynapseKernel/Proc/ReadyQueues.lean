import SynapseKernel.Proc.Executor

/-! # The ready queues are well formed

What a client of the scheduler relies on, in every state of every run from a
successful `sched_init`: the queues are disjoint lists sorted by priority, a
time slice is never charged below zero, and loops over the queues end. -/
namespace SynapseKernel.Proc
open SynapseKernel.Word SynapseKernel.Kheap SynapseKernel.Links SynapseKernel.Runs

variable {s : Sched} {q : Nat → List Nat}

/-- Each queue is a finite list of tasks of its priority and no task occurs twice. -/
def WellFormed (s : Sched) : Prop := ∃ q : Nat → List Nat,
  (∀ p < maxPriority, IsList s.next (s.readyQueue p) (q p)) ∧
  ((List.range maxPriority).flatMap q).Nodup ∧
  ∀ p < maxPriority, ∀ t ∈ q p, (s.tcb t).priority = p

/-- Wherever `schedule` is called next, the decrement of a time slice does not wrap. -/
def SlicesInRange (s : Sched) : Prop := ∀ op s₁, scheduleEntry s op = some s₁ →
  ∀ t ∈ s₁.created, 1 ≤ (s₁.tcb t).timeSlice ∧ (s₁.tcb t).timeSlice ≤ taskTimeSlice

/-- The loops of the executor and of procfs over the queues end. -/
structure WalksEnd (s : Sched) : Prop where
  execute : ∀ pid, (findTask s pid).isSome
  status : ∀ pid, (findStatusTask s pid).isSome
  list : ∀ header line bufSize, (generateProcPsContent s header line bufSize).isSome

theorem SchedInv.nodup_queues (h : SchedInv s q) (is : List Nat) (hi : is.Nodup) :
    (is.flatMap q).Nodup := by
  refine List.nodup_flatMap.mpr ⟨fun p _ => (h.list p).nodup, ?_⟩
  refine hi.pairwise_of_forall_ne fun p _ r _ hpr t hp hr => hpr ?_
  exact h.unique_queue hr hp

theorem Sound.wellFormed (h : Sound s) : WellFormed s := by
  obtain ⟨q, hinv, -⟩ := h
  exact ⟨q, fun p _ => hinv.list p, hinv.nodup_queues _ List.nodup_range,
    fun p _ => hinv.priority p⟩

theorem Sound.slicesInRange (h : Sound s) : SlicesInRange s := fun _ _ he _ ht =>
  ⟨((h.scheduleEntry he).fit ht).pos, ((h.scheduleEntry he).fit ht).le⟩

theorem findStatusTask_isSome (h : Sound s) (pid : Nat) : (findStatusTask s pid).isSome := by
  rw [findStatusTask]
  split
  · rfl
  · rcases findTask_cases h pid with ⟨t, he, -⟩ | he
    · rw [he]
      rfl
    · rw [he]
      rfl

theorem generateProcPsContent_isSome (h : Sound s) (header : Nat → List UInt8)
    (line : Task → Nat → List UInt8) (bufSize : Nat) :
    (generateProcPsContent s header line bufSize).isSome := by
  obtain ⟨q, hinv, -⟩ := h
  simp only [generateProcPsContent, hinv.walkQueues_eq]
  split
  · rfl
  · split
    · rfl
    · split
      · next he => cases he
      · rfl
      · rfl

theorem Sound.walksEnd (h : Sound s) : WalksEnd s := by
  refine ⟨fun pid => ?_, findStatusTask_isSome h, generateProcPsContent_isSome h⟩
  rcases findTask_cases h pid with ⟨t, he, -⟩ | he
  · rw [he]
    rfl
  · rw [he]
    rfl

/-- An invariant that implies a property and is kept by every step. -/
theorem always_of_sound {P : Sched → Prop} (hP : ∀ s, Sound s → P s) (h : Sound s)
    (ops : List TaskOp) : Always taskStep P s ops := by
  induction ops generalizing s with
  | nil => exact hP s h
  | cons op ops ih => exact ⟨hP s h, ih (h.taskStep op)⟩

/-- **The ready queues stay well formed** from `sched_init` on, whatever is
created, scheduled, exited, executed or put to sleep, and whatever allocations
are refused. -/
theorem readyQueues_wellFormed (heap : BlockHeap) (hs : heap.Sane) (i j : Nat)
    (ops : List TaskOp) :
    Always taskStep (fun s => WellFormed s ∧ SlicesInRange s ∧ WalksEnd s)
      (schedInit (.boot heap i j)) ops :=
  always_of_sound (fun _ h => ⟨h.wellFormed, h.slicesInRange, h.walksEnd⟩) (.schedInit hs i j) ops

theorem readyQueues_wellFormed_grantingHeap :
    Always taskStep (fun s => WellFormed s ∧ SlicesInRange s ∧ WalksEnd s)
      (schedInit (.boot grantingHeap 0x1000 0x1100))
      [.sched (.schedule .zero), .execute ⟨.kill, 0, [], []⟩ 'y' .zero] :=
  readyQueues_wellFormed grantingHeap sane_grantingHeap 0x1000 0x1100 _

end SynapseKernel.Proc
