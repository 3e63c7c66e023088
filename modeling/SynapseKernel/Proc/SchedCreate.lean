import SynapseKernel.Proc.Sched

/-! # What creating a task does

A creation that is refused, at whatever allocation, leaves the queues and every
task as they were (`Refused`). One that is granted adds a record in a block
nobody held (`withTask`, `withIdleTask`). -/
namespace SynapseKernel.Proc
open SynapseKernel.Word SynapseKernel.Kheap

variable {s s' : Sched} {entry priority : Nat} {name : TaskName}

/-- The state after a creation that failed: next to what was freed again, only
`next_pid` may have moved. -/
structure Refused (s s' : Sched) : Prop where
  heap : s.heap.Later s'.heap
  tcb : ∀ t ≤ s.heap.requests, s'.tcb t = s.tcb t
  readyQueue : s'.readyQueue = s.readyQueue
  currentTask : s'.currentTask = s.currentTask
  created : s'.created = s.created
  exited : s'.exited = s.exited
  freedDirs : s'.freedDirs = s.freedDirs ∨
    ∃ p, s.heap.requests < p ∧ p ∈ s'.heap.freed ∧ s'.freedDirs = p :: s.freedDirs

theorem Refused.refl (s : Sched) : Refused s s :=
  ⟨.refl _, fun _ _ => rfl, rfl, rfl, rfl, rfl, .inl rfl⟩

/-- The record `create_task` makes. -/
def newTask (s : Sched) (entry : Nat) (name : TaskName) (priority : Nat) : Task :=
  let stackTop := u32 (s.heap.addr (s.heap.requests + 3) + 4096)
  { Task.zero with
    pid := s.nextPid, state := .ready, priority := priority, timeSlice := taskTimeSlice
    memoryUsageKb := 8, name := name, pageDir := .heap (s.heap.requests + 2)
    kernelStackTop := stackTop, regs := initialContext entry stackTop, parent := s.currentTask
    siblingNext := s.readyQueue priority }

/-- The state after a `create_task` that is granted its three blocks. -/
def withTask (s : Sched) (entry : Nat) (name : TaskName) (priority : Nat) : Sched :=
  let task := s.heap.requests + 1
  { s with
    heap := { s.heap with requests := s.heap.requests + 3 }
    tcb := Function.update s.tcb task (newTask s entry name priority)
    readyQueue := Function.update s.readyQueue priority task
    nextPid := u32 (s.nextPid + 1)
    created := task :: s.created }

/-- The record `create_idle_task` makes. -/
def newIdleTask (s : Sched) : Task :=
  let stackTop := u32 (s.heap.addr (s.heap.requests + 2) + 4096)
  { Task.zero with
    state := .ready, pageDir := .kernel, timeSlice := taskTimeSlice, memoryUsageKb := 4
    name := ⟨"idle", idle_fits⟩, kernelStackTop := stackTop
    regs := initialContext s.idleEntry stackTop }

/-- The state after a `create_idle_task` that is granted its two blocks. -/
def withIdleTask (s : Sched) : Sched :=
  let task := s.heap.requests + 1
  { s with
    heap := { s.heap with requests := s.heap.requests + 2 }
    tcb := Function.update s.tcb task (newIdleTask s)
    created := task :: s.created }

/-- Everything `create_task` can do. -/
theorem createTask_cases (s : Sched) (entry : Nat) (name : TaskName) (priority : Nat) :
    (priority < maxPriority ∧ s.heap.GrantsNext 3 ∧
      createTask s entry name priority = (s.heap.requests + 1, withTask s entry name priority)) ∨
    (¬ (priority < maxPriority ∧ s.heap.GrantsNext 3) ∧
      (createTask s entry name priority).1 = 0 ∧ Refused s (createTask s entry name priority).2) := by
  by_cases hp : maxPriority ≤ priority
  · rw [createTask, if_pos hp]
    exact .inr ⟨fun h => absurd h.1 (not_lt.mpr hp), rfl, .refl s⟩
  have hlater := BlockHeap.Later.refl s.heap
  cases h1 : s.heap.grants s.heap.requests with
  | false =>
    refine .inr ⟨fun h => BlockHeap.not_grantsNext (by decide : 0 < 3) h1 h.2, ?_⟩
    simp (disch := decide) only [createTask, if_neg hp, BlockHeap.kmalloc_of_ne_zero, h1,
      Bool.false_eq_true, if_false, if_true]
    exact ⟨trivial, hlater.kmalloc taskSize, fun _ _ => rfl, rfl, rfl, rfl, rfl, .inl rfl⟩
  | true =>
    have hg1 := (BlockHeap.grantsNext_zero s.heap).succ h1
    cases h2 : s.heap.grants (s.heap.requests + 1) with
    | false =>
      refine .inr ⟨fun h => BlockHeap.not_grantsNext (by decide : 1 < 3) h2 h.2, ?_⟩
      simp (disch := decide) only [createTask, if_neg hp, BlockHeap.kmalloc_of_ne_zero,
        Sched.modify, h1, h2, if_true, Nat.succ_ne_zero, if_false, Bool.false_eq_true]
      refine ⟨trivial, ((hlater.kmalloc taskSize).kmalloc pageDirectorySize).kfree
        (Nat.lt_succ_self _) (Nat.le_succ _), fun t ht => ?_, rfl, rfl, rfl, rfl, .inl rfl⟩
      simp only [Function.update_idem]
      exact Function.update_of_ne (by omega) _ _
    | true =>
      have hg2 := hg1.succ h2
      cases h3 : s.heap.grants (s.heap.requests + 2) with
      | false =>
        refine .inr ⟨fun h => BlockHeap.not_grantsNext (by decide : 2 < 3) h3 h.2, ?_⟩
        simp (disch := decide) only [createTask, if_neg hp, BlockHeap.kmalloc_of_ne_zero,
          Sched.modify, h1, h2, h3, if_true, Nat.succ_ne_zero, if_false, Bool.false_eq_true]
        refine ⟨trivial, ?_, fun t ht => ?_, rfl, rfl, rfl, rfl,
          .inr ⟨_, ?_, List.mem_cons_of_mem _ List.mem_cons_self, rfl⟩⟩
        · have h3' := ((hlater.kmalloc taskSize).kmalloc pageDirectorySize).kmalloc kernelStackSize
          exact (h3'.kfree (Nat.lt_succ_of_lt (Nat.lt_succ_self _)) (Nat.le_succ _)).kfree
            (Nat.lt_succ_self _) (Nat.le_add_right _ 2)
        · simp only [Function.update_idem]
          exact Function.update_of_ne (by omega) _ _
        · omega
      | true =>
        refine .inl ⟨not_le.mp hp, hg2.succ h3, ?_⟩
        simp (disch := decide) only [createTask, if_neg hp, BlockHeap.kmalloc_of_ne_zero,
          Sched.modify, h1, h2, h3, if_true, Nat.succ_ne_zero, if_false, Function.update_idem,
          Function.update_self]
        rfl

/-- Everything `create_idle_task` can do. -/
theorem createIdleTask_cases (s : Sched) :
    (s.heap.GrantsNext 2 ∧ createIdleTask s = (s.heap.requests + 1, withIdleTask s)) ∨
    (¬ s.heap.GrantsNext 2 ∧ (createIdleTask s).1 = 0 ∧ Refused s (createIdleTask s).2) := by
  have hlater := BlockHeap.Later.refl s.heap
  cases h1 : s.heap.grants s.heap.requests with
  | false =>
    refine .inr ⟨BlockHeap.not_grantsNext (by decide : 0 < 2) h1, ?_⟩
    simp (disch := decide) only [createIdleTask, BlockHeap.kmalloc_of_ne_zero, h1,
      Bool.false_eq_true, if_false, if_true]
    exact ⟨trivial, hlater.kmalloc taskSize, fun _ _ => rfl, rfl, rfl, rfl, rfl, .inl rfl⟩
  | true =>
    have hg1 := (BlockHeap.grantsNext_zero s.heap).succ h1
    cases h2 : s.heap.grants (s.heap.requests + 1) with
    | false =>
      refine .inr ⟨BlockHeap.not_grantsNext (by decide : 1 < 2) h2, ?_⟩
      simp (disch := decide) only [createIdleTask, BlockHeap.kmalloc_of_ne_zero, Sched.modify, h1,
        h2, if_true, Nat.succ_ne_zero, if_false, Bool.false_eq_true]
      refine ⟨trivial, ((hlater.kmalloc taskSize).kmalloc kernelStackSize).kfree
        (Nat.lt_succ_self _) (Nat.le_succ _), fun t ht => ?_, rfl, rfl, rfl, rfl, .inl rfl⟩
      exact Function.update_of_ne (by omega) _ _
    | true =>
      refine .inl ⟨hg1.succ h2, ?_⟩
      simp (disch := decide) only [createIdleTask, BlockHeap.kmalloc_of_ne_zero, Sched.modify, h1,
        h2, if_true, Nat.succ_ne_zero, if_false, Function.update_idem, Function.update_self]
      rfl

end SynapseKernel.Proc
