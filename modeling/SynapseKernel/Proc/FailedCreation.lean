import SynapseKernel.Mm.KheapPayload
import SynapseKernel.Mm.KheapTakes
import SynapseKernel.Proc.ProcessRing
import SynapseKernel.Proc.SchedCreate

/-! # A creation that fails leaves nothing behind

`create_idle_task` makes two requests of the heap, `create_task` and
`create_process` three, and what was granted is freed again when a later request is
refused. The live blocks are then those of before, and so the block list is. -/
namespace SynapseKernel.Proc
open SynapseKernel.Word SynapseKernel.Kheap

variable {s s' : Sched} {entry priority : Nat} {name : TaskName}

/-- The ready queues, the tasks on them and the current task. -/
structure QueuesKept (s s' : Sched) : Prop where
  readyQueue : s'.readyQueue = s.readyQueue
  currentTask : s'.currentTask = s.currentTask
  tcb : ∀ t, s.heap.Live t → s'.tcb t = s.tcb t

theorem Refused.queuesKept (h : Refused s s') : QueuesKept s s' :=
  ⟨h.readyQueue, h.currentTask, fun t hl => h.tcb t hl.le⟩

/-- The requests of `create_task`. -/
theorem createTask_heap (s : Sched) (entry : Nat) (name : TaskName) (hp : priority < maxPriority) :
    (createTask s entry name priority).2.heap =
        (s.heap.takeThree taskSize pageDirectorySize kernelStackSize).2 ∧
      ((createTask s entry name priority).1 = 0 ↔
        (s.heap.takeThree taskSize pageDirectorySize kernelStackSize).1 = false) := by
  have hp' : ¬ maxPriority ≤ priority := Nat.not_le.mpr hp
  rcases s.heap.takeThree_cases taskSize pageDirectorySize kernelStackSize with
    ⟨h1, he⟩ | ⟨h1, h2, he⟩ | ⟨h1, h2, h3, he⟩ | ⟨h1, h2, h3, he⟩
  · rw [he]
    simp (disch := decide) only [createTask, if_neg hp', BlockHeap.kmalloc_of_ne_zero, h1,
      Bool.false_eq_true, if_false, if_true]
    exact ⟨trivial, trivial⟩
  · rw [he]
    simp (disch := decide) only [createTask, if_neg hp', BlockHeap.kmalloc_of_ne_zero,
      Sched.modify, h1, h2, Nat.succ_ne_zero, Bool.false_eq_true, if_false, if_true]
    exact ⟨trivial, trivial⟩
  · rw [he]
    simp (disch := decide) only [createTask, if_neg hp', BlockHeap.kmalloc_of_ne_zero,
      Sched.modify, kfreePageDir, h1, h2, h3, Nat.succ_ne_zero, Bool.false_eq_true, if_false,
      if_true]
    exact ⟨trivial, trivial⟩
  · rw [he]
    simp (disch := decide) only [createTask, if_neg hp', BlockHeap.kmalloc_of_ne_zero,
      Sched.modify, h1, h2, h3, Nat.succ_ne_zero, if_false, if_true]
    exact ⟨trivial, iff_of_false id Bool.true_eq_false.mp⟩

/-- The requests of `create_idle_task`. -/
theorem createIdleTask_heap (s : Sched) :
    (createIdleTask s).2.heap = (s.heap.takeTwo taskSize kernelStackSize).2 ∧
      ((createIdleTask s).1 = 0 ↔ (s.heap.takeTwo taskSize kernelStackSize).1 = false) := by
  rcases s.heap.takeTwo_cases taskSize kernelStackSize with ⟨h1, he⟩ | ⟨h1, h2, he⟩ | ⟨h1, h2, he⟩
  · rw [he]
    simp (disch := decide) only [createIdleTask, BlockHeap.kmalloc_of_ne_zero, h1,
      Bool.false_eq_true, if_false, if_true]
    exact ⟨trivial, trivial⟩
  · rw [he]
    simp (disch := decide) only [createIdleTask, BlockHeap.kmalloc_of_ne_zero, Sched.modify, h1,
      h2, Nat.succ_ne_zero, Bool.false_eq_true, if_false, if_true]
    exact ⟨trivial, trivial⟩
  · rw [he]
    simp (disch := decide) only [createIdleTask, BlockHeap.kmalloc_of_ne_zero, Sched.modify, h1,
      h2, Nat.succ_ne_zero, if_false, if_true]
    exact ⟨trivial, iff_of_false id Bool.true_eq_false.mp⟩

/-- A task that is not created leaves the live blocks. -/
theorem createTask_undone (h0 : (createTask s entry name priority).1 = 0) (i : Nat) :
    (createTask s entry name priority).2.heap.Live i ↔ s.heap.Live i := by
  by_cases hp : priority < maxPriority
  · obtain ⟨hheap, hnull⟩ := createTask_heap s entry name hp
    rw [hheap]
    exact BlockHeap.takeThree_undone (hnull.mp h0)
  · rw [createTask, if_pos (Nat.le_of_not_lt hp)]

theorem createIdleTask_undone (h0 : (createIdleTask s).1 = 0) (i : Nat) :
    (createIdleTask s).2.heap.Live i ↔ s.heap.Live i := by
  obtain ⟨hheap, hnull⟩ := createIdleTask_heap s
  rw [hheap]
  exact BlockHeap.takeTwo_undone (hnull.mp h0)

theorem createTask_queuesKept (h0 : (createTask s entry name priority).1 = 0) :
    QueuesKept s (createTask s entry name priority).2 := by
  rcases createTask_cases s entry name priority with ⟨-, -, he⟩ | ⟨-, -, hr⟩
  · rw [he] at h0
    exact absurd h0 (Nat.succ_ne_zero _)
  · exact hr.queuesKept

theorem createIdleTask_queuesKept (h0 : (createIdleTask s).1 = 0) :
    QueuesKept s (createIdleTask s).2 := by
  rcases createIdleTask_cases s with ⟨-, he⟩ | ⟨-, -, hr⟩
  · rw [he] at h0
    exact absurd h0 (Nat.succ_ne_zero _)
  · exact hr.queuesKept

end SynapseKernel.Proc

namespace SynapseKernel.Process
open SynapseKernel.Word SynapseKernel.Kheap
open SynapseKernel.Proc (pageDirectorySize)

variable {s s' : Procs} {name : ProcessName} {priority : Nat}

/-- The ring of processes and what is on it. -/
structure RingKept (s s' : Procs) : Prop where
  processList : s'.processList = s.processList
  currentProcess : s'.currentProcess = s.currentProcess
  next : ∀ p, s.heap.Live p → s'.next p = s.next p
  prev : ∀ p, s.heap.Live p → s'.prev p = s.prev p
  pcb : ∀ p, s.heap.Live p → s'.pcb p = s.pcb p

/-- The requests of `create_process`. -/
theorem createProcess_heap (s : Procs) (name : ProcessName) (priority : Nat) :
    (createProcess s name priority).2.heap =
        (s.heap.takeThree pcbSize pageDirectorySize stackSize).2 ∧
      ((createProcess s name priority).1 = 0 ↔
        (s.heap.takeThree pcbSize pageDirectorySize stackSize).1 = false) := by
  rcases s.heap.takeThree_cases pcbSize pageDirectorySize stackSize with
    ⟨h1, he⟩ | ⟨h1, h2, he⟩ | ⟨h1, h2, h3, he⟩ | ⟨h1, h2, h3, he⟩
  · rw [he]
    simp (disch := decide) only [createProcess, BlockHeap.kmalloc_of_ne_zero, h1,
      Bool.false_eq_true, if_false, if_true]
    exact ⟨trivial, trivial⟩
  · rw [he]
    simp (disch := decide) only [createProcess, BlockHeap.kmalloc_of_ne_zero, Procs.modify,
      Procs.clear, h1, h2, Nat.succ_ne_zero, Bool.false_eq_true, if_false, if_true]
    exact ⟨trivial, trivial⟩
  · rw [he]
    simp (disch := decide) only [createProcess, BlockHeap.kmalloc_of_ne_zero, Procs.modify,
      Procs.clear, h1, h2, h3, Nat.succ_ne_zero, Bool.false_eq_true, if_false, if_true]
    exact ⟨trivial, trivial⟩
  · rw [he]
    simp (disch := decide) only [createProcess, BlockHeap.kmalloc_of_ne_zero, Procs.modify,
      Procs.clear, h1, h2, h3, Nat.succ_ne_zero, if_false, if_true, addProcessToList_heap]
    exact ⟨trivial, iff_of_false id Bool.true_eq_false.mp⟩

theorem createProcess_undone (h0 : (createProcess s name priority).1 = 0) (i : Nat) :
    (createProcess s name priority).2.heap.Live i ↔ s.heap.Live i := by
  obtain ⟨hheap, hnull⟩ := createProcess_heap s name priority
  rw [hheap]
  exact BlockHeap.takeThree_undone (hnull.mp h0)

theorem createProcess_ringKept (h0 : (createProcess s name priority).1 = 0) :
    RingKept s (createProcess s name priority).2 := by
  rcases createProcess_cases s name priority with ⟨-, he⟩ | ⟨-, hr⟩
  · rw [he] at h0
    exact absurd h0 (Nat.succ_ne_zero _)
  · exact ⟨hr.processList, hr.currentProcess, fun p hl => hr.next p hl.le,
      fun p hl => hr.prev p hl.le, fun p hl => hr.pcb p hl.le⟩

end SynapseKernel.Process

namespace SynapseKernel.Proc
open SynapseKernel.Kheap SynapseKernel.Process

/-- **A creation that fails is atomic.** Let the calls of `create_task`,
`create_idle_task` or `create_process` be answered by any reachable kernel heap.
Where `NULL` is returned the queues or the ring are as before, and so is the block
list. -/
theorem failed_creation_atomic {c c' : Client} :
    (∀ (s : Sched) (entry : Nat) (name : TaskName) (priority : Nat), Views c s.heap →
      Serves c s.heap c' (createTask s entry name priority).2.heap →
      (createTask s entry name priority).1 = 0 →
      QueuesKept s (createTask s entry name priority).2 ∧ blockList c'.heap = blockList c.heap) ∧
    (∀ s : Sched, Views c s.heap → Serves c s.heap c' (createIdleTask s).2.heap →
      (createIdleTask s).1 = 0 →
      QueuesKept s (createIdleTask s).2 ∧ blockList c'.heap = blockList c.heap) ∧
    ∀ (s : Procs) (name : ProcessName) (priority : Nat), Views c s.heap →
      Serves c s.heap c' (createProcess s name priority).2.heap →
      (createProcess s name priority).1 = 0 →
      RingKept s (createProcess s name priority).2 ∧ blockList c'.heap = blockList c.heap := by
  refine ⟨fun s entry name priority hv hs h0 => ?_, fun s hv hs h0 => ?_,
    fun s name priority hv hs h0 => ?_⟩
  · exact ⟨createTask_queuesKept h0, hs.restores hv (createTask_undone h0)⟩
  · exact ⟨createIdleTask_queuesKept h0, hs.restores hv (createIdleTask_undone h0)⟩
  · exact ⟨createProcess_ringKept h0, hs.restores hv (createProcess_undone h0)⟩

/-- A heap that grants two requests: all but the last 4080 bytes, and the record of a task. -/
def nearlyFull : BlockHeap :=
  { requests := 0, freed := [], grants := fun i => decide (i < 2),
    addr := fun i => if i = 1 then kheapStart + 16 else kheapStart + 0xFFF010 + 16 }

/-- There is memory for the record of the new task and not for its page directory. -/
theorem failed_creation_atomic_full :
    ∃ c c' : Client,
      let s := Sched.boot (nearlyFull.kmalloc 0xFFF000).2 0 0
      let created := createTask s 0 ⟨"printer", by decide⟩ 5
      Views c s.heap ∧ created.1 = 0 ∧ Serves c s.heap c' created.2.heap ∧
        QueuesKept s created.2 ∧ blockList c'.heap = blockList c.heap := by
  obtain ⟨h₁, hk₁, hroom₁⟩ := (Room.init fun _ => 0).kmalloc (n := 0xFFF000) (by decide)
    (by decide) (by decide)
  obtain ⟨h₂, hk₂, hroom₂⟩ := hroom₁.kmalloc (n := taskSize) (by decide) (by decide) (by decide)
  have hk₃ := hroom₂.refused (n := pageDirectorySize) (by decide) (by decide)
  have hboot : Views ⟨initKheap fun _ => 0, []⟩ nearlyFull := by
    refine ⟨.init _, fun p hp => ?_, fun i hi => ?_, fun i _ hi => ?_, fun p n hp => ?_⟩
    · cases hp
    · exact absurd hi.pos (Nat.not_lt.mpr hi.le)
    · exact absurd hi.pos (Nat.not_lt.mpr hi.le)
    · cases hp
  have hv := hboot.kmalloc (.inl (by decide)) hk₁ (by decide) fun _ => rfl
  have hrecord := Serves.refl.granted hv rfl (by decide) (.inl (by decide)) hk₂ rfl rfl rfl
  have hdir := hrecord.1.refused rfl (.inl (by decide)) hk₃ rfl rfl
  have hlive : (((nearlyFull.kmalloc 0xFFF000).2.kmalloc taskSize).2.kmalloc
      pageDirectorySize).2.Live 2 := ⟨by decide, by decide, rfl, List.not_mem_nil⟩
  have hserves := hdir.kfree hlive List.mem_cons_self
  refine ⟨_, _, hv, rfl, hserves, ?_⟩
  exact failed_creation_atomic.1 _ 0 ⟨"printer", by decide⟩ 5 hv hserves rfl

/-- Every reachable kernel heap can answer the calls. -/
theorem creation_served {c : Client} :
    (∀ (s : Sched) (entry : Nat) (name : TaskName) (priority : Nat), Views c s.heap →
      ∃ ps c', Serves c (s.heap.answered ps) c'
        (createTask { s with heap := s.heap.answered ps } entry name priority).2.heap) ∧
    (∀ s : Sched, Views c s.heap → ∃ ps c', Serves c (s.heap.answered ps) c'
      (createIdleTask { s with heap := s.heap.answered ps }).2.heap) ∧
    ∀ (s : Procs) (name : ProcessName) (priority : Nat), Views c s.heap →
      ∃ ps c', Serves c (s.heap.answered ps) c'
        (createProcess { s with heap := s.heap.answered ps } name priority).2.heap := by
  refine ⟨fun s entry name priority hv => ?_, fun s hv => ?_, fun s name priority hv => ?_⟩
  · by_cases hp : priority < maxPriority
    · obtain ⟨ps, c', hs⟩ := hv.serves_takeThree (m := taskSize) (n := pageDirectorySize)
        (k := kernelStackSize) (by decide) (by decide) (by decide)
      refine ⟨ps, c', ?_⟩
      rw [(createTask_heap _ entry name hp).1]
      exact hs
    · refine ⟨fun _ => 0, c, ?_⟩
      rw [createTask, if_pos (Nat.le_of_not_lt hp)]
      exact .refl
  · obtain ⟨ps, c', hs⟩ := hv.serves_takeTwo (m := taskSize) (n := kernelStackSize) (by decide)
      (by decide)
    refine ⟨ps, c', ?_⟩
    rw [(createIdleTask_heap _).1]
    exact hs
  · obtain ⟨ps, c', hs⟩ := hv.serves_takeThree (m := pcbSize) (n := pageDirectorySize)
      (k := stackSize) (by decide) (by decide) (by decide)
    refine ⟨ps, c', ?_⟩
    rw [(createProcess_heap _ name priority).1]
    exact hs

end SynapseKernel.Proc
