import SynapseKernel.Proc.UserHeap

/-! # malloc of a user program (lib/libc.c)

`malloc` rounds the size up to pages and asks `sbrk` for as many bytes. Both the
rounding and the sum in the kernel are 32-bit words; what is handed out is in the
heap, and is handed out once, as long as neither of them wraps
(`malloc_apart_iff`). -/
namespace SynapseKernel.Proc
open SynapseKernel.Word SynapseKernel.Runs

/-- `(size + 4095) & ~4095`. -/
def mallocIncrement (size : Nat) : Nat := u32 (size + 4095) &&& 0xFFFFF000

/-- `malloc` where the increment reaches `sys_sbrk_handler` as it is. -/
def malloc (task : Task) (size : Nat) : Nat × Task := sysSbrkHandler task (mallocIncrement size)

/-- The task, and what `malloc` returned for which size, the latest first. -/
structure UserProgram where
  task : Task
  results : List (Nat × Nat)

def mallocStep (s : UserProgram) (size : Nat) : UserProgram :=
  let (result, task) := malloc s.task size
  ⟨task, if result = 2 ^ 32 - 1 then s.results else (result, size) :: s.results⟩

/-- The call fails, or what it returns is in the heap and apart from all results
before. -/
def HandsOut (s : UserProgram) (size : Nat) : Prop :=
  let call := malloc s.task size
  call.1 ≠ 2 ^ 32 - 1 →
    call.2.heapStart ≤ call.1 ∧ call.1 + size ≤ call.2.heapEnd ∧
      ∀ r ∈ s.results, Apart (call.1, size) r

/-- The pages for the size, put at the end of the heap, end below 4 GiB. -/
def PagesFit (s : UserProgram) (size : Nat) : Prop :=
  (withHeap s.task).heapEnd + (size + 4095) / 4096 * 4096 < 2 ^ 32

variable {s : UserProgram} {size : Nat}

theorem mallocIncrement_eq (size : Nat) :
    mallocIncrement size = u32 (size + 4095) / 4096 * 4096 :=
  land_high_mask (u32_lt _) (by decide : 12 ≤ 32)

/-- The heap is in its region, and the results are below its end. -/
structure ResultsInv (s : UserProgram) : Prop where
  region : HeapInRegion s.task
  below : ∀ r ∈ s.results, r.1 + r.2 ≤ (withHeap s.task).heapEnd

/-- What `malloc` does while the pages fit: it is refused or the heap grows by them. -/
theorem PagesFit.cases (h : PagesFit s size) :
    (malloc s.task size = (2 ^ 32 - 1, withHeap s.task)) ∨
    ∃ kb heapEnd, malloc s.task size = ((withHeap s.task).heapEnd,
        { withHeap s.task with heapEnd := heapEnd, memoryUsageKb := kb }) ∧
      (withHeap s.task).heapEnd + size ≤ heapEnd ∧ heapEnd ≤ userSpaceEnd := by
  have hfit : (withHeap s.task).heapEnd + (size + 4095) / 4096 * 4096 < 2 ^ 32 := h
  have hinc : mallocIncrement size = (size + 4095) / 4096 * 4096 := by
    rw [mallocIncrement_eq, u32_of_lt (by omega)]
  rw [malloc, sysSbrkHandler_eq, hinc, u32_of_lt hfit]
  by_cases hend : userSpaceEnd < (withHeap s.task).heapEnd + (size + 4095) / 4096 * 4096
  · exact .inl (if_pos hend)
  · refine .inr ⟨_, _, if_neg hend, ?_, Nat.le_of_not_lt hend⟩
    omega

/-- Where they do not, the end of the heap is not above what is returned. -/
theorem ResultsInv.wraps (h : ResultsInv s) (hw : size < 2 ^ 32) (hno : ¬ PagesFit s size) :
    (malloc s.task size).1 = (withHeap s.task).heapEnd ∧
      (malloc s.task size).2.heapEnd ≤ (withHeap s.task).heapEnd := by
  have hmax := h.region.withHeap.2
  have hword : ∀ n : Nat, u32 n = n % 4294967296 := fun _ => rfl
  have hend : userSpaceEnd = 3221225472 := rfl
  have hwrap : ¬ (withHeap s.task).heapEnd + (size + 4095) / 4096 * 4096 < 2 ^ 32 := hno
  have hnew : u32 ((withHeap s.task).heapEnd + mallocIncrement size) ≤
      (withHeap s.task).heapEnd := by
    rw [mallocIncrement_eq, hword, hword]
    omega
  rw [malloc, sysSbrkHandler_eq, if_neg (by omega)]
  exact ⟨rfl, hnew⟩

/-- **One call** hands out memory as it should exactly when the pages fit. -/
theorem ResultsInv.handsOut_iff (h : ResultsInv s) (hpos : 0 < size) (hw : size < 2 ^ 32) :
    HandsOut s size ↔ PagesFit s size := by
  obtain ⟨hlow, hmax⟩ := h.region.withHeap
  have hend : userSpaceEnd = 3221225472 := rfl
  constructor
  · intro hout
    by_contra hno
    obtain ⟨hresult, hle⟩ := h.wraps hw hno
    have hreturned : (malloc s.task size).1 ≠ 2 ^ 32 - 1 := by omega
    have hinside : (malloc s.task size).1 + size ≤ (malloc s.task size).2.heapEnd :=
      (hout hreturned).2.1
    omega
  · intro hfit
    rcases hfit.cases with hcall | ⟨kb, heapEnd, hcall, hin, -⟩
    · simp only [HandsOut, hcall, ne_eq, not_true, false_imp_iff]
    · simp only [HandsOut, hcall]
      exact fun _ => ⟨hlow, hin, fun r hr => apart_of_le (h.below r hr)⟩

/-- A call that does keeps the results below the end of the heap. -/
theorem ResultsInv.step (h : ResultsInv s) (hfit : PagesFit s size) :
    ResultsInv (mallocStep s size) := by
  obtain ⟨hlow, hmax⟩ := h.region.withHeap
  have h0 := heapStart_withHeap s.task
  have hend : userSpaceEnd = 3221225472 := rfl
  rcases hfit.cases with hcall | ⟨kb, heapEnd, hcall, hin, hle⟩
  · have hheap : withHeap (withHeap s.task) = withHeap s.task := if_neg h0
    simp only [mallocStep, hcall, if_true]
    refine ⟨.inr ⟨hlow, hmax⟩, fun r hr => ?_⟩
    rw [hheap]
    exact h.below r hr
  · have hresult : (withHeap s.task).heapEnd ≠ 2 ^ 32 - 1 := by omega
    have hheap : withHeap { withHeap s.task with heapEnd := heapEnd, memoryUsageKb := kb } =
        { withHeap s.task with heapEnd := heapEnd, memoryUsageKb := kb } := if_neg h0
    simp only [mallocStep, hcall, if_neg hresult]
    refine ⟨.inr ⟨?_, hle⟩, fun r hr => ?_⟩
    · simp only
      omega
    · rw [hheap]
      rcases List.mem_cons.mp hr with rfl | hr
      · exact hin
      · have hbelow := h.below r hr
        simp only
        omega

/-- **`malloc` hands out no byte twice** in a run of calls if and only if in each of them
the pages fit below 4 GiB. -/
theorem malloc_apart_iff (task : Task) (sizes : List Nat) (h : HeapInRegion task)
    (hsizes : ∀ n ∈ sizes, 1 ≤ n ∧ n < 2 ^ 32) :
    Guarded mallocStep HandsOut ⟨task, []⟩ sizes ↔
      Guarded mallocStep PagesFit ⟨task, []⟩ sizes := by
  have hiff : ∀ s, ∀ n ∈ sizes, ResultsInv s → (HandsOut s n ↔ PagesFit s n) :=
    fun s n hn hs => hs.handsOut_iff (hsizes n hn).1 (hsizes n hn).2
  refine guarded_congr ResultsInv (fun s n hn hs hok => ?_) hiff ?_
  · exact hs.step ((hiff s n hn hs).mp hok)
  · exact ⟨h, fun r hr => absurd hr List.not_mem_nil⟩

theorem malloc_apart_iff_newTask :
    Guarded mallocStep HandsOut ⟨.zero, []⟩ [1, 5000, 0x80000000] ↔
      Guarded mallocStep PagesFit ⟨.zero, []⟩ [1, 5000, 0x80000000] :=
  malloc_apart_iff .zero _ (.inl rfl) (by decide)

/-- After a page for one byte, `2 ^ 32 - 1` bytes are asked for: the sum of the size and
4095 wraps, no byte is added to the heap and its end is returned. The next call for one
byte returns the same. -/
theorem malloc_overlaps : ¬ ∀ (task : Task) (sizes : List Nat), HeapInRegion task →
    (∀ n ∈ sizes, 1 ≤ n ∧ n < 2 ^ 32) → Guarded mallocStep HandsOut ⟨task, []⟩ sizes := by
  intro h
  have hout : HandsOut (mallocStep ⟨.zero, []⟩ 1) (2 ^ 32 - 1) :=
    (h .zero [1, 2 ^ 32 - 1, 1] (.inl rfl) (by decide)).2.1
  exact absurd (hout (by decide)).2.1 (by decide)

end SynapseKernel.Proc
