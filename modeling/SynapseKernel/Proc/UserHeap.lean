import SynapseKernel.Lib.Runs
import SynapseKernel.Proc.Task

/-! # The heap of a user program (kernel/syscall.c)

`sys_sbrk_handler` adds the increment as a 32-bit word and compares the sum with the
end of user space only. `sbrk_stays` is about the runs in which the sum, as an exact
integer, does not leave the words on either side. -/
namespace SynapseKernel.Proc
open SynapseKernel.Word SynapseKernel.Runs

/-- Where the heap starts, a page above the program. -/
abbrev userHeapStart : Nat := 0x08048000 + 0x1000

abbrev userSpaceEnd : Nat := 0xC0000000

/-- `(increment + 1023) / 1024`, signed. -/
def incrementKb (increment : Nat) : Int := (s32 (u32 (increment + 1023))).tdiv 1024

/-- The result as the word in `eax`, and the record of the current task. -/
def sysSbrkHandler (task : Task) (increment : Nat) : Nat × Task :=
  let oldHeapEnd := task.heapEnd
  let newHeapEnd := u32 (oldHeapEnd + increment)
  let (task, oldHeapEnd, newHeapEnd) :=
    if task.heapStart = 0 then
      ({ task with heapStart := userHeapStart, heapEnd := userHeapStart }, userHeapStart,
        u32 (userHeapStart + increment))
    else (task, oldHeapEnd, newHeapEnd)
  if userSpaceEnd < newHeapEnd then (2 ^ 32 - 1, task)
  else
    (oldHeapEnd, { task with
      heapEnd := newHeapEnd
      memoryUsageKb := ((task.memoryUsageKb + incrementKb increment) % 2 ^ 32).toNat })

variable {task : Task} {increment : Nat}

/-! ## One request -/

/-- The record with a heap, which the first request makes. -/
def withHeap (task : Task) : Task :=
  if task.heapStart = 0 then { task with heapStart := userHeapStart, heapEnd := userHeapStart }
  else task

theorem sysSbrkHandler_eq (task : Task) (increment : Nat) : sysSbrkHandler task increment =
    if userSpaceEnd < u32 ((withHeap task).heapEnd + increment) then (2 ^ 32 - 1, withHeap task)
    else
      ((withHeap task).heapEnd, { withHeap task with
        heapEnd := u32 ((withHeap task).heapEnd + increment)
        memoryUsageKb :=
          (((withHeap task).memoryUsageKb + incrementKb increment) % 2 ^ 32).toNat }) := by
  rw [sysSbrkHandler, withHeap]
  by_cases h0 : task.heapStart = 0
  · simp only [if_pos h0]
  · simp only [if_neg h0]

/-- There is no heap yet, or it is in its region. -/
def HeapInRegion (task : Task) : Prop :=
  task.heapStart = 0 ∨ task.heapStart ≤ task.heapEnd ∧ task.heapEnd ≤ userSpaceEnd

theorem HeapInRegion.withHeap (h : HeapInRegion task) :
    (withHeap task).heapStart ≤ (withHeap task).heapEnd ∧
      (withHeap task).heapEnd ≤ userSpaceEnd := by
  rw [Proc.withHeap]
  by_cases h0 : task.heapStart = 0
  · rw [if_pos h0]
    exact ⟨Nat.le_refl _, (by decide : userHeapStart ≤ userSpaceEnd)⟩
  · rw [if_neg h0]
    exact h.resolve_left h0

theorem heapStart_withHeap (task : Task) : (withHeap task).heapStart ≠ 0 := by
  rw [withHeap]
  split
  · exact (by decide : userHeapStart ≠ 0)
  · assumption

/-- The end of the heap that is asked for, as an exact integer. -/
def wantedEnd (task : Task) (increment : Nat) : Int := (withHeap task).heapEnd + s32 increment

/-- The request asks for an end inside of the region, or it finds a heap and asks for an
end that is outside of user space as a word, too. -/
def SbrkStays (task : Task) (increment : Nat) : Prop :=
  let wanted := wantedEnd task increment
  HeapInRegion task ∧
    ((withHeap task).heapStart ≤ wanted ∧ wanted ≤ userSpaceEnd ∨
      task.heapStart ≠ 0 ∧
        (userSpaceEnd < wanted ∧ wanted < 2 ^ 32 ∨ userSpaceEnd - 2 ^ 32 < wanted ∧ wanted < 0))

/-- What such a request does. -/
theorem SbrkStays.cases (h : SbrkStays task increment) (hw : increment < 2 ^ 32) :
    (∃ heapEnd memoryUsageKb, sysSbrkHandler task increment = ((withHeap task).heapEnd,
        { withHeap task with heapEnd := heapEnd, memoryUsageKb := memoryUsageKb }) ∧
      (heapEnd : Int) = wantedEnd task increment ∧
      (withHeap task).heapStart ≤ heapEnd ∧ heapEnd ≤ userSpaceEnd) ∨
    (sysSbrkHandler task increment = (2 ^ 32 - 1, task) ∧ HeapInRegion task ∧
      task.heapStart ≠ 0) := by
  obtain ⟨hregion, hends⟩ := h
  obtain ⟨hle, hmax⟩ := hregion.withHeap
  have hword : ∀ n : Nat, u32 n = n % 4294967296 := fun _ => rfl
  have hend : userSpaceEnd = 3221225472 := rfl
  have hsigned : increment < 2 ^ 31 ∧ wantedEnd task increment =
        ((withHeap task).heapEnd + increment : Nat) ∨
      ¬ increment < 2 ^ 31 ∧ wantedEnd task increment =
        ((withHeap task).heapEnd + increment : Nat) - 2 ^ 32 := by
    rw [wantedEnd, s32]
    by_cases hpos : increment < 2 ^ 31
    · rw [if_pos hpos]
      exact .inl ⟨hpos, by omega⟩
    · rw [if_neg hpos]
      exact .inr ⟨hpos, by omega⟩
  rw [sysSbrkHandler_eq]
  rcases hends with ⟨hlow, hhigh⟩ | ⟨h0, hout⟩
  · have hgranted : ((u32 ((withHeap task).heapEnd + increment) : Nat) : Int) =
        wantedEnd task increment := by
      rw [hword]
      omega
    rw [if_neg (by omega)]
    exact .inl ⟨_, _, rfl, hgranted, by omega, by omega⟩
  · have hrefused : userSpaceEnd < u32 ((withHeap task).heapEnd + increment) := by
      rw [hword]
      omega
    have hsame : withHeap task = task := if_neg h0
    rw [if_pos hrefused, hsame]
    exact .inr ⟨rfl, hregion, h0⟩

/-! ## Runs of requests -/

/-- The task, and the grants `(returned, increment)` since the heap last shrank, the
latest first. -/
structure UserHeap where
  task : Task
  grants : List (Nat × Nat)

/-- A request for a negative increment that is not refused gives memory back. -/
def sbrkStep (s : UserHeap) (increment : Nat) : UserHeap :=
  let (result, task) := sysSbrkHandler s.task increment
  if result = 2 ^ 32 - 1 then { s with task := task }
  else if 2 ^ 31 ≤ increment then { task := task, grants := [] }
  else { task := task, grants := (result, increment) :: s.grants }

/-- No address is in both. -/
def Apart (g h : Nat × Nat) : Prop :=
  ∀ address, ¬ (g.1 ≤ address ∧ address < g.1 + g.2 ∧ h.1 ≤ address ∧ address < h.1 + h.2)

/-- After the request the heap is in its region, a refusal left its end alone, and what
is granted is granted once. -/
def HeapKept (s : UserHeap) (increment : Nat) : Prop :=
  let s' := sbrkStep s increment
  (s'.task.heapStart ≤ s'.task.heapEnd ∧ s'.task.heapEnd ≤ userSpaceEnd) ∧
    ((sysSbrkHandler s.task increment).1 = 2 ^ 32 - 1 → s'.task.heapEnd = s.task.heapEnd) ∧
    s'.grants.Pairwise Apart

theorem apart_of_le {g h : Nat × Nat} (hle : h.1 + h.2 ≤ g.1) : Apart g h := by
  rintro address ⟨hg, -, -, hh⟩
  omega

/-- The grants are apart and do not reach above the end of the heap. -/
structure GrantsInv (s : UserHeap) : Prop where
  apart : s.grants.Pairwise Apart
  below : ∀ g ∈ s.grants, g.1 + g.2 ≤ (withHeap s.task).heapEnd

/-- **One request** that stays keeps the heap and its grants. -/
theorem GrantsInv.step {s : UserHeap} (h : GrantsInv s) (hw : increment < 2 ^ 32)
    (hstays : SbrkStays s.task increment) :
    HeapKept s increment ∧ GrantsInv (sbrkStep s increment) := by
  obtain ⟨-, hmax⟩ := hstays.1.withHeap
  have hend : userSpaceEnd = 3221225472 := rfl
  rcases hstays.cases hw with
    ⟨heapEnd, kb, hcall, hwanted, hlow, hhigh⟩ | ⟨hcall, hregion, h0⟩
  · have hgranted : (withHeap s.task).heapEnd ≠ 2 ^ 32 - 1 := by omega
    have hheap : withHeap { withHeap s.task with heapEnd := heapEnd, memoryUsageKb := kb } =
        { withHeap s.task with heapEnd := heapEnd, memoryUsageKb := kb } :=
      if_neg (heapStart_withHeap s.task)
    simp only [HeapKept, sbrkStep, hcall, hgranted, if_false, false_imp_iff, true_and]
    by_cases hneg : 2 ^ 31 ≤ increment
    · rw [if_pos hneg]
      exact ⟨⟨⟨hlow, hhigh⟩, .nil⟩, .nil, fun g hg => absurd hg List.not_mem_nil⟩
    · rw [if_neg hneg]
      rw [wantedEnd, s32_of_lt (Nat.lt_of_not_le hneg)] at hwanted
      have hup : (withHeap s.task).heapEnd + increment = heapEnd := by omega
      have hapart : (((withHeap s.task).heapEnd, increment) :: s.grants).Pairwise Apart :=
        List.pairwise_cons.mpr ⟨fun g hg => apart_of_le (h.below g hg), h.apart⟩
      refine ⟨⟨⟨hlow, hhigh⟩, hapart⟩, hapart, fun g hg => ?_⟩
      rw [hheap]
      rcases List.mem_cons.mp hg with rfl | hg
      · exact Nat.le_of_eq hup
      · have hbelow := h.below g hg
        simp only
        omega
  · have hbounds := hregion.resolve_left h0
    simp only [HeapKept, sbrkStep, hcall, if_true, implies_true, true_and]
    exact ⟨⟨hbounds, h.apart⟩, h⟩

/-- **The user heap stays in its region** through every run of requests of which each
asks for an end inside of it or outside of user space. -/
theorem sbrk_stays (task : Task) (increments : List Nat) (hw : ∀ n ∈ increments, n < 2 ^ 32)
    (h : Guarded sbrkStep (fun s n => SbrkStays s.task n) ⟨task, []⟩ increments) :
    Guarded sbrkStep HeapKept ⟨task, []⟩ increments := by
  have hinv : GrantsInv ⟨task, []⟩ := ⟨.nil, fun g hg => absurd hg List.not_mem_nil⟩
  have hboth := h.and (guarded_of_forall _ hw)
  exact hboth.imp GrantsInv (fun s n hs hok => (hs.step hok.2 hok.1).2)
    (fun s n hs hok => (hs.step hok.2 hok.1).1) hinv

/-- A new task takes a page, half of it back, and asks for more than there is. -/
theorem sbrk_stays_newTask :
    Guarded sbrkStep HeapKept ⟨.zero, []⟩ [4096, 2 ^ 32 - 2048, 0x7FFFFFFF, 0x70000000] := by
  refine sbrk_stays .zero _ (by decide) ⟨?_, ?_, ?_, ?_, trivial⟩
  · exact ⟨.inl rfl, .inl (by decide)⟩
  · exact ⟨.inr (by decide), .inl (by decide)⟩
  · exact ⟨.inr (by decide), .inl (by decide)⟩
  · exact ⟨.inr (by decide), .inr ⟨by decide, .inl (by decide)⟩⟩

/-- The second of two requests for `2 ^ 31 - 1` bytes is granted and the heap ends below
its start. -/
theorem sbrk_wraps :
    ¬ ∀ (task : Task) (increments : List Nat), (∀ n ∈ increments, n < 2 ^ 32) →
      HeapInRegion task → Guarded sbrkStep HeapKept ⟨task, []⟩ increments := by
  intro h
  have hkept : HeapKept (sbrkStep ⟨.zero, []⟩ 0x7FFFFFFF) 0x7FFFFFFF :=
    (h .zero [0x7FFFFFFF, 0x7FFFFFFF] (by decide) (.inl rfl)).2.1
  exact absurd hkept.1.1 (by decide)

end SynapseKernel.Proc
