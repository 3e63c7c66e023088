import SynapseKernel.Lib.Chunks
import SynapseKernel.Proc.ProcFs

/-! # Reading from procfs (kernel/proc/procfs.c)

A read prints the content again and copies out a window of it. The end of the window is
computed in 32 bits: where it wraps it is taken to be inside the content, and the whole
count is copied from behind the buffer, too (`procRead_window_iff`). -/
namespace SynapseKernel.ProcFs
open SynapseKernel.Word SynapseKernel.Blocks SynapseKernel.Chunks SynapseKernel.Str
open SynapseKernel.Proc

/-- What the two reads do with their content. -/
def copyOut (content : Content) (buf : Nat → UInt8) (count offset : Nat) : Nat × (Nat → UInt8) :=
  if content.offset ≤ offset then (0, buf)
  else
    let readSize :=
      if content.offset < u32 (offset + count) then sub32 content.offset offset else count
    (readSize, overwrite buf 0 (slice content.buf offset readSize))

/-- `before` is the stack from `proc_buf` on, `buf` the memory that is copied to. -/
def procReadPs (name : Nat → CString) (s : Sched) (before buf : Nat → UInt8) (count offset : Nat) :
    Option (Nat × (Nat → UInt8)) :=
  match generateProcPsContent name s before 1024 with
  | none => none
  | some content => some (copyOut content buf count offset)

def procReadPidStatus (address : PageDir → Nat) (s : Sched) (pid : Nat) (before buf : Nat → UInt8)
    (count offset : Nat) : Option (Nat × (Nat → UInt8)) :=
  match generateProcPidStatusContent address s pid before 1024 with
  | none => none
  | some content => some (copyOut content buf count offset)

/-- The window of the data is copied out, and its length returned. -/
def CopiesWindow (data : List UInt8) (buf : Nat → UInt8) (count offset : Nat)
    (result : Option (Nat × (Nat → UInt8))) : Prop :=
  result = some (min count (data.length - offset), overwrite buf 0 (window data count offset))

/-- What a read copies out. -/
def copied (result : Option (Nat × (Nat → UInt8))) : Option (List UInt8) :=
  result.map fun r => slice r.2 0 r.1

/-- The end of the window does not wrap, or the window is behind the data. -/
def EndsBelow (data : List UInt8) (count offset : Nat) : Prop :=
  data.length ≤ offset ∨ offset + count < 2 ^ 32

/-- A read of the data. Where the end of a window does not wrap the window is copied out, and
nowhere else; with counts for which it does not, one call after the other copies out the data
from its beginning. -/
structure ReadsWindows (read : (Nat → UInt8) → Nat → Nat → Option (Nat × (Nat → UInt8)))
    (data : List UInt8) : Prop where
  call : ∀ buf count offset, count < 2 ^ 32 →
    (CopiesWindow data buf count offset (read buf count offset) ↔ EndsBelow data count offset)
  run : ∀ buf counts, (∀ pre count post, counts = pre ++ count :: post →
      count < 2 ^ 32 ∧ EndsBelow data count pre.sum) →
    readAll (fun count offset => copied (read buf count offset)) counts 0 =
      some (data.take counts.sum)

section Read
variable {text pad data : List UInt8} {before buf : Nat → UInt8} {content : Content}
  {count offset : Nat}

/-- No more than there is is copied out. -/
theorem window_min (data : List UInt8) (count offset : Nat) :
    window data (min count (data.length - offset)) offset = window data count offset := by
  rw [window, window, List.take_eq_take_iff, List.length_drop, Nat.min_assoc, Nat.min_self]

/-- **The window** of what is printed. -/
theorem copyOut_window_iff (h : Printed 1024 before text pad content) (hcount : count < 2 ^ 32) :
    CopiesWindow (text.take 1023) buf count offset (some (copyOut content buf count offset)) ↔
      EndsBelow (text.take 1023) count offset := by
  have hlen : (text.take 1023).length = content.offset := h.length_take
  have hsmall := h.lt (by decide)
  rw [CopiesWindow, EndsBelow, Option.some.injEq, copyOut, hlen]
  by_cases hend : content.offset ≤ offset
  · have hnothing : window (text.take 1023) count offset = [] := by
      rw [window, List.drop_eq_nil_of_le (by rwa [hlen]), List.take_nil]
    rw [if_pos hend, hnothing, overwrite_nil, Nat.sub_eq_zero_of_le hend, Nat.min_zero]
    exact iff_of_true rfl (.inl hend)
  rw [if_neg hend, or_iff_right hend]
  by_cases hwrap : offset + count < 2 ^ 32
  · have hsize : (if content.offset < u32 (offset + count) then sub32 content.offset offset
        else count) = min count (content.offset - offset) := by
      rw [u32_of_lt hwrap, sub32_of_le (by omega) (by omega)]
      split <;> omega
    have hslice : slice content.buf offset (min count (content.offset - offset)) =
        window (text.take 1023) count offset := by
      rw [← window_min, hlen]
      exact h.slice_eq (by rw [hlen]; omega)
    rw [hsize]
    simp only [hslice]
    exact iff_of_true trivial hwrap
  · have hsize : (if content.offset < u32 (offset + count) then sub32 content.offset offset
        else count) = count := by
      refine if_neg ?_
      unfold u32
      omega
    rw [hsize]
    refine iff_of_false (fun he => ?_) hwrap
    have hfirst : count = min count (content.offset - offset) := congrArg Prod.fst he
    omega

theorem CopiesWindow.copied {result : Option (Nat × (Nat → UInt8))}
    (h : CopiesWindow data buf count offset result) :
    ProcFs.copied result = some (window data count offset) := by
  obtain rfl := h
  have hslice := @slice_overwrite _ buf (window data count offset) 0
  rw [length_window] at hslice
  rw [ProcFs.copied, Option.map_some, hslice]

/-- The runs follow from the calls. -/
theorem readsWindows_of_call {read : (Nat → UInt8) → Nat → Nat → Option (Nat × (Nat → UInt8))}
    (h : ∀ buf count offset, count < 2 ^ 32 →
      (CopiesWindow data buf count offset (read buf count offset) ↔ EndsBelow data count offset)) :
    ReadsWindows read data := by
  refine ⟨h, fun buf counts hcounts => ?_⟩
  refine readAll_eq (Nat.zero_le _) fun pre count post he => ?_
  obtain ⟨hcount, hends⟩ := hcounts pre count post he
  refine ((h buf count _ hcount).mpr ?_).copied
  rw [Nat.zero_add]
  by_cases hend : data.length ≤ pre.sum
  · rw [Nat.min_eq_right hend]
    exact .inl (Nat.le_refl _)
  · rwa [Nat.min_eq_left (Nat.le_of_not_le hend)]

theorem readsWindows_of_printed {content : Content}
    {read : (Nat → UInt8) → Nat → Nat → Option (Nat × (Nat → UInt8))}
    (h : Printed 1024 before text pad content)
    (hread : ∀ buf count offset, read buf count offset = some (copyOut content buf count offset)) :
    ReadsWindows read (text.take 1023) := by
  refine readsWindows_of_call fun buf count offset hcount => ?_
  rw [hread]
  exact copyOut_window_iff h hcount

end Read

section Files
variable {s : Sched} {q : Nat → List Nat}

/-- **Reading from procfs.** In every state whose ready queues are lists, both reads copy out
the window that is asked for if and only if it is behind the content or its end does not
wrap; counts that keep to this read the content from its beginning. -/
theorem procRead_window_iff (h : AcyclicQueues s q) (name : Nat → CString)
    (address : PageDir → Nat) (pid : Nat) (before : Nat → UInt8) :
    ReadsWindows (procReadPs name s before) ((psText name s q).take 1023) ∧
      ∃ t, findStatusTask s pid = some t ∧
        ReadsWindows (procReadPidStatus address s pid before)
          ((statusText address s pid t).take 1023) := by
  obtain ⟨ps, hps, hprinted⟩ :=
    @generateProcPsContent_printed s q 1024 h (by decide) (by decide) name before
  obtain ⟨t, status, ht, hstatus, hprinted'⟩ :=
    @generateProcPidStatusContent_printed s q 1024 h (by decide) (by decide) address pid before
  refine ⟨readsWindows_of_printed hprinted fun buf count offset => ?_, t, ht,
    readsWindows_of_printed hprinted' fun buf count offset => ?_⟩
  · rw [procReadPs, hps]
  · rw [procReadPidStatus, hstatus]

/-- Ten bytes from the beginning of the list after booting. -/
theorem procRead_window_iff_boot :
    ∃ q, CopiesWindow ((psText noStrings (schedInit (.boot grantingHeap 0 0)) q).take 1023)
      (fun _ => 0) 10 0
      (procReadPs noStrings (schedInit (.boot grantingHeap 0 0)) (fun _ => 0) (fun _ => 0) 10 0) := by
  obtain ⟨q, hinv, -⟩ := Sound.schedInit sane_grantingHeap 0 0
  have hreads := (procRead_window_iff hinv.acyclic noStrings (fun _ => 0) 0 fun _ => 0).1
  exact ⟨q, (hreads.call (fun _ => 0) 10 0 (by decide)).mpr (.inr (by decide))⟩

/-- All but the first byte, asked for with the largest count. -/
theorem not_copiesWindow_wrapped :
    ∃ q, AcyclicQueues (schedInit (.boot grantingHeap 0 0)) q ∧
      ¬ CopiesWindow ((psText noStrings (schedInit (.boot grantingHeap 0 0)) q).take 1023)
        (fun _ => 0) (2 ^ 32 - 1) 1
        (procReadPs noStrings (schedInit (.boot grantingHeap 0 0)) (fun _ => 0) (fun _ => 0)
          (2 ^ 32 - 1) 1) := by
  obtain ⟨q, hinv, -⟩ := Sound.schedInit sane_grantingHeap 0 0
  obtain ⟨ps, hps, hprinted⟩ := @generateProcPsContent_printed _ q 1024 hinv.acyclic (by decide)
    (by decide) noStrings fun _ => 0
  refine ⟨q, hinv.acyclic, ?_⟩
  rw [procReadPs, hps, copyOut_window_iff hprinted (by decide)]
  have hheader : psHeader.bytes.length = 30 := rfl
  rintro (hend | hwrap)
  · rw [List.length_take, psText, List.append_assoc, List.length_append, hheader] at hend
    omega
  · exact absurd hwrap (by decide)

end Files

end SynapseKernel.ProcFs
