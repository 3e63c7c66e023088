import SynapseKernel.Proc.AiMessage
import SynapseKernel.Str.Content

/-! # What procfs prints (kernel/proc/procfs.c)

The list of the tasks and the status of one, printed into a buffer piece by piece. A task
is printed from its record and from what stands at its name, which is not bounded here.
The texts are those of `snprintf` untruncated; in the buffer stands the beginning of them
that fits (`generateProcPsContent_eq`). -/
namespace SynapseKernel.ProcFs
open SynapseKernel.Word SynapseKernel.ByteMemory SynapseKernel.Blocks SynapseKernel.Str
open SynapseKernel.Proc

/-! ## The list of the tasks -/

/-- `state_str`. -/
def stateStr : TaskState → CString
  | .ready => ⟨ascii ['R', 'E', 'A', 'D', 'Y'], by decide⟩
  | .running => ⟨ascii ['R', 'U', 'N', 'N', 'I', 'N', 'G'], by decide⟩
  | .blocked => ⟨ascii ['B', 'L', 'O', 'C', 'K', 'E', 'D'], by decide⟩
  | .zombie => ⟨ascii ['Z', 'O', 'M', 'B', 'I', 'E'], by decide⟩

def psHeader : CString :=
  ⟨ascii ['P', 'I', 'D', '\t', 'S', 'T', 'A', 'T', 'E', '\t', 'N', 'A', 'M', 'E', '\t', 'P', 'R',
    'I', 'O', 'R', 'I', 'T', 'Y', '\t', 'T', 'I', 'M', 'E', '\t', '\n'], by decide⟩

def psFormat : CString :=
  ⟨ascii ['%', 'd', '\t', '%', 's', '\t', '%', 's', '\t', '%', 'd', '\t', '%', 'd', '\t', '\n'],
    by decide⟩

/-- The state and the name stand at addresses of their own, neither of them `NULL`. -/
def psStrings (state name : CString) (word : Nat) : CString := if word = 1 then state else name

def psArgs (task : Task) (k : Nat) : Nat :=
  [task.pid, 1, 2, task.priority, task.totalRuntime].getD k 0

theorem noNul_nil : (0 : UInt8) ∉ [] := List.not_mem_nil

/-- No string is passed. -/
def noStrings (_ : Nat) : CString := ⟨[], noNul_nil⟩

def noArgs (_ : Nat) : Nat := 0

/-- One round of the loop. The `error` is a return: `none` from behind the NUL of a format,
else from a full buffer. -/
def printTask (name : Nat → CString) (bufSize : Nat) (s : Sched) (o : Content) (t : Nat) :
    Except (Option Content) Content :=
  match o.print bufSize psFormat (psStrings (stateStr (s.tcb t).state) (name t))
    (psArgs (s.tcb t)) with
  | none => .error none
  | some o => if bufSize ≤ o.offset then .error (some o) else .ok o

/-- `name` is what stands at the name of a task, `before` the memory from `buf` on. The
result is the offset. -/
def generateProcPsContent (name : Nat → CString) (s : Sched) (before : Nat → UInt8)
    (bufSize : Nat) : Option Content :=
  match (Content.mk before 0 []).print bufSize psHeader noStrings noArgs with
  | none => none
  | some o =>
    if bufSize ≤ o.offset then some o
    else
      match (if s.currentTask ≠ 0 then printTask name bufSize s o s.currentTask else .ok o) with
      | .error r => r
      | .ok o =>
        match walkQueues (printTask name bufSize s) s (List.range maxPriority) o with
        | none => none
        | some (.error r) => r
        | some (.ok o) => some o

/-- The line of a task. -/
def psLine (name : Nat → CString) (s : Sched) (t : Nat) : List UInt8 :=
  decimal (s.tcb t).pid ++ byteOf '\t' :: ((stateStr (s.tcb t).state).bytes ++ byteOf '\t' ::
    ((name t).bytes ++ byteOf '\t' :: (decimal (s.tcb t).priority ++ byteOf '\t' ::
      (decimal (s.tcb t).totalRuntime ++ [byteOf '\t', byteOf '\n']))))

/-- The header, the current task and the queued tasks, lowest priority first. -/
def psText (name : Nat → CString) (s : Sched) (q : Nat → List Nat) : List UInt8 :=
  psHeader.bytes ++ (if s.currentTask ≠ 0 then psLine name s s.currentTask else []) ++
    (queuedTasks q).flatMap (psLine name s)

section List
variable {name : Nat → CString} {s : Sched} {q : Nat → List Nat} {before : Nat → UInt8}
  {text pad : List UInt8} {bufSize : Nat} {o : Content}

theorem formatted_psFormat (name : Nat → CString) (s : Sched) (t : Nat) :
    formatted psFormat (psStrings (stateStr (s.tcb t).state) (name t)) (psArgs (s.tcb t)) =
      psLine name s t := by
  have hpieces : pieces psFormat.bytes = [.directive (byteOf 'd'), .plain (byteOf '\t'),
      .directive (byteOf 's'), .plain (byteOf '\t'), .directive (byteOf 's'), .plain (byteOf '\t'),
      .directive (byteOf 'd'), .plain (byteOf '\t'), .directive (byteOf 'd'),
      .plain (byteOf '\t'), .plain (byteOf '\n')] := rfl
  rw [formatted, hpieces]
  rfl

theorem formatted_psHeader : formatted psHeader noStrings noArgs = psHeader.bytes := by
  decide

theorem printTask_eq (h : Printed bufSize before text [0] o) (hpos : 1 ≤ bufSize)
    (hsize : bufSize < 2 ^ 31) (name : Nat → CString) (s : Sched) (t : Nat) :
    ∃ o', printTask name bufSize s o t = .ok o' ∧
      Printed bufSize before (text ++ psLine name s t) [0] o' := by
  have hlone : Piece.lone ∉ pieces psFormat.bytes := by decide
  obtain ⟨o', ho, hprinted⟩ := h.print (Nat.le_refl 1) hpos hsize hlone
    (psStrings (stateStr (s.tcb t).state) (name t)) (psArgs (s.tcb t))
  rw [formatted_psFormat] at hprinted
  refine ⟨o', ?_, hprinted⟩
  have hroom := hprinted.lt hpos
  rw [printTask, ho]
  exact if_neg (Nat.not_le_of_lt hroom)

theorem foldlM_printTask (h : Printed bufSize before text [0] o) (hpos : 1 ≤ bufSize)
    (hsize : bufSize < 2 ^ 31) (name : Nat → CString) (s : Sched) (l : List Nat) :
    ∃ o', l.foldlM (printTask name bufSize s) o = .ok o' ∧
      Printed bufSize before (text ++ l.flatMap (psLine name s)) [0] o' := by
  induction l generalizing text o with
  | nil =>
    rw [List.flatMap_nil, List.append_nil]
    exact ⟨o, rfl, h⟩
  | cons t l ih =>
    obtain ⟨o₁, ho₁, hprinted⟩ := printTask_eq h hpos hsize name s t
    obtain ⟨o', ho', hrest⟩ := ih hprinted
    rw [List.flatMap_cons, ← List.append_assoc]
    refine ⟨o', ?_, hrest⟩
    rw [List.foldlM_cons, ho₁]
    exact ho'

/-- The list is printed to its end: no return before it is taken. -/
theorem generateProcPsContent_printed (h : AcyclicQueues s q) (hpos : 1 ≤ bufSize)
    (hsize : bufSize < 2 ^ 31) (name : Nat → CString) (before : Nat → UInt8) :
    ∃ o, generateProcPsContent name s before bufSize = some o ∧
      Printed bufSize before (psText name s q) [0] o := by
  have hlone : Piece.lone ∉ pieces psHeader.bytes := by decide
  obtain ⟨o₀, ho₀, hheader⟩ :=
    (printed_nil bufSize before).print (Nat.zero_le 1) hpos hsize hlone noStrings noArgs
  rw [formatted_psHeader, List.nil_append] at hheader
  have hcurrent : ∃ o₁, (if s.currentTask ≠ 0 then printTask name bufSize s o₀ s.currentTask
      else .ok o₀) = .ok o₁ ∧ Printed bufSize before
        (psHeader.bytes ++ if s.currentTask ≠ 0 then psLine name s s.currentTask else []) [0]
          o₁ := by
    by_cases hc : s.currentTask ≠ 0
    · rw [if_pos hc, if_pos hc]
      exact printTask_eq hheader hpos hsize name s s.currentTask
    · rw [if_neg hc, if_neg hc, List.append_nil]
      exact ⟨o₀, rfl, hheader⟩
  obtain ⟨o₁, ho₁, hprinted⟩ := hcurrent
  obtain ⟨o, ho, hall⟩ := foldlM_printTask hprinted hpos hsize name s (queuedTasks q)
  have hwalk : walkQueues (printTask name bufSize s) s (List.range maxPriority) o₁ =
      some ((queuedTasks q).foldlM (printTask name bufSize s) o₁) :=
    h.walkQueues_eq (fun i hi => List.mem_range.mp hi) o₁
  refine ⟨o, ?_, hall⟩
  have hroom := hheader.lt hpos
  rw [generateProcPsContent, ho₀]
  simp only [if_neg (Nat.not_le_of_lt hroom), ho₁, hwalk, ho]

/-- **The list is truncated exactly.** In a buffer of 1024 bytes stand the first 1023 bytes of
the text, then a NUL; nothing behind the buffer is written, and each call of `snprintf` has at
least one byte left, the end of which is the buffer's. -/
theorem generateProcPsContent_eq (h : AcyclicQueues s q) (name : Nat → CString)
    (before : Nat → UInt8) :
    ∃ o, generateProcPsContent name s before 1024 = some o ∧
      o.offset = min (psText name s q).length 1023 ∧
      o.buf = overwrite before 0 ((psText name s q).take 1023 ++ [0]) ∧
      (∀ i, 1024 ≤ i → o.buf i = before i) ∧
      ∀ call ∈ o.calls, 1 ≤ call.2 ∧ call.1 + call.2 = 1024 := by
  obtain ⟨o, ho, hprinted⟩ :=
    @generateProcPsContent_printed s q 1024 h (by decide) (by decide) name before
  refine ⟨o, ho, hprinted.offset, hprinted.buf, fun i hi => ?_, hprinted.calls⟩
  rw [hprinted.buf]
  refine overwrite_above ?_
  rw [List.length_append, List.length_take, List.length_singleton]
  omega

/-- The tasks after booting, with no names. -/
theorem generateProcPsContent_eq_boot :
    ∃ q o, AcyclicQueues (schedInit (.boot grantingHeap 0 0)) q ∧
      generateProcPsContent noStrings (schedInit (.boot grantingHeap 0 0)) (fun _ => 0) 1024 =
        some o ∧
      o.offset =
        min (psText noStrings (schedInit (.boot grantingHeap 0 0)) q).length 1023 := by
  obtain ⟨q, hinv, -⟩ := Sound.schedInit sane_grantingHeap 0 0
  obtain ⟨o, ho, hoffset, -⟩ := generateProcPsContent_eq hinv.acyclic noStrings fun _ => 0
  exact ⟨q, o, hinv.acyclic, ho, hoffset⟩

/-- A line appended to the beginning of a text, as far as there is room. -/
theorem printLine_eq {line : Task → Nat → List UInt8}
    (hline : ∀ t room, line (s.tcb t) room = (psLine name s t).take (room - 1)) (t : Nat) :
    (let text := text.take 1023 ++ line (s.tcb t) (1024 - (text.take 1023).length)
      if 1024 ≤ text.length then .error text else .ok text : Except (List UInt8) (List UInt8)) =
      .ok ((text ++ psLine name s t).take 1023) := by
  have hroom : 1024 - (text.take 1023).length - 1 = 1023 - min text.length 1023 := by
    rw [List.length_take]
    omega
  have hnext : text.take 1023 ++ line (s.tcb t) (1024 - (text.take 1023).length) =
      (text ++ psLine name s t).take 1023 := by
    rw [hline, hroom, take_append_take]
  have hshort : ¬ 1024 ≤ ((text ++ psLine name s t).take 1023).length := by
    rw [List.length_take]
    omega
  simp only [hnext]
  exact if_neg hshort

theorem foldlM_printLine {line : Task → Nat → List UInt8}
    (hline : ∀ t room, line (s.tcb t) room = (psLine name s t).take (room - 1)) (l : List Nat) :
    l.foldlM (fun text t =>
        (let text := text ++ line (s.tcb t) (1024 - text.length)
          if 1024 ≤ text.length then .error text else .ok text :
            Except (List UInt8) (List UInt8))) (text.take 1023) =
      .ok ((text ++ l.flatMap (psLine name s)).take 1023) := by
  induction l generalizing text with
  | nil =>
    rw [List.flatMap_nil, List.append_nil]
    rfl
  | cons t l ih =>
    rw [List.foldlM_cons, printLine_eq hline t, List.flatMap_cons, ← List.append_assoc]
    exact ih

/-- **The list without its memory** is what the buffer holds: printing what fits of each line
gives the beginning of the text. -/
theorem generateProcPsContent_text (h : AcyclicQueues s q) {header : Nat → List UInt8}
    {line : Task → Nat → List UInt8}
    (hheader : ∀ room, header room = psHeader.bytes.take (room - 1))
    (hline : ∀ t room, line (s.tcb t) room = (psLine name s t).take (room - 1)) :
    Proc.generateProcPsContent s header line 1024 = some ((psText name s q).take 1023) := by
  have hshort : ¬ 1024 ≤ (psHeader.bytes.take 1023).length := by decide
  have hwalk : ∀ text : List UInt8, walkQueues (fun text t =>
      (let text := text ++ line (s.tcb t) (1024 - text.length)
        if 1024 ≤ text.length then .error text else .ok text :
          Except (List UInt8) (List UInt8))) s (List.range maxPriority) (text.take 1023) =
      some (.ok ((text ++ (queuedTasks q).flatMap (psLine name s)).take 1023)) := by
    intro text
    rw [h.walkQueues_eq (fun i hi => List.mem_range.mp hi)]
    exact congrArg some (foldlM_printLine hline (queuedTasks q))
  rw [Proc.generateProcPsContent, hheader]
  simp only [Nat.add_one_sub_one, if_neg hshort]
  by_cases hc : s.currentTask ≠ 0
  · have hline' := @printLine_eq name s psHeader.bytes line hline s.currentTask
    simp only at hline'
    rw [psText, if_pos hc, if_pos hc, hline']
    simp only [hwalk]
  · rw [psText, if_neg hc, if_neg hc, List.append_nil]
    simp only [hwalk]

end List

/-! ## The status of one task -/

/-- A format without arguments. -/
def plainCall (format : CString) : PrintCall := ⟨format, noStrings, noArgs⟩

/-- A format with one number. -/
def numberCall (format : CString) (word : Nat) : PrintCall := ⟨format, noStrings, fun _ => word⟩

/-- `"Process Information\n"`. -/
def statusHeader : CString :=
  ⟨ascii ['P', 'r', 'o', 'c', 'e', 's', 's', ' ', 'I', 'n', 'f', 'o', 'r', 'm', 'a', 't', 'i', 'o',
    'n', '\n'], by decide⟩

/-- `"PID: %d\n"`. -/
def pidFormat : CString := ⟨ascii ['P', 'I', 'D', ':', ' ', '%', 'd', '\n'], by decide⟩

/-- `"State: %s\n"`. -/
def stateFormat : CString :=
  ⟨ascii ['S', 't', 'a', 't', 'e', ':', ' ', '%', 's', '\n'], by decide⟩

/-- `"Priority: %d\n"`. -/
def priorityFormat : CString :=
  ⟨ascii ['P', 'r', 'i', 'o', 'r', 'i', 't', 'y', ':', ' ', '%', 'd', '\n'], by decide⟩

/-- `"Total Time: %d\n"`. -/
def totalTimeFormat : CString :=
  ⟨ascii ['T', 'o', 't', 'a', 'l', ' ', 'T', 'i', 'm', 'e', ':', ' ', '%', 'd', '\n'], by decide⟩

/-- `"Parent PID: %d\n"`. -/
def parentFormat : CString :=
  ⟨ascii ['P', 'a', 'r', 'e', 'n', 't', ' ', 'P', 'I', 'D', ':', ' ', '%', 'd', '\n'], by decide⟩

/-- `"Page Directory: 0x%x\n"`. -/
def pageDirFormat : CString :=
  ⟨ascii ['P', 'a', 'g', 'e', ' ', 'D', 'i', 'r', 'e', 'c', 't', 'o', 'r', 'y', ':', ' ', '0', 'x',
    '%', 'x', '\n'], by decide⟩

/-- `"Kernel ESP: 0x%x\n"`. -/
def kernelEspFormat : CString :=
  ⟨ascii ['K', 'e', 'r', 'n', 'e', 'l', ' ', 'E', 'S', 'P', ':', ' ', '0', 'x', '%', 'x', '\n'],
    by decide⟩

/-- `"User ESP: 0x%x\n"`. -/
def userEspFormat : CString :=
  ⟨ascii ['U', 's', 'e', 'r', ' ', 'E', 'S', 'P', ':', ' ', '0', 'x', '%', 'x', '\n'], by decide⟩

/-- `"Process %d not found\n"`. -/
def notFoundFormat : CString :=
  ⟨ascii ['P', 'r', 'o', 'c', 'e', 's', 's', ' ', '%', 'd', ' ', 'n', 'o', 't', ' ', 'f', 'o', 'u',
    'n', 'd', '\n'], by decide⟩

/-- The calls for a task; `address` is where a page directory is. -/
def taskCalls (address : PageDir → Nat) (s : Sched) (task : Task) : List PrintCall :=
  [numberCall pidFormat task.pid,
    ⟨stateFormat, fun _ => stateStr task.state, fun _ => 1⟩,
    numberCall priorityFormat task.priority,
    numberCall totalTimeFormat task.totalRuntime,
    numberCall parentFormat (if task.parent ≠ 0 then (s.tcb task.parent).pid else 0),
    numberCall pageDirFormat (address task.pageDir),
    numberCall kernelEspFormat task.kernelStackTop,
    numberCall userEspFormat task.userStackTop]

/-- The calls for the task `t`, or for a pid that no task has where `t` is `0`. -/
def statusCalls (address : PageDir → Nat) (s : Sched) (pid t : Nat) : PrintCall × List PrintCall :=
  if t ≠ 0 then (plainCall statusHeader, taskCalls address s (s.tcb t))
  else (numberCall notFoundFormat pid, [])

def generateProcPidStatusContent (address : PageDir → Nat) (s : Sched) (pid : Nat)
    (before : Nat → UInt8) (bufSize : Nat) : Option Content :=
  match findStatusTask s pid with
  | none => none
  | some t =>
    let (call, calls) := statusCalls address s pid t
    Content.printAll bufSize (call :: calls) ⟨before, 0, []⟩

/-- The text of the calls. -/
def statusText (address : PageDir → Nat) (s : Sched) (pid t : Nat) : List UInt8 :=
  ((statusCalls address s pid t).1 :: (statusCalls address s pid t).2).flatMap PrintCall.text

section Status
variable {s : Sched} {q : Nat → List Nat} {bufSize : Nat}

theorem findStatusTask_some (h : AcyclicQueues s q) (pid : Nat) :
    ∃ t, findStatusTask s pid = some t := by
  have hfind : findTask s pid =
      some ((queuedTasks q).foldlM (Search.search fun t => (s.tcb t).pid = pid) ()) :=
    h.walkQueues_eq (fun i hi => List.mem_range.mp hi) ()
  rw [findStatusTask, hfind]
  by_cases hcurrent : s.currentTask ≠ 0 ∧ (s.tcb s.currentTask).pid = pid
  · exact ⟨s.currentTask, if_pos hcurrent⟩
  · rw [if_neg hcurrent]
    cases (queuedTasks q).foldlM (Search.search fun t => (s.tcb t).pid = pid) () with
    | error t => exact ⟨t, rfl⟩
    | ok _ => exact ⟨0, rfl⟩

theorem noLone_statusCalls (address : PageDir → Nat) (s : Sched) (pid t : Nat) :
    ∀ c ∈ (statusCalls address s pid t).1 :: (statusCalls address s pid t).2,
      Piece.lone ∉ pieces c.format.bytes := by
  have hheader : Piece.lone ∉ pieces statusHeader.bytes ∧
      Piece.lone ∉ pieces notFoundFormat.bytes := by decide
  have hformats : ∀ f ∈ [pidFormat, stateFormat, priorityFormat, totalTimeFormat, parentFormat,
      pageDirFormat, kernelEspFormat, userEspFormat], Piece.lone ∉ pieces f.bytes := by decide
  intro c hc
  rw [statusCalls] at hc
  by_cases ht : t ≠ 0
  · rw [if_pos ht] at hc
    rcases List.mem_cons.mp hc with rfl | hc
    · exact hheader.1
    · exact hformats c.format (List.mem_map_of_mem (f := PrintCall.format) hc)
  · rw [if_neg ht] at hc
    obtain rfl := List.mem_singleton.mp hc
    exact hheader.2

theorem generateProcPidStatusContent_printed (h : AcyclicQueues s q) (hpos : 1 ≤ bufSize)
    (hsize : bufSize < 2 ^ 31) (address : PageDir → Nat) (pid : Nat) (before : Nat → UInt8) :
    ∃ t o, findStatusTask s pid = some t ∧
      generateProcPidStatusContent address s pid before bufSize = some o ∧
      Printed bufSize before (statusText address s pid t) [0] o := by
  obtain ⟨t, ht⟩ := findStatusTask_some h pid
  obtain ⟨o, ho, hprinted⟩ := (printed_nil bufSize before).printAll (Nat.zero_le 1) hpos hsize
    (noLone_statusCalls address s pid t)
  refine ⟨t, o, ht, ?_, hprinted⟩
  rw [generateProcPidStatusContent, ht]
  exact ho

end Status

end SynapseKernel.ProcFs
