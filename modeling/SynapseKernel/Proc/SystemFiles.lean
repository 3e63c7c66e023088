import SynapseKernel.Proc.ProcRead
import SynapseKernel.Str.NumberText

/-! # The other files of procfs (kernel/proc/procfs.c)

The load, the memory and the descriptors of a process are printed like the list of the
tasks, into buffers that hold all of the text whatever the numbers in it are, and read
through the same windows (`systemFiles_read`). The three amounts of memory are read back from
the text, and they add up exactly where the free memory is a whole number of kB that is not
more than the total (`meminfo_numbers`). -/
namespace SynapseKernel.ProcFs
open SynapseKernel.Word SynapseKernel.ByteMemory SynapseKernel.Blocks SynapseKernel.Numeral
open SynapseKernel.Str SynapseKernel.Proc

/-! ## /proc/loadavg -/

/-- `"0.10 0.20 0.30 1/1 %d\n"`. -/
def loadavgFormat : CString :=
  ⟨ascii ['0', '.', '1', '0', ' ', '0', '.', '2', '0', ' ', '0', '.', '3', '0', ' ', '1', '/', '1',
    ' ', '%', 'd', '\n'], by decide⟩

def loadavgCall (s : Sched) : PrintCall :=
  numberCall loadavgFormat (if s.currentTask ≠ 0 then (s.tcb s.currentTask).pid else 0)

/-- `before` is the memory from `buf` on. -/
def generateProcLoadavgContent (s : Sched) (before : Nat → UInt8) (bufSize : Nat) :
    Option Content :=
  Content.printAll bufSize [loadavgCall s] ⟨before, 0, []⟩

def procReadLoadavg (s : Sched) (before buf : Nat → UInt8) (count offset : Nat) :
    Option (Nat × (Nat → UInt8)) :=
  match generateProcLoadavgContent s before 128 with
  | none => none
  | some content => some (copyOut content buf count offset)

/-! ## /proc/meminfo -/

/-- `"MemTotal:     %d kB\n"`. -/
def memTotalFormat : CString :=
  ⟨ascii ['M', 'e', 'm', 'T', 'o', 't', 'a', 'l', ':', ' ', ' ', ' ', ' ', ' ', '%', 'd', ' ', 'k',
    'B', '\n'], by decide⟩

/-- `"MemFree:      %d kB\n"`. -/
def memFreeFormat : CString :=
  ⟨ascii ['M', 'e', 'm', 'F', 'r', 'e', 'e', ':', ' ', ' ', ' ', ' ', ' ', ' ', '%', 'd', ' ', 'k',
    'B', '\n'], by decide⟩

/-- `"MemUsed:      %d kB\n"`. -/
def memUsedFormat : CString :=
  ⟨ascii ['M', 'e', 'm', 'U', 's', 'e', 'd', ':', ' ', ' ', ' ', ' ', ' ', ' ', '%', 'd', ' ', 'k',
    'B', '\n'], by decide⟩

/-- `"\nBuddy Allocator Fragmentation:\n"`. -/
def buddyFormat : CString :=
  ⟨ascii ['\n', 'B', 'u', 'd', 'd', 'y', ' ', 'A', 'l', 'l', 'o', 'c', 'a', 't', 'o', 'r', ' ', 'F',
    'r', 'a', 'g', 'm', 'e', 'n', 't', 'a', 't', 'i', 'o', 'n', ':', '\n'], by decide⟩

/-- `"  Level 0: 10%%\n"`. -/
def level0Format : CString :=
  ⟨ascii [' ', ' ', 'L', 'e', 'v', 'e', 'l', ' ', '0', ':', ' ', '1', '0', '%', '%', '\n'],
    by decide⟩

/-- `"  Level 1: 15%%\n"`. -/
def level1Format : CString :=
  ⟨ascii [' ', ' ', 'L', 'e', 'v', 'e', 'l', ' ', '1', ':', ' ', '1', '5', '%', '%', '\n'],
    by decide⟩

/-- `"  Level 2: 8%%\n"`. -/
def level2Format : CString :=
  ⟨ascii [' ', ' ', 'L', 'e', 'v', 'e', 'l', ' ', '2', ':', ' ', '8', '%', '%', '\n'], by decide⟩

/-- `"  Level 3: 5%%\n"`. -/
def level3Format : CString :=
  ⟨ascii [' ', ' ', 'L', 'e', 'v', 'e', 'l', ' ', '3', ':', ' ', '5', '%', '%', '\n'], by decide⟩

/-- `total_mem`. -/
abbrev totalMem : Nat := 32 * 1024 * 1024

/-- `used_mem`, a word. -/
def usedMem (freeMem : Nat) : Nat := sub32 totalMem freeMem

/-- What does not depend on the memory. -/
def buddyCalls : List PrintCall :=
  [plainCall buddyFormat, plainCall level0Format, plainCall level1Format, plainCall level2Format,
    plainCall level3Format]

/-- The calls for `get_free_mem_size() == freeMem`. -/
def meminfoCalls (freeMem : Nat) : List PrintCall :=
  numberCall memTotalFormat (totalMem / 1024) :: numberCall memFreeFormat (freeMem / 1024) ::
    numberCall memUsedFormat (usedMem freeMem / 1024) :: buddyCalls

def generateProcMeminfoContent (freeMem : Nat) (before : Nat → UInt8) (bufSize : Nat) :
    Option Content :=
  Content.printAll bufSize (meminfoCalls freeMem) ⟨before, 0, []⟩

def procReadMeminfo (freeMem : Nat) (before buf : Nat → UInt8) (count offset : Nat) :
    Option (Nat × (Nat → UInt8)) :=
  match generateProcMeminfoContent freeMem before 1024 with
  | none => none
  | some content => some (copyOut content buf count offset)

/-! ## /proc/[pid]/fd -/

/-- `"0\n1\n2\n"`. -/
def pidFdFormat : CString := ⟨ascii ['0', '\n', '1', '\n', '2', '\n'], by decide⟩

/-- The pid is not looked at. -/
def generateProcPidFdContent (_pid : Nat) (before : Nat → UInt8) (bufSize : Nat) :
    Option Content :=
  Content.printAll bufSize [plainCall pidFdFormat] ⟨before, 0, []⟩

def procReadPidFd (pid : Nat) (before buf : Nat → UInt8) (count offset : Nat) :
    Option (Nat × (Nat → UInt8)) :=
  match generateProcPidFdContent pid before 128 with
  | none => none
  | some content => some (copyOut content buf count offset)

/-! ## What is printed -/

def loadavgText (s : Sched) : List UInt8 := (loadavgCall s).text

def meminfoText (freeMem : Nat) : List UInt8 := (meminfoCalls freeMem).flatMap PrintCall.text

section Texts
variable {bufSize freeMem word : Nat} {before : Nat → UInt8} {text : List UInt8} {o : Content}

/-- The text of a format with one number between other bytes. -/
theorem text_numberCall (format : CString) (pre post : List UInt8)
    (h : pieces format.bytes =
      pre.map .plain ++ .directive (byteOf 'd') :: post.map .plain) (word : Nat) :
    (numberCall format word).text = pre ++ (decimal word ++ post) := by
  rw [PrintCall.text, numberCall, formatted, h, renderings_plain, renderings_decimal,
    renderings_end]

/-- Where the buffer holds all of the text, the content is as good as in a larger one. -/
theorem printed_whole (h : Printed bufSize before text [0] o) (hlen : text.length < bufSize)
    (hlarge : text.length < 1024) :
    Printed 1024 before text [0] { o with calls := [] } := by
  refine ⟨?_, ?_, fun call hc => absurd hc List.not_mem_nil⟩
  · rw [h.buf, List.take_of_length_le (Nat.le_sub_one_of_lt hlen),
      List.take_of_length_le (Nat.le_sub_one_of_lt hlarge)]
  · rw [h.offset, Nat.min_eq_left (Nat.le_sub_one_of_lt hlen),
      Nat.min_eq_left (Nat.le_sub_one_of_lt hlarge)]

/-- A file whose text fits into its buffer. -/
theorem readsWindows_whole (bufSize : Nat) (before : Nat → UInt8) {call : PrintCall}
    {calls : List PrintCall}
    {read : (Nat → UInt8) → Nat → Nat → Option (Nat × (Nat → UInt8))} (hsize : bufSize < 2 ^ 31)
    (hlone : ∀ f ∈ (call :: calls).map PrintCall.format, Piece.lone ∉ pieces f.bytes)
    (hfits : ((call :: calls).flatMap PrintCall.text).length < bufSize)
    (hlarge : ((call :: calls).flatMap PrintCall.text).length < 1024)
    (hread : ∀ o, Content.printAll bufSize (call :: calls) ⟨before, 0, []⟩ = some o →
      ∀ buf count offset, read buf count offset = some (copyOut o buf count offset)) :
    ReadsWindows read ((call :: calls).flatMap PrintCall.text) := by
  obtain ⟨o, ho, hprinted⟩ := (printed_nil bufSize before).printAll (Nat.zero_le 1)
    (Nat.lt_of_le_of_lt (Nat.zero_le _) hfits) hsize fun c hc => hlone _ (List.mem_map_of_mem hc)
  rw [List.nil_append] at hprinted
  have hreads := readsWindows_of_printed (printed_whole hprinted hfits hlarge) (hread o ho)
  rwa [List.take_of_length_le (Nat.le_sub_one_of_lt hlarge)] at hreads

/-! ## The three files -/

theorem loadavgText_eq (s : Sched) : loadavgText s =
    ascii ['0', '.', '1', '0', ' ', '0', '.', '2', '0', ' ', '0', '.', '3', '0', ' ', '1', '/', '1',
      ' '] ++ (decimal (if s.currentTask ≠ 0 then (s.tcb s.currentTask).pid else 0) ++
        [byteOf '\n']) :=
  text_numberCall loadavgFormat _ _ rfl _

theorem length_loadavgText (s : Sched) : (loadavgText s).length ≤ 51 := by
  have hdecimal :=
    length_decimal_le_any (if s.currentTask ≠ 0 then (s.tcb s.currentTask).pid else 0)
  rw [loadavgText_eq, List.length_append, List.length_append, List.length_singleton]
  exact Nat.add_le_add (by decide : _ ≤ 19) (Nat.succ_le_succ hdecimal)

/-- The line of an amount of memory. -/
def memLine (name : List UInt8) (word : Nat) : List UInt8 :=
  name ++ (decimal word ++ ascii [' ', 'k', 'B', '\n'])

def memTotalName : List UInt8 :=
  ascii ['M', 'e', 'm', 'T', 'o', 't', 'a', 'l', ':', ' ', ' ', ' ', ' ', ' ']

def memFreeName : List UInt8 :=
  ascii ['M', 'e', 'm', 'F', 'r', 'e', 'e', ':', ' ', ' ', ' ', ' ', ' ', ' ']

def memUsedName : List UInt8 :=
  ascii ['M', 'e', 'm', 'U', 's', 'e', 'd', ':', ' ', ' ', ' ', ' ', ' ', ' ']

theorem meminfoText_eq (freeMem : Nat) : meminfoText freeMem =
    memLine memTotalName 32768 ++ (memLine memFreeName (freeMem / 1024) ++
      (memLine memUsedName (usedMem freeMem / 1024) ++ buddyCalls.flatMap PrintCall.text)) := by
  have htotal : (numberCall memTotalFormat (totalMem / 1024)).text = memLine memTotalName 32768 :=
    text_numberCall memTotalFormat memTotalName _ rfl _
  have hfree : (numberCall memFreeFormat (freeMem / 1024)).text =
      memLine memFreeName (freeMem / 1024) := text_numberCall memFreeFormat memFreeName _ rfl _
  have hused : (numberCall memUsedFormat (usedMem freeMem / 1024)).text =
      memLine memUsedName (usedMem freeMem / 1024) :=
    text_numberCall memUsedFormat memUsedName _ rfl _
  rw [meminfoText, meminfoCalls, List.flatMap_cons, List.flatMap_cons, List.flatMap_cons, htotal,
    hfree, hused]

theorem length_memLine (name : List UInt8) (hname : name.length = 14) (word : Nat) :
    (memLine name word).length ≤ 49 := by
  have hdecimal := length_decimal_le_any word
  rw [memLine, List.length_append, List.length_append, hname]
  exact Nat.add_le_add_left (Nat.add_le_add hdecimal (Nat.le_refl 4)) 14

theorem length_meminfoText (freeMem : Nat) : (meminfoText freeMem).length ≤ 240 := by
  have hbuddy : (buddyCalls.flatMap PrintCall.text).length ≤ 93 := by decide
  have htotal := length_memLine memTotalName rfl 32768
  have hfree := length_memLine memFreeName rfl (freeMem / 1024)
  have hused := length_memLine memUsedName rfl (usedMem freeMem / 1024)
  rw [meminfoText_eq, List.length_append, List.length_append, List.length_append]
  omega

/-- A line of it tells the amount. -/
theorem numbers_memLine {name : List UInt8} (hname : ∀ b ∈ name, ¬ IsDigit b)
    (hword : word < 2 ^ 31) (text : List UInt8) :
    numbers (memLine name word ++ text) = word :: numbers text := by
  have hunit : ∀ b ∈ ascii [' ', 'k', 'B', '\n'], ¬ IsDigit b := forall_of_all (by decide)
  exact numbers_decimal hname hunit (List.cons_ne_nil _ _) hword text

end Texts

/-- **The other files of procfs** are read like the list of the tasks, and never cut off: in
every state, for every amount of free memory and every pid. -/
theorem systemFiles_read (s : Sched) (freeMem pid : Nat) (before : Nat → UInt8) :
    ReadsWindows (procReadLoadavg s before) (loadavgText s) ∧
      ReadsWindows (procReadMeminfo freeMem before) (meminfoText freeMem) ∧
      ReadsWindows (procReadPidFd pid before) pidFdFormat.bytes := by
  have hloadavg := length_loadavgText s
  have hmeminfo := length_meminfoText freeMem
  have hloadavgLone : ∀ f ∈ [loadavgFormat], Piece.lone ∉ pieces f.bytes := by decide
  have hmeminfoLone : ∀ f ∈ [memTotalFormat, memFreeFormat, memUsedFormat, buddyFormat,
      level0Format, level1Format, level2Format, level3Format], Piece.lone ∉ pieces f.bytes := by
    decide
  have hpidFdLone : ∀ f ∈ [pidFdFormat], Piece.lone ∉ pieces f.bytes := by decide
  refine ⟨?_, ?_, ?_⟩
  · have hone : [loadavgCall s].flatMap PrintCall.text = loadavgText s := List.flatMap_singleton _ _
    rw [← hone] at hloadavg ⊢
    refine readsWindows_whole 128 before (by decide) hloadavgLone (by omega) (by omega)
      fun o ho buf count offset => ?_
    rw [procReadLoadavg, generateProcLoadavgContent, ho]
  · refine readsWindows_whole 1024 before (by decide) hmeminfoLone
      (Nat.lt_of_le_of_lt hmeminfo (by decide)) (Nat.lt_of_le_of_lt hmeminfo (by decide))
      fun o ho buf count offset => ?_
    rw [procReadMeminfo, generateProcMeminfoContent, meminfoCalls, ho]
  · have hone : [plainCall pidFdFormat].flatMap PrintCall.text = pidFdFormat.bytes := by decide
    rw [← hone]
    refine readsWindows_whole 128 before (by decide) hpidFdLone (by decide) (by decide)
      fun o ho buf count offset => ?_
    rw [procReadPidFd, generateProcPidFdContent, ho]

/-- **The numbers in /proc/meminfo** are the three amounts in kB and the constant levels, and
the amounts add up if and only if the free memory is not above the total and a whole number
of kB. -/
theorem meminfo_numbers (freeMem : Nat) (hfree : freeMem < 2 ^ 32) :
    numbers (meminfoText freeMem) =
        [32768, freeMem / 1024, usedMem freeMem / 1024, 0, 10, 1, 15, 2, 8, 3, 5] ∧
      (freeMem / 1024 + usedMem freeMem / 1024 = 32768 ↔
        freeMem ≤ totalMem ∧ freeMem % 1024 = 0) := by
  have hused : usedMem freeMem < 2 ^ 32 := u32_lt _
  have hlevels : numbers (buddyCalls.flatMap PrintCall.text) = [0, 10, 1, 15, 2, 8, 3, 5] := by
    decide
  have htotalName : ∀ b ∈ memTotalName, ¬ IsDigit b := forall_of_all (by decide)
  have hfreeName : ∀ b ∈ memFreeName, ¬ IsDigit b := forall_of_all (by decide)
  have husedName : ∀ b ∈ memUsedName, ¬ IsDigit b := forall_of_all (by decide)
  constructor
  · rw [meminfoText_eq, numbers_memLine htotalName (by decide),
      numbers_memLine hfreeName (by omega), numbers_memLine husedName (by omega), hlevels]
  · have htotal : totalMem = 33554432 := rfl
    unfold usedMem sub32 u32
    omega

/-- With a quarter of a kB too much. -/
theorem meminfo_numbers_quarter :
    numbers (meminfoText (2 ^ 20 + 256)) =
        [32768, (2 ^ 20 + 256) / 1024, usedMem (2 ^ 20 + 256) / 1024, 0, 10, 1, 15, 2, 8, 3, 5] ∧
      ¬ (2 ^ 20 + 256) / 1024 + usedMem (2 ^ 20 + 256) / 1024 = 32768 := by
  obtain ⟨hnumbers, hsum⟩ := meminfo_numbers (2 ^ 20 + 256) (by decide)
  exact ⟨hnumbers, mt hsum.mp (by decide)⟩

end SynapseKernel.ProcFs
