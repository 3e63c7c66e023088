import SynapseKernel.Console.Commands
import SynapseKernel.Mm.FrameBitmap
import SynapseKernel.Mm.KheapUsage
import SynapseKernel.Str.NumberText

/-! # The command `free` (lib/shell.c)

`shell_cmd_free` prints the sizes that the frame allocator and the kernel heap report, in kB.
In every state that the two reach, the numbers on the console are those of the frames in use
and of the blocks in use (`free_prints`). -/
namespace SynapseKernel.Console
open SynapseKernel.Word SynapseKernel.ByteMemory SynapseKernel.Blocks SynapseKernel.Numeral
open SynapseKernel.Str SynapseKernel.Runs

/-- `"Total: %d KB\nUsed: %d KB\nFree: %d KB\n"`. -/
def memoryFormat : CString :=
  ⟨ascii ['T', 'o', 't', 'a', 'l', ':', ' ', '%', 'd', ' ', 'K', 'B', '\n', 'U', 's', 'e', 'd',
    ':', ' ', '%', 'd', ' ', 'K', 'B', '\n', 'F', 'r', 'e', 'e', ':', ' ', '%', 'd', ' ', 'K', 'B',
    '\n'], by decide⟩

/-- `"Kernel Heap:\nTotal: %d KB\nUsed: %d KB\nFree: %d KB\n"`. -/
def kernelHeapFormat : CString :=
  ⟨ascii ['K', 'e', 'r', 'n', 'e', 'l', ' ', 'H', 'e', 'a', 'p', ':', '\n', 'T', 'o', 't', 'a',
    'l', ':', ' ', '%', 'd', ' ', 'K', 'B', '\n', 'U', 's', 'e', 'd', ':', ' ', '%', 'd', ' ', 'K',
    'B', '\n', 'F', 'r', 'e', 'e', ':', ' ', '%', 'd', ' ', 'K', 'B', '\n'], by decide⟩

/-- `sizeof(buf)`. -/
abbrev usageBufSize : Nat := 128

/-- `snprintf(buf, sizeof(buf), format, ..); kprint(buf);`. The formats have no `%s`, so that it
does not matter what stands where the arguments point to. -/
def printBuf (s : Shell) (buf : Nat) (format : CString) (args : List Nat) : Option Shell :=
  match snprintf (fun i => s.strtok.mem (buf + i)) usageBufSize format (fun _ => format)
    fun k => args.getD k 0 with
  | none => none
  | some (_, str) =>
    let mem := fun a => if a < buf then s.strtok.mem a else str (a - buf)
    kprintAt { s with strtok := { s.strtok with mem := mem } } buf

/-- `"\nMemory Usage:\n"`. -/
def memoryHeader : List UInt8 :=
  ascii ['\n', 'M', 'e', 'm', 'o', 'r', 'y', ' ', 'U', 's', 'a', 'g', 'e', ':', '\n']

def shellCmdFree (s : Shell) (buf : Nat) (frames : Paging.State) (heap : Kheap.Heap) :
    Option Shell :=
  let s := s.kprint memoryHeader
  let total := Paging.getTotalMemory frames
  let used := Paging.getUsedMemory frames
  let free := Paging.getFreeMemory frames
  (printBuf s buf memoryFormat [total / 1024, used / 1024, free / 1024]).bind fun s =>
    let (kheapTotal, kheapUsed, kheapFree) := Kheap.getKheapInfo heap
    (printBuf s buf kernelHeapFormat [kheapTotal / 1024, kheapUsed / 1024, kheapFree / 1024]).map
      fun s => s.kprint [byteOf '\n']

/-! ## The texts -/

variable {s : Shell} {buf p : Nat} {text : List UInt8} {format : CString} {args : List Nat}
  {total used free : Nat}

/-- A line of the two texts. -/
def amountLine (name : List UInt8) (word : Nat) : List UInt8 :=
  name ++ (decimal word ++ ascii [' ', 'K', 'B', '\n'])

def usageText (header : List UInt8) (total used free : Nat) : List UInt8 :=
  amountLine (header ++ ascii ['T', 'o', 't', 'a', 'l', ':', ' ']) total ++
    (amountLine (ascii ['U', 's', 'e', 'd', ':', ' ']) used ++
      amountLine (ascii ['F', 'r', 'e', 'e', ':', ' ']) free)

def kernelHeapHeader : List UInt8 :=
  ascii ['K', 'e', 'r', 'n', 'e', 'l', ' ', 'H', 'e', 'a', 'p', ':', '\n']

/-- The bytes stand where they were written, with a NUL behind them. -/
theorem holds_overwrite (f : Mem) (hlen : p + text.length < 2 ^ 32) :
    Holds (overwrite f p (text ++ [0])) p text := by
  induction text generalizing f p with
  | nil =>
    have hp : p < 2 ^ 32 := hlen
    rw [List.nil_append, overwrite_singleton, Holds, char, u32_of_lt hp, Function.update_self]
  | cons b text ih =>
    rw [List.length_cons] at hlen
    have hcons : overwrite f p ([b] ++ (text ++ [0])) =
        overwrite (Function.update f p b) (p + 1) (text ++ [0]) := by
      rw [← overwrite_append, overwrite_singleton]
      rfl
    rw [List.cons_append, ← List.singleton_append, hcons]
    refine ⟨?_, ih _ (by omega)⟩
    rw [char, u32_of_lt (by omega), overwrite_below (Nat.lt_succ_self p), Function.update_self]

/-- A text that fits is printed, and the memory outside of the buffer is as before. -/
theorem printBuf_prints (hbuf : buf + usageBufSize ≤ 2 ^ 32)
    (hlone : Piece.lone ∉ pieces format.bytes)
    (htext : formatted format (fun _ => format) (fun k => args.getD k 0) = text)
    (hlen : text.length < usageBufSize) (h0 : 0 ∉ text) :
    ∃ s', printBuf s buf format args = some s' ∧ s'.vga = vgaPutsFrom s.vga text ∧
      ∀ a, a < buf ∨ buf + usageBufSize ≤ a → s'.strtok.mem a = s.strtok.mem a := by
  have hwrite := @snprintf_eq (fun _ => format) (fun k => args.getD k 0) format usageBufSize
    (by decide) (by decide) hlone fun i => s.strtok.mem (buf + i)
  have hcut : text.take (usageBufSize - 1) = text :=
    List.take_of_length_le (Nat.le_sub_one_of_lt hlen)
  rw [htext, hcut] at hwrite
  have hmem : (fun a => if a < buf then s.strtok.mem a else
      overwrite (fun i => s.strtok.mem (buf + i)) 0 (text ++ [0]) (a - buf)) =
      overwrite s.strtok.mem buf (text ++ [0]) := overwrite_shift s.strtok.mem buf (text ++ [0])
  have hholds := holds_overwrite s.strtok.mem (by omega : buf + text.length < 2 ^ 32)
  have hfuel : text.length < loopFuel := Nat.lt_trans hlen (by decide)
  simp only [printBuf, hwrite, hmem, kprintAt]
  refine ⟨_, eachChar_eq Shell.putc _ hholds h0 hfuel, ?_, fun a ha => ?_⟩
  · rw [foldl_putc]
    rfl
  · rw [foldl_putc]
    have hend : (text ++ [0]).length ≤ usageBufSize := by
      rw [List.length_append, List.length_singleton]
      exact hlen
    exact overwrite_outside (Nat.le_refl buf) (Nat.add_le_add_left hend buf) ha

theorem length_amountLine {word : Nat} (hword : word < 2 ^ 32) (name : List UInt8) :
    (amountLine name word).length ≤ name.length + 15 := by
  have hdecimal := length_decimal_le hword
  rw [amountLine, List.length_append, List.length_append]
  exact Nat.add_le_add_left (Nat.add_le_add_right hdecimal 4) _

theorem noNul_amountLine {word : Nat} {name : List UInt8} (hname : 0 ∉ name)
    (hword : word < 2 ^ 31) : 0 ∉ amountLine name word := by
  have hunit : (0 : UInt8) ∉ ascii [' ', 'K', 'B', '\n'] := by decide
  rw [amountLine, List.mem_append, List.mem_append, not_or, not_or]
  exact ⟨hname, noNul_decimal hword, hunit⟩

theorem numbers_amountLine {word : Nat} {name : List UInt8} (hname : ∀ b ∈ name, ¬ IsDigit b)
    (hword : word < 2 ^ 31) (text : List UInt8) :
    numbers (amountLine name word ++ text) = word :: numbers text := by
  have hunit : ∀ b ∈ ascii [' ', 'K', 'B', '\n'], ¬ IsDigit b := forall_of_all (by decide)
  exact numbers_decimal hname hunit (List.cons_ne_nil _ _) hword text

/-- The three amounts are words that `%d` does not take for negative. -/
structure Amounts (total used free : Nat) : Prop where
  total : total < 2 ^ 31
  used : used < 2 ^ 31
  free : free < 2 ^ 31

theorem length_usageText (h : Amounts total used free) (header : List UInt8) :
    (usageText header total used free).length ≤ header.length + 64 := by
  obtain ⟨htotal, hused, hfree⟩ := h
  have hlines := length_amountLine (Nat.lt_trans htotal (by decide))
    (header ++ ascii ['T', 'o', 't', 'a', 'l', ':', ' '])
  have hlines' := length_amountLine (Nat.lt_trans hused (by decide))
    (ascii ['U', 's', 'e', 'd', ':', ' '])
  have hlines'' := length_amountLine (Nat.lt_trans hfree (by decide))
    (ascii ['F', 'r', 'e', 'e', ':', ' '])
  have hname : (ascii ['T', 'o', 't', 'a', 'l', ':', ' ']).length = 7 := rfl
  have hname' : (ascii ['U', 's', 'e', 'd', ':', ' ']).length = 6 := rfl
  have hname'' : (ascii ['F', 'r', 'e', 'e', ':', ' ']).length = 6 := rfl
  rw [List.length_append] at hlines
  rw [usageText, List.length_append, List.length_append]
  omega

theorem noNul_usageText {header : List UInt8} (hheader : 0 ∉ header)
    (h : Amounts total used free) : 0 ∉ usageText header total used free := by
  have hname : (0 : UInt8) ∉ header ++ ascii ['T', 'o', 't', 'a', 'l', ':', ' '] := by
    rw [List.mem_append, not_or]
    exact ⟨hheader, by decide⟩
  rw [usageText, List.mem_append, List.mem_append, not_or, not_or]
  exact ⟨noNul_amountLine hname h.total, noNul_amountLine (by decide) h.used,
    noNul_amountLine (by decide) h.free⟩

theorem numbers_usageText {header : List UInt8} (hheader : ∀ b ∈ header, ¬ IsDigit b)
    (h : Amounts total used free) (text : List UInt8) :
    numbers (usageText header total used free ++ text) =
      total :: used :: free :: numbers text := by
  have htotal : ∀ b ∈ ascii ['T', 'o', 't', 'a', 'l', ':', ' '], ¬ IsDigit b :=
    forall_of_all (by decide)
  have hused : ∀ b ∈ ascii ['U', 's', 'e', 'd', ':', ' '], ¬ IsDigit b := forall_of_all (by decide)
  have hfree : ∀ b ∈ ascii ['F', 'r', 'e', 'e', ':', ' '], ¬ IsDigit b := forall_of_all (by decide)
  rw [usageText, List.append_assoc, List.append_assoc,
    numbers_amountLine (List.forall_mem_append.mpr ⟨hheader, htotal⟩) h.total,
    numbers_amountLine hused h.used, numbers_amountLine hfree h.free]

/-- What the formats stand for. -/
theorem renderings_usage {strings : Nat → CString} {args : Nat → Nat} (header : List UInt8) :
    renderings strings args 0 (header.map .plain ++ pieces memoryFormat.bytes) =
      usageText header (args 0) (args 1) (args 2) := by
  have hpieces : pieces memoryFormat.bytes =
      (ascii ['T', 'o', 't', 'a', 'l', ':', ' ']).map .plain ++ .directive (byteOf 'd') ::
        ((ascii [' ', 'K', 'B', '\n', 'U', 's', 'e', 'd', ':', ' ']).map .plain ++
          .directive (byteOf 'd') ::
            ((ascii [' ', 'K', 'B', '\n', 'F', 'r', 'e', 'e', ':', ' ']).map .plain ++
              .directive (byteOf 'd') :: (ascii [' ', 'K', 'B', '\n']).map .plain)) := rfl
  rw [hpieces, renderings_plain, renderings_plain, renderings_decimal, renderings_plain,
    renderings_decimal, renderings_plain, renderings_decimal, renderings_end]
  simp only [usageText, amountLine, List.append_assoc]
  rfl

theorem printBuf_usage (s : Shell) {header : List UInt8} (hbuf : buf + usageBufSize ≤ 2 ^ 32)
    (hformat : pieces format.bytes = header.map .plain ++ pieces memoryFormat.bytes)
    (hlone : Piece.lone ∉ pieces format.bytes) (hlen : header.length < 64) (hheader : 0 ∉ header)
    (h : Amounts total used free) :
    ∃ s', printBuf s buf format [total, used, free] = some s' ∧
      s'.vga = vgaPutsFrom s.vga (usageText header total used free) ∧
      ∀ a, a < buf ∨ buf + usageBufSize ≤ a → s'.strtok.mem a = s.strtok.mem a := by
  have htext : formatted format (fun _ => format)
      (fun k => [total, used, free].getD k 0) = usageText header total used free := by
    rw [formatted, hformat, renderings_usage]
    rfl
  have hlength := length_usageText h header
  exact printBuf_prints hbuf hlone htext (Nat.lt_of_le_of_lt hlength (Nat.add_lt_add_right hlen 64))
    (noNul_usageText hheader h)

/-! ## The command -/

theorem kprint_vga (s : Shell) (str : List UInt8) : (s.kprint str).vga = vgaPutsFrom s.vga str :=
  rfl

/-- What `free` prints for amounts in kB of the memory and of the kernel heap. -/
def freeText (memory heap : Nat × Nat × Nat) : List UInt8 :=
  memoryHeader ++
    (usageText [] memory.1 memory.2.1 memory.2.2 ++
      (usageText kernelHeapHeader heap.1 heap.2.1 heap.2.2 ++ [byteOf '\n']))

/-- The six numbers on the console. -/
theorem numbers_freeText {memory heap : Nat × Nat × Nat}
    (hm : Amounts memory.1 memory.2.1 memory.2.2) (hh : Amounts heap.1 heap.2.1 heap.2.2) :
    numbers (freeText memory heap) =
      [memory.1, memory.2.1, memory.2.2, heap.1, heap.2.1, heap.2.2] := by
  have hfirst : ∀ b ∈ memoryHeader, ¬ IsDigit b := forall_of_all (by decide)
  have hheader : ∀ b ∈ kernelHeapHeader, ¬ IsDigit b := forall_of_all (by decide)
  rw [freeText, numbers_append hfirst,
    numbers_usageText (fun b hb => absurd hb List.not_mem_nil) hm, numbers_usageText hheader hh]
  rfl

theorem shellCmdFree_prints (s : Shell) (hbuf : buf + usageBufSize ≤ 2 ^ 32)
    (frames : Paging.State) (heap : Kheap.Heap)
    (hh : Amounts ((Kheap.getKheapInfo heap).1 / 1024) ((Kheap.getKheapInfo heap).2.1 / 1024)
      ((Kheap.getKheapInfo heap).2.2 / 1024)) :
    ∃ s', shellCmdFree s buf frames heap = some s' ∧
      s'.vga = vgaPutsFrom s.vga (freeText
        (Paging.getTotalMemory frames / 1024, Paging.getUsedMemory frames / 1024,
          Paging.getFreeMemory frames / 1024)
        ((Kheap.getKheapInfo heap).1 / 1024, (Kheap.getKheapInfo heap).2.1 / 1024,
          (Kheap.getKheapInfo heap).2.2 / 1024)) ∧
      ∀ a, a < buf ∨ buf + usageBufSize ≤ a → s'.strtok.mem a = s.strtok.mem a := by
  have hwords : ∀ word, u32 word / 1024 < 2 ^ 31 := fun word =>
    Nat.lt_of_le_of_lt (Nat.div_le_div_right (Nat.le_of_lt (u32_lt word))) (by decide)
  have hm : Amounts (Paging.getTotalMemory frames / 1024) (Paging.getUsedMemory frames / 1024)
      (Paging.getFreeMemory frames / 1024) := ⟨hwords _, hwords _, hwords _⟩
  obtain ⟨s₁, hs₁, hvga₁, hmem₁⟩ := printBuf_usage (s.kprint memoryHeader) hbuf
    (List.nil_append _).symm (by decide) (by decide) List.not_mem_nil hm
  obtain ⟨s₂, hs₂, hvga₂, hmem₂⟩ := @printBuf_usage buf kernelHeapFormat _ _ _ s₁ kernelHeapHeader
    hbuf rfl (by decide) (by decide) (by decide) hh
  refine ⟨s₂.kprint [byteOf '\n'], ?_, ?_, fun a ha => ?_⟩
  · simp only [shellCmdFree, hs₁, hs₂, Option.bind_some, Option.map_some]
  · rw [kprint_vga, hvga₂, hvga₁, kprint_vga, freeText, vgaPutsFrom_append, vgaPutsFrom_append,
      vgaPutsFrom_append]
  · exact (hmem₂ a ha).trans (hmem₁ a ha)

/-- The sizes of the blocks in use, added up. -/
def bytesInUse (bs : List Kheap.HeapBlock) : Nat :=
  ((bs.filter fun b => !b.isFree).map fun b => b.size).sum

/-- **What `free` prints** after any run of the frame allocator and any run of the kernel heap
in which every block has the size looked for: four kB for each frame in use and the rest of
the memory, and the blocks in use and the rest of the heap. The first two always add up to
the total, the last two where the blocks in use are a whole number of kB. -/
theorem free_prints (s : Shell) (hbuf : buf + usageBufSize ≤ 2 ^ 32) (frames₀ : Paging.State)
    (frameOps : List Paging.FrameOp) (m : Mem) (heapOps : List Kheap.HeapOp)
    (hl : Guarded Kheap.clientStep Kheap.Permitted ⟨Kheap.initKheap m, []⟩ heapOps)
    (hs : Guarded Kheap.clientStep Kheap.NoSlack ⟨Kheap.initKheap m, []⟩ heapOps) :
    let frames := Paging.frameRun (Paging.initFrameAllocator frames₀) frameOps
    let heap := (heapOps.foldl Kheap.clientStep ⟨Kheap.initKheap m, []⟩).heap
    let taken := Bitmap.bitCount frames.mem frames.frameBitmap frames.totalFrames
    ∃ s' bs text, shellCmdFree s buf frames heap = some s' ∧ s'.vga = vgaPutsFrom s.vga text ∧
      (∀ a, a < buf ∨ buf + usageBufSize ≤ a → s'.strtok.mem a = s.strtok.mem a) ∧
      Kheap.blockList heap = some bs ∧
      text = freeText (131072, 4 * taken, 131072 - 4 * taken)
        (16384, bytesInUse bs / 1024, (16777216 - bytesInUse bs) / 1024) ∧
      numbers text = [131072, 4 * taken, 131072 - 4 * taken, 16384, bytesInUse bs / 1024,
        (16777216 - bytesInUse bs) / 1024] ∧
      4 * taken ≤ 131072 ∧
      (bytesInUse bs / 1024 + (16777216 - bytesInUse bs) / 1024 = 16384 ↔
        bytesInUse bs % 1024 = 0) := by
  intro frames heap taken
  have hframes : Paging.Accounted frames := (Paging.Accounted.init frames₀).run frameOps
  obtain ⟨htotal, hused, hfree⟩ := hframes.memory
  have htaken : frames.usedFrames = taken := hframes.used
  have hle := hframes.used_le
  rw [hframes.total, htaken] at hle
  obtain ⟨cs, hc⟩ := (Kheap.Counted.init m).run hl hs
  obtain ⟨⟨⟨bs, hbs, hsum⟩, hmost, hrest⟩, -⟩ := hc.exact
  have hsize : heap.totalSize = 16777216 := hc.total
  have husedSize : heap.usedSize = bytesInUse bs := hsum
  have hmost : bytesInUse bs ≤ 16777216 := husedSize ▸ hsize ▸ hmost
  have hinfo : Kheap.getKheapInfo heap = (16777216, bytesInUse bs, 16777216 - bytesInUse bs) := by
    rw [Kheap.getKheapInfo, hsize, husedSize, sub32_of_le (by decide) hmost]
  have hwords : Amounts 16384 (bytesInUse bs / 1024) ((16777216 - bytesInUse bs) / 1024) := by
    refine ⟨by decide, ?_, ?_⟩
    · omega
    · omega
  have hpages : Amounts 131072 (4 * taken) (131072 - 4 * taken) := by
    refine ⟨by decide, ?_, ?_⟩
    · omega
    · omega
  have hkb : Paging.getTotalMemory frames / 1024 = 131072 ∧
      Paging.getUsedMemory frames / 1024 = 4 * taken ∧
      Paging.getFreeMemory frames / 1024 = 131072 - 4 * taken := by
    rw [htotal, hused, hfree, htaken]
    omega
  have hkheap : (Kheap.getKheapInfo heap).1 / 1024 = 16384 ∧
      (Kheap.getKheapInfo heap).2.1 / 1024 = bytesInUse bs / 1024 ∧
      (Kheap.getKheapInfo heap).2.2 / 1024 = (16777216 - bytesInUse bs) / 1024 := by
    have hsize : 16777216 / 1024 = 16384 := by decide
    rw [hinfo]
    exact ⟨hsize, rfl, rfl⟩
  have hprints := @shellCmdFree_prints buf s hbuf frames heap
  rw [hkb.1, hkb.2.1, hkb.2.2, hkheap.1, hkheap.2.1, hkheap.2.2] at hprints
  obtain ⟨s', hs', hvga, hmem⟩ := hprints hwords
  refine ⟨s', bs, _, hs', hvga, hmem, hbs, rfl, numbers_freeText hpages hwords, by omega, ?_⟩
  omega

/-- A frame is taken and a block of 40 bytes. -/
theorem free_prints_once :
    ∃ s' bs text, shellCmdFree freshShell 0x1000
        (Paging.frameRun (Paging.initFrameAllocator ⟨fun _ => 0, 0, 0, 0, 0⟩) [.alloc])
        ([Kheap.HeapOp.kmalloc 40].foldl Kheap.clientStep ⟨Kheap.initKheap fun _ => 0, []⟩).heap =
          some s' ∧
      s'.vga = vgaPutsFrom freshShell.vga text ∧
      Kheap.blockList ([Kheap.HeapOp.kmalloc 40].foldl Kheap.clientStep
        ⟨Kheap.initKheap fun _ => 0, []⟩).heap = some bs ∧
      (bytesInUse bs / 1024 + (16777216 - bytesInUse bs) / 1024 = 16384 ↔
        bytesInUse bs % 1024 = 0) := by
  have hslack : Kheap.NoSlack ⟨Kheap.initKheap fun _ => 0, []⟩ (.kmalloc 40) :=
    (@Kheap.noSlack_take_iff [] [] ⟨Kheap.kheapStart, Kheap.kheapSize, true⟩ 40 _
      (Kheap.represents_init _) rfl (by decide) (by decide) (by simp)).mpr (.inr (by decide))
  obtain ⟨s', bs, text, hs', hvga, -, hbs, -, -, -, hiff⟩ := @free_prints 0x1000 freshShell
    (by decide) ⟨fun _ => 0, 0, 0, 0, 0⟩ [.alloc] (fun _ => 0) [.kmalloc 40]
    ⟨Nat.le_of_ble_eq_true rfl, trivial⟩ ⟨hslack, trivial⟩
  exact ⟨s', bs, text, hs', hvga, hbs, hiff⟩

end SynapseKernel.Console
