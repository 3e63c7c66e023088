import SynapseKernel.Console.Keyboard
import SynapseKernel.Console.Vga
import SynapseKernel.Lib.LineEdit
import SynapseKernel.Str.Strtok

/-! # Typing a command line (lib/keyboard.c, lib/shell.c)

`shell_run` reads one key after the other until Enter and keeps in `shell_buffer` the line that
is being typed. Whatever is typed, the buffer is written inside its bounds and holds the edited
line; the console shows that line if and only if no character was erased, since `vga_putc` has
no backspace and prints one as a character (`readLine_edits`). -/
namespace SynapseKernel.Console
open SynapseKernel.Word SynapseKernel.ByteMemory SynapseKernel.LineEdit SynapseKernel.Str

abbrev SHELL_BUFFER_SIZE : Nat := 256

def backspace : UInt8 := 8

/-- `key_event_t`. -/
structure KeyEvent where
  scancode : UInt8
  ascii : UInt8
  pressed : Bool

/-- `keyboard_read` with the scancode that it waits for: the event it stores, of which it
returns `pressed`. -/
def keyboardRead (keys : Modifiers) (scancode : UInt8) : Modifiers × KeyEvent :=
  let (keys, ascii) := scancodeToAscii keys scancode
  (keys, ⟨scancode, ascii, !decide (IsBreak scancode)⟩)

/-- `pos` is `shell_buffer_pos`, `shell_buffer` is in the memory. -/
structure Shell where
  strtok : StrtokState
  pos : Nat
  keys : Modifiers
  vga : Vga

/-- `shell_buffer[i] = b;`. -/
def Shell.store (s : Shell) (shellBuffer i : Nat) (b : UInt8) : Shell :=
  { s with strtok :=
    { s.strtok with mem := Function.update s.strtok.mem (u32 (shellBuffer + i)) b } }

def Shell.putc (s : Shell) (c : UInt8) : Shell := { s with vga := vgaPutc s.vga c }

/-- `kprint`. -/
def Shell.kprint (s : Shell) (str : List UInt8) : Shell := { s with vga := vgaPutsFrom s.vga str }

/-- What the inner loop of `shell_run` does with a key that is pressed, Enter apart. -/
def shellType (shellBuffer : Nat) (s : Shell) (ascii : UInt8) : Shell :=
  if ascii = backspace then
    if 0 < s.pos then
      (({ s with pos := s.pos - 1 }).store shellBuffer (s.pos - 1) 0).putc backspace
    else s
  else if 32 ≤ ascii ∧ ascii ≤ 126 then
    if s.pos < SHELL_BUFFER_SIZE - 1 then
      ((({ s.store shellBuffer s.pos ascii with pos := s.pos + 1 }).store shellBuffer
        (s.pos + 1) 0)).putc ascii
    else s
  else s

/-- The inner loop of `shell_run`, with the scancodes that come in: what it leaves at Enter and
the scancodes behind that; `none` while it waits for more. -/
def readLineFrom (shellBuffer : Nat) : Shell → List UInt8 → Option (Shell × List UInt8)
  | _, [] => none
  | s, scancode :: codes =>
    let (keys, event) := keyboardRead s.keys scancode
    let s := { s with keys := keys }
    if event.pressed then
      if event.ascii = byteOf '\n' then some (s.kprint [byteOf '\n'], codes)
      else readLineFrom shellBuffer (shellType shellBuffer s event.ascii) codes
    else readLineFrom shellBuffer s codes

def readLine (shellBuffer : Nat) (s : Shell) (codes : List UInt8) : Option (Shell × List UInt8) :=
  readLineFrom shellBuffer (({ s with pos := 0 }).store shellBuffer 0 0) codes

/-! ## What is typed -/

/-- The modifier flags behind some scancodes. -/
def keysAfter (keys : Modifiers) (codes : List UInt8) : Modifiers :=
  codes.foldl (fun keys scancode => (scancodeToAscii keys scancode).1) keys

/-- The characters that scancodes give; 0 where there is none. -/
def charsOf : Modifiers → List UInt8 → List UInt8
  | _, [] => []
  | keys, scancode :: codes =>
    (scancodeToAscii keys scancode).2 :: charsOf (scancodeToAscii keys scancode).1 codes

/-- What a character means in a line. -/
def editOf (c : UInt8) : Option (Edit UInt8) :=
  if c = backspace then some .erase
  else if 32 ≤ c ∧ c ≤ 126 then some (.insert c)
  else none

/-- The edits that are typed. -/
def typedEdits (keys : Modifiers) (codes : List UInt8) : List (Edit UInt8) :=
  (charsOf keys codes).filterMap editOf

/-- The line that is typed. -/
def typedLine (keys : Modifiers) (codes : List UInt8) : List UInt8 :=
  edited (SHELL_BUFFER_SIZE - 1) [] (typedEdits keys codes)

/-- What is printed while it is typed. -/
def typedEcho (keys : Modifiers) (codes : List UInt8) : List UInt8 :=
  echoed (SHELL_BUFFER_SIZE - 1) backspace [] (typedEdits keys codes)

/-- The shell has read a line. Everything outside its buffer is as before. -/
structure ReadLine (shellBuffer : Nat) (s s' : Shell) (line echo : List UInt8) : Prop where
  holds : Holds s'.strtok.mem shellBuffer line
  pos : s'.pos = line.length
  length_lt : line.length < SHELL_BUFFER_SIZE
  printable : ∀ c ∈ line, 32 ≤ c ∧ c ≤ 126
  frame : ∀ a, a < shellBuffer ∨ shellBuffer + SHELL_BUFFER_SIZE ≤ a →
    s'.strtok.mem a = s.strtok.mem a
  saveptr : s'.strtok.saveptr = s.strtok.saveptr
  vga : s'.vga = vgaPutsFrom s.vga echo

variable {shellBuffer : Nat} {s s' start : Shell} {line echo codes : List UInt8} {c b : UInt8}
  {keys : Modifiers} {m : Mem} {p : Nat}

/-- A key that is released gives no character. -/
theorem scancodeToAscii_break (keys : Modifiers) {scancode : UInt8} (h : IsBreak scancode) :
    (scancodeToAscii keys scancode).2 = 0 := by
  rw [scancodeToAscii, if_pos h]
  simp only
  split
  · rfl
  · split
    · rfl
    · rfl

theorem vgaPutsFrom_append (v : Vga) (str str' : List UInt8) :
    vgaPutsFrom v (str ++ str') = vgaPutsFrom (vgaPutsFrom v str) str' := by
  induction str generalizing v with
  | nil => rfl
  | cons c str ih => exact ih (vgaPutc v c)

/-- A string goes on by one byte where the NUL was. -/
theorem holds_snoc (h : Holds m p line) (hend : p + line.length + 1 < 2 ^ 32) (c : UInt8) :
    Holds (Function.update (Function.update m (u32 (p + line.length)) c)
      (u32 (p + (line.length + 1))) 0) p (line ++ [c]) := by
  induction line generalizing p with
  | nil =>
    have hne : u32 p ≠ u32 (p + (0 + 1)) := by
      unfold u32
      rw [List.length_nil] at hend
      omega
    refine ⟨?_, Function.update_self ..⟩
    rw [char, List.length_nil, Nat.add_zero, Function.update_of_ne hne, Function.update_self]
  | cons b line ih =>
    rw [List.length_cons] at hend ⊢
    have hmem := ih h.2 (by omega)
    rw [show p + 1 + line.length = p + (line.length + 1) by omega,
      show p + 1 + (line.length + 1) = p + (line.length + 1 + 1) by omega] at hmem
    refine ⟨?_, hmem⟩
    have hne : u32 p ≠ u32 (p + (line.length + 1)) := by
      unfold u32
      omega
    have hne' : u32 p ≠ u32 (p + (line.length + 1 + 1)) := by
      unfold u32
      omega
    rw [char, Function.update_of_ne hne', Function.update_of_ne hne]
    exact h.1

/-- A line has characters from space to tilde only. -/
theorem typedLine_printable (keys : Modifiers) (codes : List UInt8) :
    ∀ c ∈ typedLine keys codes, 32 ≤ c ∧ c ≤ 126 := by
  refine forall_mem_edited (fun c hc => absurd hc List.not_mem_nil) fun c hc => ?_
  obtain ⟨b, -, hb⟩ := List.mem_filterMap.mp hc
  rw [editOf] at hb
  split at hb
  · exact absurd (Option.some.inj hb) (by simp)
  · split at hb
    case isTrue hprint =>
      obtain rfl := Edit.insert.inj (Option.some.inj hb)
      exact hprint
    case isFalse => exact absurd hb (by simp)

theorem length_typedLine_lt (keys : Modifiers) (codes : List UInt8) :
    (typedLine keys codes).length < SHELL_BUFFER_SIZE :=
  Nat.lt_succ_of_le (length_edited_le (Nat.zero_le _) _)

/-! ## One key -/

theorem ReadLine.withKeys (h : ReadLine shellBuffer start s line echo) (keys : Modifiers) :
    ReadLine shellBuffer start { s with keys := keys } line echo := { h with }

theorem ReadLine.kprint (h : ReadLine shellBuffer start s line echo) (str : List UInt8) :
    ReadLine shellBuffer start (s.kprint str) line (echo ++ str) := by
  refine { h with vga := ?_ }
  rw [vgaPutsFrom_append, ← h.vga]
  rfl

/-- A byte that is stored in the buffer. -/
theorem store_frame {i a : Nat} (hbuf : shellBuffer + SHELL_BUFFER_SIZE ≤ 2 ^ 32)
    (hi : i < SHELL_BUFFER_SIZE) (ha : a < shellBuffer ∨ shellBuffer + SHELL_BUFFER_SIZE ≤ a) :
    Function.update m (u32 (shellBuffer + i)) b a = m a := by
  rw [u32_of_lt (by omega)]
  exact Function.update_of_ne (by omega) ..

theorem ReadLine.insert (h : ReadLine shellBuffer start s line echo)
    (hbuf : shellBuffer + SHELL_BUFFER_SIZE ≤ 2 ^ 32) (hc : 32 ≤ c ∧ c ≤ 126)
    (hroom : line.length < SHELL_BUFFER_SIZE - 1) :
    ReadLine shellBuffer start
      ((({ s.store shellBuffer s.pos c with pos := s.pos + 1 }).store shellBuffer
        (s.pos + 1) 0).putc c) (line ++ [c]) (echo ++ [c]) := by
  have hlen : (line ++ [c]).length = line.length + 1 := List.length_append
  rw [h.pos]
  refine ⟨holds_snoc h.holds (by omega) c, hlen.symm, by omega, fun b hb => ?_, fun a ha => ?_,
    h.saveptr, ?_⟩
  · rcases List.mem_append.mp hb with hb | hb
    · exact h.printable b hb
    · exact List.mem_singleton.mp hb ▸ hc
  · refine (store_frame hbuf (by omega) ha).trans ?_
    exact (store_frame hbuf (by omega) ha).trans (h.frame a ha)
  · rw [vgaPutsFrom_append, ← h.vga]
    rfl

theorem ReadLine.erase (h : ReadLine shellBuffer start s line echo)
    (hbuf : shellBuffer + SHELL_BUFFER_SIZE ≤ 2 ^ 32) (hline : line ≠ []) :
    ReadLine shellBuffer start
      ((({ s with pos := s.pos - 1 }).store shellBuffer (s.pos - 1) 0).putc backspace)
      line.dropLast (echo ++ [backspace]) := by
  have hlt := h.length_lt
  have hlen : line.dropLast.length = line.length - 1 := List.length_dropLast
  have hsplit : line = line.dropLast ++ line.getLast hline :: [] :=
    (List.dropLast_append_getLast hline).symm
  have hcut := Holds.cut (hsplit ▸ h.holds) (show shellBuffer + line.dropLast.length < 2 ^ 32 by
    omega)
  rw [hlen] at hcut
  rw [h.pos]
  refine ⟨hcut, hlen.symm, by omega, fun b hb => ?_, fun a ha => ?_, h.saveptr, ?_⟩
  · exact h.printable b ((List.dropLast_sublist line).subset hb)
  · exact (store_frame hbuf (by omega) ha).trans (h.frame a ha)
  · rw [vgaPutsFrom_append, ← h.vga]
    rfl

/-- A key does to the buffer and the console what its edit does to the line and the echo. -/
theorem ReadLine.type (h : ReadLine shellBuffer start s line echo)
    (hbuf : shellBuffer + SHELL_BUFFER_SIZE ≤ 2 ^ 32) (c : UInt8) :
    ReadLine shellBuffer start (shellType shellBuffer s c)
      (edited (SHELL_BUFFER_SIZE - 1) line (editOf c).toList)
      (echo ++ echoed (SHELL_BUFFER_SIZE - 1) backspace line (editOf c).toList) := by
  rw [shellType, editOf, h.pos]
  by_cases hback : c = backspace
  · rw [if_pos hback, if_pos hback, Option.toList_some, edited_cons, edited_nil, echoed, echoed,
      List.append_nil, Edit.apply, Edit.echo]
    by_cases hline : line = []
    · subst hline
      rw [List.length_nil, if_neg (Nat.lt_irrefl 0), if_pos rfl, List.append_nil]
      exact h
    · rw [if_pos (List.length_pos_iff.mpr hline), if_neg hline, ← h.pos]
      exact h.erase hbuf hline
  rw [if_neg hback, if_neg hback]
  by_cases hc : 32 ≤ c ∧ c ≤ 126
  · rw [if_pos hc, if_pos hc, Option.toList_some, edited_cons, edited_nil, echoed, echoed,
      List.append_nil, Edit.apply, Edit.echo]
    by_cases hroom : line.length < SHELL_BUFFER_SIZE - 1
    · rw [if_pos hroom, if_pos hroom, if_pos hroom, ← h.pos]
      exact h.insert hbuf hc hroom
    · rw [if_neg hroom, if_neg hroom, if_neg hroom, List.append_nil]
      exact h
  · rw [if_neg hc, if_neg hc, Option.toList_none, edited_nil, echoed, List.append_nil]
    exact h

/-! ## A line -/

/-- Before the first key. -/
theorem ReadLine.reset (hbuf : shellBuffer + SHELL_BUFFER_SIZE ≤ 2 ^ 32) (s : Shell) :
    ReadLine shellBuffer s (({ s with pos := 0 }).store shellBuffer 0 0) [] [] := by
  refine ⟨?_, rfl, by decide, fun c hc => absurd hc List.not_mem_nil, fun a ha => ?_, rfl, rfl⟩
  · exact Function.update_self ..
  · exact store_frame hbuf (by decide) ha

theorem shellType_keys (shellBuffer : Nat) (s : Shell) (c : UInt8) :
    (shellType shellBuffer s c).keys = s.keys := by
  unfold shellType
  split
  · split
    · rfl
    · rfl
  · split
    · split
      · rfl
      · rfl
    · rfl

/-- No character is none of a line. -/
theorem shellType_zero (shellBuffer : Nat) (s : Shell) : shellType shellBuffer s 0 = s := by
  rw [shellType, if_neg (by decide), if_neg (by decide)]

/-- A key other than Enter. -/
theorem readLineFrom_key {scancode : UInt8}
    (h : (scancodeToAscii s.keys scancode).2 ≠ byteOf '\n') :
    readLineFrom shellBuffer s (scancode :: codes) =
      readLineFrom shellBuffer (shellType shellBuffer
        { s with keys := (scancodeToAscii s.keys scancode).1 }
        (scancodeToAscii s.keys scancode).2) codes := by
  rw [readLineFrom, keyboardRead]
  by_cases hbreak : IsBreak scancode
  · simp only [hbreak, decide_true, Bool.not_true, Bool.false_eq_true, if_false]
    rw [scancodeToAscii_break _ hbreak, shellType_zero]
  · simp only [hbreak, decide_false, Bool.not_false, if_true, if_neg h]

/-- Enter. -/
theorem readLineFrom_enter {scancode : UInt8}
    (h : (scancodeToAscii s.keys scancode).2 = byteOf '\n') :
    readLineFrom shellBuffer s (scancode :: codes) =
      some (({ s with keys := (scancodeToAscii s.keys scancode).1 }).kprint [byteOf '\n'],
        codes) := by
  have hmake : ¬ IsBreak scancode := fun hbreak => by
    rw [scancodeToAscii_break _ hbreak] at h
    exact absurd h (by decide)
  rw [readLineFrom, keyboardRead]
  simp only [hmake, decide_false, Bool.not_false, if_true, if_pos h]

theorem typedEdits_cons (keys : Modifiers) (scancode : UInt8) (codes : List UInt8) :
    typedEdits keys (scancode :: codes) = (editOf (scancodeToAscii keys scancode).2).toList ++
      typedEdits (scancodeToAscii keys scancode).1 codes := by
  rw [typedEdits, charsOf, List.filterMap_cons, typedEdits]
  cases editOf (scancodeToAscii keys scancode).2 with
  | none => rfl
  | some e => rfl

/-- Any number of keys before Enter. -/
theorem ReadLine.before (h : ReadLine shellBuffer start s line echo)
    (hbuf : shellBuffer + SHELL_BUFFER_SIZE ≤ 2 ^ 32) {before : List UInt8}
    (hbefore : byteOf '\n' ∉ charsOf s.keys before) (codes : List UInt8) :
    ∃ s', readLineFrom shellBuffer s (before ++ codes) = readLineFrom shellBuffer s' codes ∧
      s'.keys = keysAfter s.keys before ∧
      ReadLine shellBuffer start s'
        (edited (SHELL_BUFFER_SIZE - 1) line (typedEdits s.keys before))
        (echo ++ echoed (SHELL_BUFFER_SIZE - 1) backspace line (typedEdits s.keys before)) := by
  induction before generalizing s line echo with
  | nil =>
    refine ⟨s, rfl, rfl, ?_⟩
    rw [typedEdits, charsOf, List.filterMap_nil, edited_nil, echoed, List.append_nil]
    exact h
  | cons scancode before ih =>
    obtain ⟨hfirst, hrest⟩ := not_or.mp (mt List.mem_cons.mpr hbefore)
    have htyped := (h.withKeys (scancodeToAscii s.keys scancode).1).type hbuf
      (scancodeToAscii s.keys scancode).2
    have hkeys := shellType_keys shellBuffer
      { s with keys := (scancodeToAscii s.keys scancode).1 } (scancodeToAscii s.keys scancode).2
    obtain ⟨s', hrun, hkeys', hread⟩ := ih htyped (hkeys ▸ hrest)
    rw [hkeys] at hkeys' hread
    refine ⟨s', ?_, hkeys', ?_⟩
    · rw [List.cons_append, readLineFrom_key (Ne.symm hfirst), hrun]
    · rw [typedEdits_cons, edited_append, echoed_append, ← List.append_assoc]
      exact hread

/-- The line of the edits that are typed before Enter. -/
theorem readLine_typed (hbuf : shellBuffer + SHELL_BUFFER_SIZE ≤ 2 ^ 32) {before : List UInt8}
    {scancode : UInt8} (hbefore : byteOf '\n' ∉ charsOf s.keys before)
    (henter : (scancodeToAscii (keysAfter s.keys before) scancode).2 = byteOf '\n')
    (codes : List UInt8) :
    ∃ s', readLine shellBuffer s (before ++ scancode :: codes) = some (s', codes) ∧
      ReadLine shellBuffer s s' (typedLine s.keys before)
        (typedEcho s.keys before ++ [byteOf '\n']) := by
  obtain ⟨s', hrun, hkeys, hread⟩ := (ReadLine.reset hbuf s).before hbuf hbefore (scancode :: codes)
  refine ⟨_, ?_, (hread.withKeys (scancodeToAscii s'.keys scancode).1).kprint [byteOf '\n']⟩
  rw [readLine, hrun, readLineFrom_enter (hkeys ▸ henter)]

/-- The shell waits as long as Enter is not typed. -/
theorem readLine_waits (hbuf : shellBuffer + SHELL_BUFFER_SIZE ≤ 2 ^ 32)
    (hcodes : byteOf '\n' ∉ charsOf s.keys codes) : readLine shellBuffer s codes = none := by
  obtain ⟨s', hrun, -, -⟩ := (ReadLine.reset hbuf s).before hbuf hcodes []
  rw [List.append_nil] at hrun
  rw [readLine, hrun]
  rfl

/-- **A line is typed.** Whatever comes in, the shell waits for Enter and has then read the
line of the edits into its buffer, cut off at its end, and written nowhere else. The console
has printed what was typed, which is the line if and only if nothing of it was erased. -/
theorem readLine_edits (hbuf : shellBuffer + SHELL_BUFFER_SIZE ≤ 2 ^ 32) {before : List UInt8}
    (hbefore : byteOf '\n' ∉ charsOf s.keys before) :
    readLine shellBuffer s before = none ∧
    ∀ scancode, (scancodeToAscii (keysAfter s.keys before) scancode).2 = byteOf '\n' →
      ∀ codes, ∃ s', readLine shellBuffer s (before ++ scancode :: codes) = some (s', codes) ∧
        ReadLine shellBuffer s s' (typedLine s.keys before)
          (typedEcho s.keys before ++ [byteOf '\n']) ∧
        (typedEcho s.keys before = typedLine s.keys before ↔
          erasures (SHELL_BUFFER_SIZE - 1) [] (typedEdits s.keys before) = 0) := by
  refine ⟨readLine_waits hbuf hbefore, fun scancode henter codes => ?_⟩
  obtain ⟨s', hrun, hread⟩ := readLine_typed hbuf hbefore henter codes
  refine ⟨s', hrun, hread, ?_⟩
  exact append_echoed_eq_iff (SHELL_BUFFER_SIZE - 1) backspace [] (typedEdits s.keys before)

/-- Nothing typed yet, and an empty console. -/
def freshShell : Shell :=
  ⟨⟨fun _ => 0, NULL⟩, 0, ⟨false, false⟩, ⟨fun _ => 0, 0, 0, VGA_COLOR_LIGHT_GREY, []⟩⟩

/-- `a`, `b` and a backspace, with the releases of the keys. -/
theorem readLine_edits_letters :
    ∃ s', readLine 0x1000 freshShell ([0x1E, 0x9E, 0x30, 0xB0, 0x0E, 0x8E] ++ 0x1C :: [0x9C]) =
        some (s', [0x9C]) ∧
      ReadLine 0x1000 freshShell s' (ascii ['a'])
        (ascii ['a', 'b'] ++ [backspace] ++ [byteOf '\n']) := by
  obtain ⟨s', hrun, hread, -⟩ := (@readLine_edits 0x1000 freshShell (by decide)
    [0x1E, 0x9E, 0x30, 0xB0, 0x0E, 0x8E] (by decide)).2 0x1C (by decide) [0x9C]
  exact ⟨s', hrun, hread⟩

end SynapseKernel.Console
