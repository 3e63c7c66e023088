import SynapseKernel.Console.FreeCommand

/-! # Numbers on the console (lib/vga.c)

`kprint_dec` and `kprint_hex` write the digits of a word into a buffer from its end on and
print them. What they print is read back as the word (`kprintDec_prints`,
`kprintHex_prints`), and is what `%d` and `%x` print for words that are not negative as an
`int` and that have no letters. -/
namespace SynapseKernel.Console
open SynapseKernel.Word SynapseKernel.ByteMemory SynapseKernel.Blocks SynapseKernel.Numeral
open SynapseKernel.Str

/-- `sizeof(buffer)` in both functions. -/
abbrev digitBufSize : Nat := 11

/-- `"0123456789ABCDEF"`. -/
def hexChars : List UInt8 :=
  ascii ['0', '1', '2', '3', '4', '5', '6', '7', '8', '9', 'A', 'B', 'C', 'D', 'E', 'F']

/-- The loop of `kprint_hex` with `n` rounds left, where `i` is `n + 1`. -/
def hexFrom (buffer : Nat) : Nat → Nat → Shell → Shell
  | 0, _, s => s
  | n + 1, value, s =>
    hexFrom buffer n (value >>> 4) (s.store buffer (n + 2) (hexChars.getD (value &&& 0xF) 0))

def kprintHex (s : Shell) (buffer value : Nat) : Option Shell :=
  let s := s.store buffer 0 (byteOf '0')
  let s := s.store buffer 1 (byteOf 'x')
  let s := s.store buffer 10 0
  kprintAt (hexFrom buffer 8 value s) buffer

/-- `while (value > 0 && i > 0)` of `kprint_dec`, with `i` and the state it is left with. -/
def decFrom (buffer : Nat) : Nat → Nat → Shell → Nat × Shell
  | 0, _, s => (0, s)
  | i + 1, value, s =>
    if 0 < value then
      decFrom buffer i (value / 10) (s.store buffer i (UInt8.ofNat (48 + value % 10)))
    else (i + 1, s)

def kprintDec (s : Shell) (buffer value : Nat) : Option Shell :=
  if value = 0 then some (s.kprint [byteOf '0'])
  else
    let (i, s) := decFrom buffer 10 value (s.store buffer 10 0)
    kprintAt s (buffer + i)

/-! ## Writing from the end on -/

variable {s : Shell} {buffer value n i : Nat} {text : List UInt8}

/-- Bytes are stored from a position of the buffer on. -/
def Shell.write (s : Shell) (buffer i : Nat) (text : List UInt8) : Shell :=
  { s with strtok := { s.strtok with mem := overwrite s.strtok.mem (buffer + i) text } }

theorem Shell.write_nil (s : Shell) (buffer i : Nat) : s.write buffer i [] = s := by
  rw [Shell.write, overwrite_nil]

theorem Shell.write_store (s : Shell) (hend : buffer + (i + text.length) < 2 ^ 32) (b : UInt8) :
    (s.store buffer (i + text.length) b).write buffer i text = s.write buffer i (text ++ [b]) := by
  have hupdate := overwrite_update s.strtok.mem (buffer + i) text b
  simp only [Shell.store, Shell.write, u32_of_lt hend, ← hupdate, Nat.add_assoc]

theorem Shell.store_write (s : Shell) (hend : buffer + (i + text.length) < 2 ^ 32) (b : UInt8) :
    (s.write buffer i text).store buffer (i + text.length) b = s.write buffer i (text ++ [b]) := by
  have happend := overwrite_append s.strtok.mem (buffer + i) text [b]
  rw [overwrite_singleton] at happend
  simp only [Shell.store, Shell.write, u32_of_lt hend, ← happend, Nat.add_assoc]

theorem Shell.write_write (s : Shell) (buffer i : Nat) (text rest : List UInt8) :
    (s.write buffer i text).write buffer (i + text.length) rest =
      s.write buffer i (text ++ rest) := by
  simp only [Shell.write, ← overwrite_append, Nat.add_assoc]

/-- What stands in the buffer with a NUL behind it is printed. -/
theorem Shell.kprintAt_write (s : Shell) (hend : buffer + i + text.length < 2 ^ 32)
    (h0 : 0 ∉ text) :
    kprintAt (s.write buffer i (text ++ [0])) (buffer + i) =
      some ((s.write buffer i (text ++ [0])).kprint text) := by
  have hholds := holds_overwrite s.strtok.mem hend
  have hfuel : text.length < loopFuel := Nat.lt_of_le_of_lt (Nat.le_add_left _ _) hend
  rw [← foldl_putc]
  exact eachChar_eq Shell.putc _ hholds h0 hfuel

/-- The digits of a word in upper case. -/
def hexNumeral (value : Nat) : List UInt8 :=
  (fixedDigits 16 8 value).map fun d => hexChars.getD d 0

theorem hexFrom_eq (s : Shell) (hend : buffer + (2 + n) < 2 ^ 32) (value : Nat) :
    hexFrom buffer n value s =
      s.write buffer 2 ((fixedDigits 16 n value).map fun d => hexChars.getD d 0) := by
  induction n generalizing value s with
  | zero => exact (s.write_nil buffer 2).symm
  | succ n ih =>
    have hlen : ((fixedDigits 16 n (value / 16)).map fun d => hexChars.getD d 0).length = n := by
      rw [List.length_map, length_fixedDigits]
    have hlow : value &&& 0xF = value % 16 := Nat.and_two_pow_sub_one_eq_mod value 4
    have hroom : buffer + (2 + n) < 2 ^ 32 := by omega
    have hstore := @Shell.write_store buffer 2 _ s (hlen.symm ▸ hroom)
      (hexChars.getD (value % 16) 0)
    rw [hlen, Nat.add_comm 2 n] at hstore
    rw [hexFrom, ih _ (by omega), Nat.shiftRight_eq_div_pow, hlow, fixedDigits, List.map_append]
    exact hstore

/-- The digits of a number other than `0`, and none of `0`. -/
def decDigits (value : Nat) : List UInt8 := if value = 0 then [] else numeralOf value

theorem decDigits_succ (h : 0 < value) :
    decDigits value = decDigits (value / 10) ++ [digitByte (value % 10)] := by
  rw [decDigits, decDigits, if_neg (Nat.ne_of_gt h)]
  by_cases hlt : value < 10
  · rw [numeralOf_of_lt hlt, Nat.mod_eq_of_lt hlt, if_pos (Nat.div_eq_of_lt hlt), List.nil_append]
  · have hdiv : value / 10 ≠ 0 := by omega
    rw [numeralOf_of_ge (Nat.le_of_not_lt hlt), if_neg hdiv]

/-- The room of the buffer does not end the loop. -/
theorem decFrom_eq (s : Shell) (hend : buffer + i < 2 ^ 32) (hvalue : value < 10 ^ i) :
    ∃ first, first + (decDigits value).length = i ∧
      decFrom buffer i value s = (first, s.write buffer first (decDigits value)) := by
  induction i generalizing value s with
  | zero =>
    obtain rfl : value = 0 := Nat.lt_one_iff.mp hvalue
    exact ⟨0, rfl, congrArg (0, ·) (s.write_nil buffer 0).symm⟩
  | succ i ih =>
    by_cases hpos : 0 < value
    · rw [Nat.pow_succ] at hvalue
      obtain ⟨first, hfirst, hrest⟩ := ih (s.store buffer i (digitByte (value % 10))) (by omega)
        (by omega : value / 10 < 10 ^ i)
      have hroom : buffer + (first + (decDigits (value / 10)).length) < 2 ^ 32 := by omega
      have hstore := s.write_store hroom (digitByte (value % 10))
      rw [hfirst, ← decDigits_succ hpos] at hstore
      refine ⟨first, ?_, ?_⟩
      · rw [decDigits_succ hpos, List.length_append, List.length_singleton, ← hfirst,
          Nat.add_assoc]
      · rw [decFrom, if_pos hpos, ← hstore]
        exact hrest
    · obtain rfl : value = 0 := Nat.eq_zero_of_not_pos hpos
      refine ⟨i + 1, rfl, ?_⟩
      rw [decFrom, if_neg hpos]
      exact congrArg (i + 1, ·) (s.write_nil buffer (i + 1)).symm

/-! ## What is printed -/

/-- A text in the buffer is printed, and nothing outside of the buffer is written. -/
theorem Shell.kprintAt_buffer (s : Shell) (hbuf : buffer + digitBufSize ≤ 2 ^ 32)
    (hlen : i + text.length < digitBufSize) (h0 : 0 ∉ text) :
    ∃ s', kprintAt (s.write buffer i (text ++ [0])) (buffer + i) = some s' ∧
      s'.vga = vgaPutsFrom s.vga text ∧
      ∀ a, a < buffer ∨ buffer + digitBufSize ≤ a → s'.strtok.mem a = s.strtok.mem a := by
  have hend : buffer + i + text.length < 2 ^ 32 := by omega
  refine ⟨_, s.kprintAt_write hend h0, rfl, fun a ha => ?_⟩
  refine overwrite_outside (Nat.le_add_right buffer i) ?_ ha
  rw [List.length_append, List.length_singleton, Nat.add_assoc]
  exact Nat.add_le_add_left hlen buffer

theorem noNul_numeralOf (value : Nat) : 0 ∉ numeralOf value := by
  intro hmem
  have hdigit := (isDigit_of_mem value 0 hmem).1
  exact absurd hdigit (by decide)

/-- `%d` prints a sign in front of the words that are negative as an `int`. -/
theorem sign_of_large (hvalue : value < 2 ^ 32) (hlarge : 2 ^ 31 ≤ value) :
    byteOf '-' ∈ decimal value := by
  by_cases hleast : value = 2 ^ 31
  · rw [hleast, decimal_least]
    decide
  · have hneg : s32 value < 0 := by
      unfold s32
      split <;> omega
    rw [decimal_of_ne hvalue hleast, intNumeralOf_of_neg hneg]
    exact List.mem_cons_self

theorem numeralOf_eq_decimal_iff (hvalue : value < 2 ^ 32) :
    numeralOf value = decimal value ↔ value < 2 ^ 31 := by
  constructor
  · intro heq
    by_contra hlarge
    have hsign := sign_of_large hvalue (Nat.le_of_not_lt hlarge)
    rw [← heq] at hsign
    have hdigit := (isDigit_of_mem value _ hsign).1
    exact absurd hdigit (by decide)
  · exact fun hsmall => (decimal_of_small hsmall).symm

/-- **`kprint_dec`** prints every word without a sign and without a leading `0`. For the words
that are negative as an `int`, and for no others, it is not what `%d` prints. -/
theorem kprintDec_prints (s : Shell) (hbuf : buffer + digitBufSize ≤ 2 ^ 32)
    (hvalue : value < 2 ^ 32) :
    ∃ s', kprintDec s buffer value = some s' ∧ s'.vga = vgaPutsFrom s.vga (numeralOf value) ∧
      (∀ a, a < buffer ∨ buffer + digitBufSize ≤ a → s'.strtok.mem a = s.strtok.mem a) ∧
      Numeral.value (numeralOf value) = value ∧
      (numeralOf value = decimal value ↔ value < 2 ^ 31) := by
  suffices hprint : ∃ s', kprintDec s buffer value = some s' ∧
      s'.vga = vgaPutsFrom s.vga (numeralOf value) ∧
      ∀ a, a < buffer ∨ buffer + digitBufSize ≤ a → s'.strtok.mem a = s.strtok.mem a by
    obtain ⟨s', hs', hvga, hmem⟩ := hprint
    exact ⟨s', hs', hvga, hmem, value_numeralOf value, numeralOf_eq_decimal_iff hvalue⟩
  by_cases hzero : value = 0
  · subst hzero
    exact ⟨_, if_pos rfl, rfl, fun a ha => rfl⟩
  · -- the digits end at position `10` of the buffer, where the NUL stands
    have hend : buffer + 10 < 2 ^ 32 := hbuf
    obtain ⟨first, hfirst, hloop⟩ := @decFrom_eq buffer value 10 (s.store buffer 10 0) hend
      (Nat.lt_trans hvalue (by decide))
    rw [← hfirst] at hend
    have hstore := s.write_store hend 0
    rw [hfirst] at hstore
    have hdigits : decDigits value = numeralOf value := if_neg hzero
    have hlen : first + (numeralOf value).length < digitBufSize := by
      rw [← hdigits, hfirst]
      decide
    have hprint := s.kprintAt_buffer hbuf hlen (noNul_numeralOf value)
    rw [kprintDec, if_neg hzero, hloop, hstore, hdigits]
    exact hprint

theorem kprintDec_prints_large :
    ∃ s', kprintDec freshShell 0x1000 4294967295 = some s' ∧
      s'.vga = vgaPutsFrom freshShell.vga (numeralOf 4294967295) ∧
      numeralOf 4294967295 ≠ decimal 4294967295 := by
  obtain ⟨s', hs', hvga, -, -, hiff⟩ :=
    @kprintDec_prints 0x1000 4294967295 freshShell (by decide) (by decide)
  exact ⟨s', hs', hvga, fun heq => absurd (hiff.mp heq) (by decide)⟩

/-! ## Hexadecimal digits -/

/-- What a digit in upper case stands for. -/
def hexDigitValue (b : UInt8) : Nat := if b.toNat ≤ 57 then b.toNat - 48 else b.toNat - 55

def hexValue (text : List UInt8) : Nat := text.foldl (fun v b => 16 * v + hexDigitValue b) 0

theorem hexDigitValue_hexChars : ∀ d < 16, hexDigitValue (hexChars.getD d 0) = d := by decide

theorem hexChars_eq_iff : ∀ d < 16, hexChars.getD d 0 = hexDigit d ↔ d < 10 := by decide

theorem length_hexNumeral (value : Nat) : (hexNumeral value).length = 8 := by
  rw [hexNumeral, List.length_map, length_fixedDigits]

theorem noNul_hexNumeral (value : Nat) : 0 ∉ hexNumeral value := by
  intro hmem
  obtain ⟨d, hd, hzero⟩ := List.mem_map.mp hmem
  have hdigit : ∀ d < 16, hexChars.getD d 0 ≠ 0 := by decide
  exact hdigit d (lt_of_mem_fixedDigits (by decide) d hd) hzero

theorem hexValue_hexNumeral (hvalue : value < 2 ^ 32) : hexValue (hexNumeral value) = value := by
  have hdigits : ∀ d ∈ fixedDigits 16 8 value, hexDigitValue (hexChars.getD d 0) = d :=
    fun d hd => hexDigitValue_hexChars d (lt_of_mem_fixedDigits (by decide) d hd)
  have hfold : hexValue (hexNumeral value) =
      (fixedDigits 16 8 value).foldl (fun v d => 16 * v + d) 0 := by
    rw [hexValue, hexNumeral, List.foldl_map]
    exact List.foldl_ext _ _ 0 fun v d hd => congrArg (16 * v + ·) (hdigits d hd)
  rw [hfold, foldl_fixedDigits]
  exact Nat.mod_eq_of_lt hvalue

/-- `%x` prints the same digits in lower case. -/
theorem hexText_eq (value : Nat) :
    hexText value = byteOf '0' :: byteOf 'x' :: (fixedDigits 16 8 value).map hexDigit := by
  have hlow : ∀ n : Nat, n &&& 15 = n % 16 := fun n => Nat.and_two_pow_sub_one_eq_mod n 4
  simp only [hexText, fixedDigits, hlow, Nat.shiftRight_eq_div_pow, List.map_cons, List.map_nil,
    List.nil_append, List.cons_append, Nat.div_div_eq_div_mul, Nat.reducePow, Nat.reduceMul,
    Nat.div_one]

/-- The text of `kprint_hex`. -/
def hexPrinted (value : Nat) : List UInt8 := byteOf '0' :: byteOf 'x' :: hexNumeral value

theorem length_hexPrinted (value : Nat) : (hexPrinted value).length = 10 := by
  rw [hexPrinted, List.length_cons, List.length_cons, length_hexNumeral]

theorem noNul_hexPrinted (value : Nat) : 0 ∉ hexPrinted value := by
  rw [hexPrinted, List.mem_cons, List.mem_cons, not_or, not_or]
  exact ⟨by decide, by decide, noNul_hexNumeral value⟩

/-- The two characters in front and the NUL are stored before the digits. -/
theorem hexFrom_printed (s : Shell) (hend : buffer + 10 < 2 ^ 32) (value : Nat) :
    hexFrom buffer 8 value
        (((s.store buffer 0 (byteOf '0')).store buffer 1 (byteOf 'x')).store buffer 10 0) =
      s.write buffer 0 (hexPrinted value ++ [0]) := by
  have hfirst : s.store buffer 0 (byteOf '0') = s.write buffer 0 [byteOf '0'] := by
    have hroom : buffer + 0 < 2 ^ 32 := Nat.lt_of_le_of_lt (Nat.le_add_right buffer 10) hend
    have hstore := @Shell.store_write buffer 0 [] s hroom
    rw [s.write_nil] at hstore
    exact hstore _
  have hsecond : (s.write buffer 0 [byteOf '0']).store buffer 1 (byteOf 'x') =
      s.write buffer 0 [byteOf '0', byteOf 'x'] :=
    s.store_write (Nat.lt_of_le_of_lt (Nat.add_le_add_left (by decide) buffer) hend) _
  have hroom : buffer + (2 + (hexNumeral value).length) < 2 ^ 32 := by
    rw [length_hexNumeral]
    exact hend
  have hdigits := (s.write buffer 0 [byteOf '0', byteOf 'x']).write_store hroom 0
  rw [length_hexNumeral] at hdigits
  rw [hfirst, hsecond, hexFrom_eq _ hend]
  exact hdigits.trans (s.write_write buffer 0 [byteOf '0', byteOf 'x'] _)

theorem hexPrinted_eq_hexText_iff (value : Nat) :
    hexPrinted value = hexText value ↔ ∀ d ∈ fixedDigits 16 8 value, d < 10 := by
  rw [hexText_eq, hexPrinted, hexNumeral, List.cons_inj_right, List.cons_inj_right,
    List.map_inj_left]
  exact forall₂_congr fun d hd => hexChars_eq_iff d (lt_of_mem_fixedDigits (by decide) d hd)

/-- **`kprint_hex`** prints every word as `0x` and eight digits that are read back as the word.
It is what `%x` prints for the words without letters, and for no others. -/
theorem kprintHex_prints (s : Shell) (hbuf : buffer + digitBufSize ≤ 2 ^ 32)
    (hvalue : value < 2 ^ 32) :
    ∃ s', kprintHex s buffer value = some s' ∧ s'.vga = vgaPutsFrom s.vga (hexPrinted value) ∧
      (∀ a, a < buffer ∨ buffer + digitBufSize ≤ a → s'.strtok.mem a = s.strtok.mem a) ∧
      (hexPrinted value).length = 10 ∧ hexValue ((hexPrinted value).drop 2) = value ∧
      (hexPrinted value = hexText value ↔ ∀ d ∈ fixedDigits 16 8 value, d < 10) := by
  have hlen : 0 + (hexPrinted value).length < digitBufSize := by
    rw [length_hexPrinted]
    decide
  obtain ⟨s', hs', hvga, hmem⟩ := s.kprintAt_buffer hbuf hlen (noNul_hexPrinted value)
  rw [← hexFrom_printed s hbuf] at hs'
  exact ⟨s', hs', hvga, hmem, length_hexPrinted value, hexValue_hexNumeral hvalue,
    hexPrinted_eq_hexText_iff value⟩

theorem kprintHex_prints_letters :
    ∃ s', kprintHex freshShell 0x1000 0xC0DE = some s' ∧
      s'.vga = vgaPutsFrom freshShell.vga (hexPrinted 0xC0DE) ∧
      hexPrinted 0xC0DE ≠ hexText 0xC0DE := by
  obtain ⟨s', hs', hvga, -, -, -, hiff⟩ :=
    @kprintHex_prints 0x1000 0xC0DE freshShell (by decide) (by decide)
  exact ⟨s', hs', hvga, fun heq => absurd (hiff.mp heq) (by decide)⟩

end SynapseKernel.Console
