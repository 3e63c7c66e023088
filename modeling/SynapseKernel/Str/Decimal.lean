import SynapseKernel.Lib.Numeral
import SynapseKernel.Str.Snprintf

/-! # What `%d` prints (lib/kprintf.c)

For every `int` but one the text is the canonical numeral, so that it can be read back and
no two are printed alike. The one is the least `int`, which is its own negation: its digit
loop ends after the last digit, which is negative (`percentD_faithful_iff`). -/
namespace SynapseKernel.Str
open SynapseKernel.Word SynapseKernel.ByteMemory SynapseKernel.Blocks SynapseKernel.Numeral

/-- `"%d"`. -/
def numberFormat : CString := ⟨ascii ['%', 'd'], by decide⟩

/-- What `snprintf(str, size, "%d", word)` leaves in front of the NUL. -/
def percentD (strings : Nat → CString) (str : Nat → UInt8) (size word : Nat) :
    Option (List UInt8) :=
  (snprintf str size numberFormat strings fun _ => word).map fun r => slice r.2 0 r.1

/-- The text of a word is the canonical numeral of the `int` it is, and no other word's. -/
structure Faithful (text : Nat → Option (List UInt8)) (word : Nat) : Prop where
  canonical : ∃ t, text word = some t ∧ CanonicalInt t ∧ intValue t = s32 word
  distinct : ∀ other < 2 ^ 32, other ≠ word → text other ≠ text word

variable {strings : Nat → CString} {str : Nat → UInt8} {size word : Nat}

theorem numeral_eq (z : Int) : numeral z = intNumeralOf z := by
  have hzero : (z = 0) = (z.natAbs = 0) := propext Int.natAbs_eq_zero.symm
  rw [numeral, intNumeralOf, numeralOf]
  simp only [hzero]
  rfl

/-- The least `int` is its own negation, and its last digit comes out as a bracket. -/
theorem decimal_least : decimal (2 ^ 31) = ascii ['-', '('] := by decide

theorem decimal_of_ne (hw : word < 2 ^ 32) (hne : word ≠ 2 ^ 31) :
    decimal word = intNumeralOf (s32 word) :=
  (decimal_eq hw hne).trans (numeral_eq _)

theorem length_decimal_le (hw : word < 2 ^ 32) : (decimal word).length ≤ 11 := by
  by_cases hne : word = 2 ^ 31
  · rw [hne, decimal_least]
    decide
  · have hdigits : (numeralOf (s32 word).natAbs).length ≤ 10 := by
      refine length_numeralOf_le (by decide) ?_
      unfold s32
      split <;> omega
    have hsign : (if s32 word < 0 then [byteOf '-'] else []).length ≤ 1 := by
      split <;> decide
    rw [decimal_of_ne hw hne, intNumeralOf, List.length_append]
    omega

/-- A buffer of twelve bytes is enough. -/
theorem percentD_eq (hw : word < 2 ^ 32) (hlo : 12 ≤ size) (hhi : size < 2 ^ 32) :
    percentD strings str size word = some (decimal word) := by
  have hlone : Piece.lone ∉ pieces numberFormat.bytes := by decide
  have hformatted : formatted numberFormat strings (fun _ => word) = decimal word := by
    have hpieces : pieces numberFormat.bytes = [.directive (byteOf 'd')] := rfl
    rw [formatted, hpieces]
    exact List.append_nil _
  have hlen := length_decimal_le hw
  have hwrite := @snprintf_eq strings (fun _ => word) numberFormat size (by omega) hhi hlone str
  have htake : (decimal word).take (size - 1) = decimal word :=
    List.take_of_length_le (by omega)
  rw [hformatted, htake, Nat.min_eq_left (by omega)] at hwrite
  rw [percentD, hwrite, Option.map_some, slice_written]

theorem s32_injective {a b : Nat} (ha : a < 2 ^ 32) (hb : b < 2 ^ 32) (h : s32 a = s32 b) :
    a = b := by
  unfold s32 at h
  split at h <;> split at h <;> omega

theorem not_canonicalInt_least : ¬ CanonicalInt (decimal (2 ^ 31)) := by
  intro h
  rw [decimal_least] at h
  rcases h.digit_or_sign (byteOf '(') (by decide) with hd | hd
  · exact absurd hd (by decide)
  · exact absurd hd (by decide)

/-- **`%d` is faithful** to every `int` but the least one: in a buffer of twelve bytes or more
it prints the canonical numeral, which is no other's and gives the `int` back. -/
theorem percentD_faithful_iff (strings : Nat → CString) (str : Nat → UInt8) (hlo : 12 ≤ size)
    (hhi : size < 2 ^ 32) (hw : word < 2 ^ 32) :
    Faithful (percentD strings str size) word ↔ word ≠ 2 ^ 31 := by
  constructor
  · rintro ⟨⟨t, ht, hcanonical, -⟩, -⟩ rfl
    rw [percentD_eq hw hlo hhi, Option.some.injEq] at ht
    exact not_canonicalInt_least (ht ▸ hcanonical)
  · intro hne
    have htext := decimal_of_ne hw hne
    refine ⟨⟨_, percentD_eq hw hlo hhi, ?_, ?_⟩, fun other hother hdiff he => hdiff ?_⟩
    · rw [htext]
      exact canonicalInt_intNumeralOf _
    · rw [htext]
      exact intValue_intNumeralOf _
    · rw [percentD_eq hother hlo hhi, percentD_eq hw hlo hhi, Option.some.injEq] at he
      have hother' : other ≠ 2 ^ 31 := by
        rintro rfl
        refine not_canonicalInt_least ?_
        rw [he, htext]
        exact canonicalInt_intNumeralOf _
      have hvalue := congrArg intValue he
      rw [htext, decimal_of_ne hother hother', intValue_intNumeralOf,
        intValue_intNumeralOf] at hvalue
      exact s32_injective hother hw hvalue

/-- `snprintf(str, 32, "%d", -7)`. -/
theorem percentD_faithful_iff_negative :
    Faithful (percentD (fun _ => numberFormat) (fun _ => 0) 32) (2 ^ 32 - 7) :=
  (percentD_faithful_iff (fun _ => numberFormat) (fun _ => 0) (by decide) (by decide)
    (by decide)).mpr (by decide)

/-- The least `int` is printed as `-(`. -/
theorem not_faithful_least :
    percentD (fun _ => numberFormat) (fun _ => 0) 32 (2 ^ 31) = some (ascii ['-', '(']) ∧
      ¬ Faithful (percentD (fun _ => numberFormat) (fun _ => 0) 32) (2 ^ 31) := by
  have htext := @percentD_eq (fun _ => numberFormat) (fun _ => 0) 32 (2 ^ 31) (by decide)
    (by decide) (by decide)
  refine ⟨htext.trans (congrArg some decimal_least), fun hf => ?_⟩
  obtain ⟨t, ht, hcanonical, -⟩ := hf.canonical
  rw [htext, Option.some.injEq] at ht
  exact not_canonicalInt_least (ht ▸ hcanonical)

end SynapseKernel.Str
