import SynapseKernel.Str.Content
import SynapseKernel.Str.Decimal

/-! # Texts with numbers in them (lib/kprintf.c)

What `snprintf` makes of a format of plain characters and `%d`, and the numbers that are
read back from it: those it was called with, where they are not negative
(`numbers_decimal`). -/
namespace SynapseKernel.Str
open SynapseKernel.Word SynapseKernel.ByteMemory SynapseKernel.Numeral

variable {strings : Nat → CString} {args : Nat → Nat} {k word left : Nat} {ps : List Piece}
  {name unit : List UInt8}

/-! ## Formats -/

theorem renderings_plain (bytes : List UInt8) :
    renderings strings args k (bytes.map .plain ++ ps) = bytes ++ renderings strings args k ps := by
  induction bytes with
  | nil => rfl
  | cons b bytes ih =>
    rw [List.map_cons, List.cons_append, renderings]
    exact congrArg (b :: ·) ih

theorem renderings_decimal :
    renderings strings args k (.directive (byteOf 'd') :: ps) =
      decimal (args k) ++ renderings strings args (k + 1) ps := rfl

/-- A format that ends in plain characters. -/
theorem renderings_end (bytes : List UInt8) :
    renderings strings args k (bytes.map .plain) = bytes := by
  have hend := @renderings_plain strings args k [] bytes
  rw [List.append_nil] at hend
  exact hend.trans (List.append_nil bytes)

/-! ## Lengths -/

theorem length_digitsFrom_le (left : Nat) (val : Int) : (digitsFrom left val).length ≤ left := by
  induction left generalizing val with
  | zero => exact Nat.le_refl 0
  | succ left ih =>
    rw [digitsFrom, List.length_cons]
    refine Nat.succ_le_succ ?_
    split
    · exact ih _
    · exact Nat.zero_le _

/-- The loop stops after 30 digits. -/
theorem length_decimal_le_any (word : Nat) : (decimal word).length ≤ 31 := by
  simp only [decimal, reverseLoop_eq, List.length_reverse]
  split
  · rw [List.length_append, List.length_singleton]
    exact Nat.succ_le_succ (length_digitsFrom_le 30 _)
  · exact Nat.le_succ_of_le (length_digitsFrom_le 30 _)

/-! ## Numbers -/

theorem decimal_of_small (h : word < 2 ^ 31) : decimal word = numeralOf word := by
  rw [decimal_of_ne (by omega) (by omega), s32_of_lt h, intNumeralOf_of_nonneg (by omega),
    Int.natAbs_natCast]

/-- A number between texts without digits is read back. -/
theorem numbers_decimal (hname : ∀ b ∈ name, ¬ IsDigit b) (hunit : ∀ b ∈ unit, ¬ IsDigit b)
    (hne : unit ≠ []) (hword : word < 2 ^ 31) (text : List UInt8) :
    numbers (name ++ (decimal word ++ unit) ++ text) = word :: numbers text := by
  obtain ⟨b, rest, rfl⟩ := List.exists_cons_of_ne_nil hne
  obtain ⟨hb, hrest⟩ := List.forall_mem_cons.mp hunit
  have htext : name ++ (decimal word ++ b :: rest) ++ text =
      name ++ (numeralOf word ++ b :: (rest ++ text)) := by
    rw [decimal_of_small hword, List.append_assoc, List.append_assoc, List.cons_append]
  rw [htext, numbers_append hname, numbers_numeralOf hb, numbers_append hrest]

/-- No byte of it is NUL. -/
theorem noNul_decimal (hword : word < 2 ^ 31) : 0 ∉ decimal word := by
  rw [decimal_of_small hword]
  intro hm
  exact absurd (isDigit_of_mem word 0 hm) (by decide)

end SynapseKernel.Str
