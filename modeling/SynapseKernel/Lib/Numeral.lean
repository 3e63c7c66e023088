import Mathlib.Data.Nat.Digits.Lemmas
import SynapseKernel.Lib.ByteMemory

/-! # Decimal numerals

The numeral of a number is its digits from the first one on, without a leading zero
(`canonical_numeralOf`). Reading it digit by digit gives the number back
(`value_numeralOf`), and without its first digit it stands for less (`value_tail`). In a text
it is found where something other than a digit stands on both sides (`numbers_numeralOf`).
Digits of any base in a fixed width are read back up to that width (`foldl_fixedDigits`). -/
namespace SynapseKernel.Numeral
open SynapseKernel.ByteMemory

def digitByte (d : Nat) : UInt8 := UInt8.ofNat (48 + d)

def IsDigit (b : UInt8) : Prop := 48 ≤ b.toNat ∧ b.toNat ≤ 57

instance (b : UInt8) : Decidable (IsDigit b) := inferInstanceAs (Decidable (_ ∧ _))

/-- One more digit of a number. -/
def more (v : Nat) (b : UInt8) : Nat := 10 * v + (b.toNat - 48)

/-- The number a string of digits stands for. -/
def value (ds : List UInt8) : Nat := ds.foldl more 0

/-- The numeral of a natural number. -/
def numeralOf (n : Nat) : List UInt8 :=
  (if n = 0 then [0] else (Nat.digits 10 n).reverse).map digitByte

/-- Digits, and a leading zero only in `0`. -/
structure Canonical (ds : List UInt8) : Prop where
  ne_nil : ds ≠ []
  digits : ∀ b ∈ ds, IsDigit b
  lead : ds.head? = some (digitByte 0) → ds = [digitByte 0]

variable {n : Nat} {b : UInt8} {ds es : List UInt8}

theorem digitByte_toNat {d : Nat} (h : d < 10) : (digitByte d).toNat = 48 + d := by
  rw [digitByte, UInt8.toNat_ofNat', Nat.mod_eq_of_lt]
  omega

theorem isDigit_digitByte {d : Nat} (h : d < 10) : IsDigit (digitByte d) := by
  rw [IsDigit, digitByte_toNat h]
  omega

theorem IsDigit.eq_digitByte (h : IsDigit b) : b = digitByte (b.toNat - 48) := by
  obtain ⟨hlo, hhi⟩ := h
  rw [← UInt8.toNat_inj, digitByte_toNat (by omega)]
  omega

theorem value_concat : value (ds ++ [b]) = more (value ds) b := by
  rw [value, List.foldl_append]
  rfl

/-- The digits of a string weigh what they do in front of as many others. -/
theorem value_append : value (ds ++ es) = value ds * 10 ^ es.length + value es := by
  induction es using List.reverseRecOn with
  | nil => simp [value]
  | append_singleton es b ih =>
    rw [← List.append_assoc, value_concat, value_concat, ih, more, more, List.length_append,
      List.length_singleton, Nat.pow_succ]
    ring

theorem numeralOf_of_lt (h : n < 10) : numeralOf n = [digitByte n] := by
  rw [numeralOf]
  by_cases h0 : n = 0
  · rw [if_pos h0, h0]
    rfl
  · rw [if_neg h0, Nat.digits_of_lt 10 n h0 h]
    rfl

/-- The last digit is the remainder. -/
theorem numeralOf_of_ge (h : 10 ≤ n) :
    numeralOf n = numeralOf (n / 10) ++ [digitByte (n % 10)] := by
  have h0 : n ≠ 0 := by omega
  have hdiv : n / 10 ≠ 0 := by omega
  rw [numeralOf, numeralOf, if_neg h0, if_neg hdiv, Nat.digits_def' (by decide) (by omega),
    List.reverse_cons, List.map_append]
  rfl

/-- A numeral holds nothing but digits. -/
theorem isDigit_of_mem (n : Nat) : ∀ b ∈ numeralOf n, IsDigit b := by
  induction n using Nat.strongRecOn with
  | ind n ih =>
    intro b hb
    by_cases h : n < 10
    · rw [numeralOf_of_lt h] at hb
      rw [List.mem_singleton.mp hb]
      exact isDigit_digitByte h
    · rw [numeralOf_of_ge (Nat.le_of_not_lt h)] at hb
      rcases List.mem_append.mp hb with hb | hb
      · exact ih (n / 10) (by omega) b hb
      · rw [List.mem_singleton.mp hb]
        exact isDigit_digitByte (Nat.mod_lt _ (by decide))

/-- **Reading a numeral** gives the number back. -/
theorem value_numeralOf (n : Nat) : value (numeralOf n) = n := by
  induction n using Nat.strongRecOn with
  | ind n ih =>
    by_cases h : n < 10
    · have hone : value [digitByte n] = more 0 (digitByte n) := rfl
      rw [numeralOf_of_lt h, hone, more, digitByte_toNat h]
      omega
    · rw [numeralOf_of_ge (Nat.le_of_not_lt h), value_concat, ih (n / 10) (by omega), more,
        digitByte_toNat (Nat.mod_lt _ (by decide))]
      omega

theorem numeralOf_injective {m : Nat} (h : numeralOf m = numeralOf n) : m = n := by
  rw [← value_numeralOf m, h, value_numeralOf]

theorem numeralOf_ne_nil (n : Nat) : numeralOf n ≠ [] := by
  by_cases h : n < 10
  · rw [numeralOf_of_lt h]
    exact List.cons_ne_nil _ _
  · rw [numeralOf_of_ge (Nat.le_of_not_lt h)]
    exact List.append_ne_nil_of_right_ne_nil _ (List.cons_ne_nil _ _)

/-- The first digit of a number that is not zero is not zero. -/
theorem head_numeralOf (h : n ≠ 0) (hb : (numeralOf n).head? = some b) : b ≠ digitByte 0 := by
  induction n using Nat.strongRecOn with
  | ind n ih =>
    by_cases hlt : n < 10
    · rw [numeralOf_of_lt hlt, List.head?_cons, Option.some.injEq] at hb
      rw [← hb, ne_eq, ← UInt8.toNat_inj, digitByte_toNat hlt, digitByte_toNat (by decide)]
      omega
    · rw [numeralOf_of_ge (Nat.le_of_not_lt hlt),
        List.head?_append_of_ne_nil _ (numeralOf_ne_nil _)] at hb
      exact ih (n / 10) (by omega) (by omega) hb

theorem canonical_numeralOf (n : Nat) : Canonical (numeralOf n) := by
  refine ⟨numeralOf_ne_nil n, isDigit_of_mem n, fun hlead => ?_⟩
  by_cases h : n = 0
  · rw [h, numeralOf_of_lt (by decide)]
  · exact absurd rfl (head_numeralOf h hlead)

/-- Without its first digit a numeral stands for less, but for `0`. -/
theorem value_tail (h : numeralOf n = b :: ds) : value ds = n ↔ n = 0 := by
  have hvalue := value_numeralOf n
  have hcons : b :: ds = [b] ++ ds := rfl
  rw [h, hcons, value_append] at hvalue
  constructor
  · intro htail
    by_contra h0
    have hb := head_numeralOf h0 (congrArg List.head? h)
    have hdigit : IsDigit b := isDigit_of_mem n b (h ▸ List.mem_cons_self)
    have hone : value [b] = b.toNat - 48 := by
      rw [value, List.foldl_cons, List.foldl_nil, more]
      omega
    have hpos : 0 < value [b] := by
      rw [hone]
      refine Nat.pos_of_ne_zero fun hz => hb ?_
      rw [hdigit.eq_digitByte, hz]
    have hpow : 0 < value [b] * 10 ^ ds.length := Nat.mul_pos hpos (Nat.pow_pos (by decide))
    omega
  · rintro rfl
    omega

/-- A number below a power of ten has no more digits than the exponent says. -/
theorem length_numeralOf_le {k : Nat} (hk : 0 < k) (h : n < 10 ^ k) : (numeralOf n).length ≤ k := by
  induction k generalizing n with
  | zero => exact absurd hk (Nat.lt_irrefl 0)
  | succ k ih =>
    by_cases hlt : n < 10
    · rw [numeralOf_of_lt hlt]
      exact Nat.succ_le_succ (Nat.zero_le k)
    · rw [numeralOf_of_ge (Nat.le_of_not_lt hlt), List.length_append, List.length_singleton]
      rw [Nat.pow_succ] at h
      refine Nat.succ_le_succ (ih (Nat.pos_of_ne_zero fun hz => hlt ?_) (by omega))
      rwa [hz, Nat.pow_zero, Nat.one_mul] at h

/-! ## Integers -/

/-- A minus sign if there has to be one, and the numeral of the absolute value. -/
def intNumeralOf (z : Int) : List UInt8 :=
  (if z < 0 then [byteOf '-'] else []) ++ numeralOf z.natAbs

/-- The integer that digits, with a sign or without, stand for. -/
def intValue : List UInt8 → Int
  | [] => 0
  | b :: ds => if b = byteOf '-' then -(value ds : Int) else value (b :: ds)

/-- A canonical numeral, or a sign and the canonical numeral of a number other than `0`. -/
inductive CanonicalInt : List UInt8 → Prop
  | natural {ds : List UInt8} : Canonical ds → CanonicalInt ds
  | negative {ds : List UInt8} : Canonical ds → ds ≠ [digitByte 0] → CanonicalInt (byteOf '-' :: ds)

theorem CanonicalInt.digit_or_sign (h : CanonicalInt ds) :
    ∀ b ∈ ds, IsDigit b ∨ b = byteOf '-' := by
  cases h with
  | natural hds => exact fun b hb => .inl (hds.digits b hb)
  | negative hds _ =>
    intro b hb
    rcases List.mem_cons.mp hb with rfl | hb
    · exact .inr rfl
    · exact .inl (hds.digits b hb)

theorem intNumeralOf_of_neg {z : Int} (h : z < 0) :
    intNumeralOf z = byteOf '-' :: numeralOf z.natAbs := by
  rw [intNumeralOf, if_pos h, List.singleton_append]

theorem intNumeralOf_of_nonneg {z : Int} (h : ¬ z < 0) : intNumeralOf z = numeralOf z.natAbs := by
  rw [intNumeralOf, if_neg h, List.nil_append]

theorem canonicalInt_intNumeralOf (z : Int) : CanonicalInt (intNumeralOf z) := by
  by_cases h : z < 0
  · rw [intNumeralOf_of_neg h]
    refine .negative (canonical_numeralOf _) fun he => ?_
    have hzero : numeralOf 0 = [digitByte 0] := numeralOf_of_lt (by decide)
    have hnat := numeralOf_injective (he.trans hzero.symm)
    omega
  · rw [intNumeralOf_of_nonneg h]
    exact .natural (canonical_numeralOf _)

/-- **Reading the numeral of an integer** gives it back. -/
theorem intValue_intNumeralOf (z : Int) : intValue (intNumeralOf z) = z := by
  by_cases h : z < 0
  · rw [intNumeralOf_of_neg h, intValue, if_pos rfl, value_numeralOf]
    omega
  · rw [intNumeralOf_of_nonneg h]
    obtain ⟨b, ds, hnum⟩ := List.exists_cons_of_ne_nil (numeralOf_ne_nil z.natAbs)
    have hdigit : IsDigit b := isDigit_of_mem z.natAbs b (hnum ▸ List.mem_cons_self)
    have hsign : b ≠ byteOf '-' := by
      rintro rfl
      exact absurd hdigit (by decide)
    rw [hnum, intValue, if_neg hsign, ← hnum, value_numeralOf]
    omega

/-! ## The numbers in a text -/

/-- The numbers from a text on, where the digits before it, if there are any, stand for `v`. -/
def numbersFrom : Option Nat → List UInt8 → List Nat
  | v, [] => v.toList
  | v, b :: text =>
    if IsDigit b then numbersFrom (some (more (v.getD 0) b)) text
    else v.toList ++ numbersFrom none text

/-- What the strings of digits in a text stand for. -/
def numbers (text : List UInt8) : List Nat := numbersFrom none text

section Numbers
variable {text word : List UInt8}

theorem numbersFrom_digits (hds : ∀ b ∈ ds, IsDigit b) (v : Nat) (text : List UInt8) :
    numbersFrom (some v) (ds ++ text) = numbersFrom (some (ds.foldl more v)) text := by
  induction ds generalizing v with
  | nil => rfl
  | cons b ds ih =>
    obtain ⟨hb, hrest⟩ := List.forall_mem_cons.mp hds
    rw [List.cons_append, numbersFrom, if_pos hb, ih hrest]
    rfl

/-- A numeral with something other than a digit behind it. -/
theorem numbers_numeralOf (hb : ¬ IsDigit b) (n : Nat) (text : List UInt8) :
    numbers (numeralOf n ++ b :: text) = n :: numbers text := by
  have hvalue := value_numeralOf n
  obtain ⟨d, ds, hnum⟩ := List.exists_cons_of_ne_nil (numeralOf_ne_nil n)
  have hdigits := isDigit_of_mem n
  rw [hnum] at hvalue hdigits
  obtain ⟨hd, hds⟩ := List.forall_mem_cons.mp hdigits
  rw [value, List.foldl_cons] at hvalue
  rw [hnum, numbers, List.cons_append, numbersFrom, if_pos hd, Option.getD_none,
    numbersFrom_digits hds, hvalue, numbersFrom, if_neg hb]
  rfl

/-- Text without a digit. -/
theorem numbers_append (hword : ∀ b ∈ word, ¬ IsDigit b) (text : List UInt8) :
    numbers (word ++ text) = numbers text := by
  induction word with
  | nil => rfl
  | cons b word ih =>
    obtain ⟨hb, hrest⟩ := List.forall_mem_cons.mp hword
    rw [List.cons_append, numbers, numbersFrom, if_neg hb]
    exact ih hrest

end Numbers

/-! ## Digits in a fixed width -/

/-- The last `width` digits of a number in base `base`, the highest one first. -/
def fixedDigits (base : Nat) : Nat → Nat → List Nat
  | 0, _ => []
  | width + 1, n => fixedDigits base width (n / base) ++ [n % base]

section FixedWidth
variable {base width : Nat}

theorem length_fixedDigits (base width n : Nat) : (fixedDigits base width n).length = width := by
  induction width generalizing n with
  | zero => rfl
  | succ width ih => rw [fixedDigits, List.length_append, ih, List.length_singleton]

theorem lt_of_mem_fixedDigits (hbase : 0 < base) :
    ∀ d ∈ fixedDigits base width n, d < base := by
  induction width generalizing n with
  | zero => exact fun d hd => absurd hd List.not_mem_nil
  | succ width ih =>
    rw [fixedDigits]
    refine List.forall_mem_append.mpr ⟨ih, fun d hd => ?_⟩
    rw [List.mem_singleton.mp hd]
    exact Nat.mod_lt _ hbase

/-- **Reading the digits** gives the number back, up to its width. -/
theorem foldl_fixedDigits (base width n : Nat) :
    (fixedDigits base width n).foldl (fun v d => base * v + d) 0 = n % base ^ width := by
  induction width generalizing n with
  | zero => exact (Nat.mod_one n).symm
  | succ width ih =>
    rw [fixedDigits, List.foldl_append, ih, List.foldl_cons, List.foldl_nil, Nat.pow_succ,
      Nat.mul_comm (base ^ width), Nat.mod_mul, Nat.add_comm]

end FixedWidth

end SynapseKernel.Numeral
