import Mathlib.Data.Nat.Bitwise

/-! # 32-bit words as natural numbers

A machine word is a natural number below `2 ^ 32`. Additions and subtractions
that may leave the range are reduced explicitly (`u32`, `sub32`); masks with
`&` are related to division, so that `omega` can finish what they leave. -/
namespace SynapseKernel.Word

/-- Reduction to a 32-bit word. -/
def u32 (n : Nat) : Nat := n % 2 ^ 32

/-- 32-bit subtraction. -/
def sub32 (a b : Nat) : Nat := u32 (2 ^ 32 + a - b)

/-- A word read as a signed number. -/
def s32 (n : Nat) : Int := if n < 2 ^ 31 then n else n - 2 ^ 32

/-- A signed number as a word. -/
def ofInt (n : Int) : Nat := (n % 2 ^ 32).toNat

theorem s32_of_lt {n : Nat} (h : n < 2 ^ 31) : s32 n = n := if_pos h

theorem u32_lt (n : Nat) : u32 n < 2 ^ 32 := Nat.mod_lt _ (by decide)

theorem u32_of_lt {n : Nat} (h : n < 2 ^ 32) : u32 n = n := Nat.mod_eq_of_lt h

theorem sub32_of_le {a b : Nat} (ha : a < 2 ^ 32) (h : b ≤ a) : sub32 a b = a - b := by
  unfold sub32 u32
  omega

/-- The mask with bits `k` to `n - 1` set keeps the multiple of `2 ^ k` below. -/
theorem land_high_mask {x n k : Nat} (hx : x < 2 ^ n) (hk : k ≤ n) :
    x &&& (2 ^ n - 2 ^ k) = x / 2 ^ k * 2 ^ k := by
  have hmask : 2 ^ n - 2 ^ k = (2 ^ (n - k) - 1) <<< k := by
    rw [Nat.shiftLeft_eq, Nat.sub_mul, ← Nat.pow_add, Nat.sub_add_cancel hk, Nat.one_mul]
  rw [hmask, ← Nat.shiftRight_eq_div_pow, ← Nat.shiftLeft_eq]
  apply Nat.eq_of_testBit_eq
  intro i
  simp only [Nat.testBit_and, Nat.testBit_shiftLeft, Nat.testBit_two_pow_sub_one,
    Nat.testBit_shiftRight]
  by_cases hi : k ≤ i
  · by_cases hn : i < n
    · have : k + (i - k) = i := by omega
      simp [hi, this, show i - k < n - k by omega]
    · have hb : x.testBit i = false :=
        Nat.testBit_lt_two_pow (Nat.lt_of_lt_of_le hx (Nat.pow_le_pow_right (by decide) (by omega)))
      have : k + (i - k) = i := by omega
      simp [this, hb]
  · simp [hi]

/-- Disjoint bit ranges add up. -/
theorem lor_low {a b k : Nat} (hb : b < 2 ^ k) : a * 2 ^ k ||| b = a * 2 ^ k + b := by
  rw [Nat.mul_comm]
  exact (Nat.two_pow_add_eq_or_of_lt hb a).symm

end SynapseKernel.Word
