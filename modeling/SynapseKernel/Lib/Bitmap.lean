import Mathlib.Data.Finset.Card
import SynapseKernel.Lib.ByteMemory
import SynapseKernel.Lib.Word

/-! # Bits packed into the words of a memory

Bit `i` of a bitmap at `base` is bit `i % 32` of its word `i / 32`. Setting and
clearing go through the masks a C program uses; `bit_setBit` and `bit_clearBit`
are all a proof needs to know about them. `bitCount` is the number of bits set. -/
namespace SynapseKernel.Bitmap
open SynapseKernel.ByteMemory SynapseKernel.Word

/-- The address of the word that holds bit `i`. -/
def wordAddr (base i : Nat) : Nat := base + 4 * (i / 32)

def bit (m : Mem) (base i : Nat) : Bool := (read32 m (wordAddr base i)).testBit (i % 32)

def setBit (m : Mem) (base i : Nat) : Mem :=
  write32 m (wordAddr base i) (read32 m (wordAddr base i) ||| 1 <<< (i % 32))

def clearBit (m : Mem) (base i : Nat) : Mem :=
  write32 m (wordAddr base i) (read32 m (wordAddr base i) &&& (0xFFFFFFFF ^^^ 1 <<< (i % 32)))

/-- A mask with one bit tests that bit. -/
theorem land_bit_eq_zero {w k : Nat} : w &&& 1 <<< k = 0 ↔ w.testBit k = false := by
  rw [Nat.shiftLeft_eq, Nat.one_mul, Nat.and_two_pow]
  cases w.testBit k <;> simp [Nat.pow_eq_zero]

theorem bit_congr {m m' : Mem} {base i : Nat}
    (h : ∀ a, wordAddr base i ≤ a → a < wordAddr base i + 4 → m' a = m a) :
    bit m' base i = bit m base i := by
  rw [bit, bit, read32, read32, readLE_congr h]

/-- Two bits share a word, or their words do not overlap. -/
theorem wordAddr_apart {base i j : Nat} (h : i / 32 ≠ j / 32) :
    wordAddr base i + 4 ≤ wordAddr base j ∨ wordAddr base j + 4 ≤ wordAddr base i := by
  unfold wordAddr
  omega

theorem bit_setBit (m : Mem) (base i j : Nat) :
    bit (setBit m base i) base j = (decide (j = i) || bit m base j) := by
  by_cases hw : j / 32 = i / 32
  · have haddr : wordAddr base j = wordAddr base i := by rw [wordAddr, wordAddr, hw]
    have hlt : j % 32 < 32 := Nat.mod_lt _ (by decide)
    have hj : decide (i % 32 = j % 32) = decide (j = i) := decide_eq_decide.mpr (by omega)
    rw [bit, setBit, haddr, read32_write32, Nat.testBit_mod_two_pow, Nat.testBit_or,
      Nat.shiftLeft_eq, Nat.one_mul, Nat.testBit_two_pow, hj, decide_eq_true hlt, Bool.true_and,
      Bool.or_comm, bit, haddr]
  · have hne : decide (j = i) = false := decide_eq_false fun h => hw (by rw [h])
    rw [bit, setBit, read32_write32_ne (wordAddr_apart (Ne.symm hw)), hne, Bool.false_or, bit]

theorem bit_clearBit (m : Mem) (base i j : Nat) :
    bit (clearBit m base i) base j = (!decide (j = i) && bit m base j) := by
  by_cases hw : j / 32 = i / 32
  · have haddr : wordAddr base j = wordAddr base i := by rw [wordAddr, wordAddr, hw]
    have hlt : j % 32 < 32 := Nat.mod_lt _ (by decide)
    have hj : decide (i % 32 = j % 32) = decide (j = i) := decide_eq_decide.mpr (by omega)
    have hones : (0xFFFFFFFF : Nat).testBit (j % 32) = true := by
      rw [show (0xFFFFFFFF : Nat) = 2 ^ 32 - 1 by rfl, Nat.testBit_two_pow_sub_one,
        decide_eq_true hlt]
    rw [bit, clearBit, haddr, read32_write32, Nat.testBit_mod_two_pow, Nat.testBit_and,
      Nat.testBit_xor, hones, Nat.shiftLeft_eq, Nat.one_mul, Nat.testBit_two_pow, hj,
      decide_eq_true hlt, Bool.true_and, Bool.true_xor, Bool.and_comm, bit, haddr]
  · have hne : decide (j = i) = false := decide_eq_false fun h => hw (by rw [h])
    rw [bit, clearBit, read32_write32_ne (wordAddr_apart (Ne.symm hw)), hne, Bool.not_false,
      Bool.true_and, bit]

/-! ## Counting -/

/-- How many of the first `n` bits are set. -/
def bitCount (m : Mem) (base n : Nat) : Nat :=
  ((Finset.range n).filter fun i => bit m base i = true).card

theorem bitCount_le (m : Mem) (base n : Nat) : bitCount m base n ≤ n := by
  have h := Finset.card_filter_le (Finset.range n) fun i => bit m base i = true
  rwa [Finset.card_range] at h

theorem bitCount_congr {m m' : Mem} {base n : Nat}
    (h : ∀ i < n, bit m' base i = bit m base i) : bitCount m' base n = bitCount m base n := by
  unfold bitCount
  congr 1
  exact Finset.filter_congr fun i hi => by rw [h i (Finset.mem_range.mp hi)]

theorem bitCount_setBit {m : Mem} {base n i : Nat} (hi : i < n) (hclear : bit m base i = false) :
    bitCount (setBit m base i) base n = bitCount m base n + 1 := by
  have hset : ((Finset.range n).filter fun j => bit (setBit m base i) base j = true) =
      insert i ((Finset.range n).filter fun j => bit m base j = true) := by
    ext j
    simp only [Finset.mem_filter, Finset.mem_range, Finset.mem_insert, bit_setBit, Bool.or_eq_true,
      decide_eq_true_eq]
    constructor
    · intro ⟨hj, hor⟩
      exact hor.imp id fun hb => ⟨hj, hb⟩
    · intro hor
      rcases hor with rfl | ⟨hj, hb⟩
      · exact ⟨hi, .inl rfl⟩
      · exact ⟨hj, .inr hb⟩
  rw [bitCount, hset, Finset.card_insert_of_notMem (by simp [hclear]), bitCount]

theorem bitCount_clearBit {m : Mem} {base n i : Nat} (hi : i < n) (hset : bit m base i = true) :
    bitCount (clearBit m base i) base n + 1 = bitCount m base n := by
  have hclear : ((Finset.range n).filter fun j => bit (clearBit m base i) base j = true) =
      ((Finset.range n).filter fun j => bit m base j = true).erase i := by
    ext j
    simp only [Finset.mem_filter, Finset.mem_range, Finset.mem_erase, bit_clearBit,
      Bool.and_eq_true, Bool.not_eq_true', decide_eq_false_iff_not]
    exact and_left_comm
  rw [bitCount, hclear, Finset.card_erase_of_mem (by simp [hi, hset]), bitCount]
  have hpos : 0 < ((Finset.range n).filter fun j => bit m base j = true).card :=
    Finset.card_pos.mpr ⟨i, by simp [hi, hset]⟩
  omega

/-! ## Runs of bits -/

/-- Set the first `n` bits. -/
def setRange (m : Mem) (base : Nat) : Nat → Mem
  | 0 => m
  | n + 1 => setBit (setRange m base n) base n

theorem bit_setRange (m : Mem) (base n j : Nat) :
    bit (setRange m base n) base j = (decide (j < n) || bit m base j) := by
  induction n with
  | zero => simp [setRange]
  | succ n ih =>
    rw [setRange, bit_setBit, ih, ← Bool.or_assoc, ← Bool.decide_or]
    congr 1
    exact decide_eq_decide.mpr (by omega)

end SynapseKernel.Bitmap
