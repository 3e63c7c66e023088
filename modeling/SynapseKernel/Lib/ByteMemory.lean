import Mathlib.Algebra.Group.Nat.Defs
import Mathlib.Logic.Function.Basic

/-! # Byte-addressed memory

A memory maps addresses to bytes. Values wider than a byte are stored little
endian. The two facts every proof over a memory uses are that a read gives
back what a write of the same width put there (`readLE_writeLE`) and that it
does not see a write elsewhere (`readLE_writeLE_of_disjoint`). -/
namespace SynapseKernel.ByteMemory

abbrev Mem := Nat → UInt8

/-- A character in ASCII. -/
def byteOf (c : Char) : UInt8 := UInt8.ofNat c.toNat

def ascii (text : List Char) : List UInt8 := text.map byteOf

/-- A property of all bytes of a text, by evaluation. -/
theorem forall_of_all {text : List UInt8} {p : UInt8 → Prop} [DecidablePred p]
    (h : (text.all fun b => decide (p b)) = true) : ∀ b ∈ text, p b :=
  fun b hb => of_decide_eq_true (List.all_eq_true.mp h b hb)

/-- The little-endian value of the `w` bytes from `a` on. -/
def readLE (m : Mem) : Nat → Nat → Nat
  | _, 0 => 0
  | a, w + 1 => (m a).toNat + 256 * readLE m (a + 1) w

/-- Store the low `w` bytes of `v` from `a` on. -/
def writeLE : Mem → Nat → Nat → Nat → Mem
  | m, _, 0, _ => m
  | m, a, w + 1, v => writeLE (Function.update m a (UInt8.ofNat v)) (a + 1) w (v / 256)

/-- Store the byte `v` at each of the `n` addresses from `a` on. -/
def fill (m : Mem) (a n : Nat) (v : UInt8) : Mem :=
  fun b => if a ≤ b ∧ b < a + n then v else m b

theorem readLE_lt (m : Mem) (a w : Nat) : readLE m a w < 256 ^ w := by
  induction w generalizing a with
  | zero => simp [readLE]
  | succ w ih =>
    have hb := (m a).toNat_lt
    have hr := ih (a + 1)
    simp only [readLE, Nat.pow_succ]
    omega

/-- A read depends on the bytes it covers only. -/
theorem readLE_congr {m m' : Mem} {a w : Nat} (h : ∀ b, a ≤ b → b < a + w → m' b = m b) :
    readLE m' a w = readLE m a w := by
  induction w generalizing a with
  | zero => rfl
  | succ w ih =>
    simp only [readLE]
    rw [h a (Nat.le_refl a) (by omega), ih fun b hb hb' => h b (by omega) (by omega)]

/-- A write changes the bytes it covers only. -/
theorem writeLE_frame {m : Mem} {a w v b : Nat} (h : b < a ∨ a + w ≤ b) :
    writeLE m a w v b = m b := by
  induction w generalizing m a v with
  | zero => rfl
  | succ w ih =>
    rw [writeLE, ih (by omega), Function.update_of_ne (by omega)]

theorem readLE_writeLE (m : Mem) (a w v : Nat) : readLE (writeLE m a w v) a w = v % 256 ^ w := by
  induction w generalizing m a v with
  | zero => simp [readLE, Nat.mod_one]
  | succ w ih =>
    simp only [readLE, writeLE]
    rw [writeLE_frame (by omega), Function.update_self, ih, Nat.pow_succ, Nat.mul_comm (256 ^ w),
      Nat.mod_mul, UInt8.toNat_ofNat']

theorem readLE_writeLE_of_disjoint {m : Mem} {a w v b k : Nat} (h : a + w ≤ b ∨ b + k ≤ a) :
    readLE (writeLE m a w v) b k = readLE m b k :=
  readLE_congr fun c hc hc' => writeLE_frame (by omega)

theorem fill_frame {m : Mem} {a n b : Nat} {v : UInt8} (h : b < a ∨ a + n ≤ b) :
    fill m a n v b = m b := by
  rw [fill, if_neg (by omega)]

theorem readLE_fill_of_disjoint {m : Mem} {a n b k : Nat} {v : UInt8}
    (h : a + n ≤ b ∨ b + k ≤ a) : readLE (fill m a n v) b k = readLE m b k :=
  readLE_congr fun c hc hc' => fill_frame (by omega)

theorem readLE_fill_zero {m : Mem} {a n b k : Nat} (hb : a ≤ b) (hk : b + k ≤ a + n) :
    readLE (fill m a n 0) b k = 0 := by
  induction k generalizing b with
  | zero => rfl
  | succ k ih =>
    rw [readLE, ih (by omega) (by omega), fill, if_pos (by omega)]
    rfl

/-! ## Words and bytes -/

def read8 (m : Mem) (a : Nat) : Nat := readLE m a 1
def read16 (m : Mem) (a : Nat) : Nat := readLE m a 2
def read32 (m : Mem) (a : Nat) : Nat := readLE m a 4
def write8 (m : Mem) (a v : Nat) : Mem := writeLE m a 1 v
def write16 (m : Mem) (a v : Nat) : Mem := writeLE m a 2 v
def write32 (m : Mem) (a v : Nat) : Mem := writeLE m a 4 v

theorem read32_lt (m : Mem) (a : Nat) : read32 m a < 2 ^ 32 := readLE_lt m a 4

@[simp] theorem read32_write32 (m : Mem) (a v : Nat) :
    read32 (write32 m a v) a = v % 2 ^ 32 := readLE_writeLE m a 4 v

@[simp] theorem read8_write8 (m : Mem) (a v : Nat) : read8 (write8 m a v) a = v % 256 :=
  readLE_writeLE m a 1 v

theorem read32_write32_ne {m : Mem} {a b v : Nat} (h : a + 4 ≤ b ∨ b + 4 ≤ a) :
    read32 (write32 m a v) b = read32 m b := readLE_writeLE_of_disjoint h

theorem read8_write32_ne {m : Mem} {a b v : Nat} (h : a + 4 ≤ b ∨ b < a) :
    read8 (write32 m a v) b = read8 m b := readLE_writeLE_of_disjoint (by omega)

theorem read32_write8_ne {m : Mem} {a b v : Nat} (h : a < b ∨ b + 4 ≤ a) :
    read32 (write8 m a v) b = read32 m b := readLE_writeLE_of_disjoint (by omega)

theorem read32_write16_ne {m : Mem} {a b v : Nat} (h : a + 2 ≤ b ∨ b + 4 ≤ a) :
    read32 (write16 m a v) b = read32 m b := readLE_writeLE_of_disjoint h

/-- A halfword replaces the low half of a word. -/
theorem read32_write16 (m : Mem) (a v : Nat) :
    read32 (write16 m a v) a = read32 m a / 2 ^ 16 * 2 ^ 16 + v % 2 ^ 16 := by
  have hlow := readLE_writeLE m a 2 v
  have hhigh : readLE (write16 m a v) (a + 2) 2 = readLE m (a + 2) 2 :=
    readLE_writeLE_of_disjoint (.inl (Nat.le_refl _))
  have hsplit : ∀ m' : Mem, read32 m' a = readLE m' a 2 + 65536 * readLE m' (a + 2) 2 := by
    intro m'
    simp only [read32, readLE, Nat.add_assoc, Nat.reduceAdd]
    omega
  have hlt := readLE_lt m a 2
  rw [hsplit, hsplit, hhigh, show write16 m a v = writeLE m a 2 v from rfl, hlow]
  simp only [Nat.reducePow] at hlt ⊢
  omega

/-- A halfword is the low half of the word at its address. -/
theorem read16_eq (m : Mem) (a : Nat) : read16 m a = read32 m a % 2 ^ 16 := by
  have h0 := (m a).toNat_lt
  have h1 := (m (a + 1)).toNat_lt
  simp only [read16, read32, readLE, Nat.add_assoc, Nat.reduceAdd]
  omega

/-! ## A memory given by its words -/

def ofWords (w : Nat → Nat) : Mem := fun a => UInt8.ofNat (w (a / 4) / 256 ^ (a % 4))

theorem read32_ofWords (w : Nat → Nat) (k : Nat) : read32 (ofWords w) (4 * k) = w k % 2 ^ 32 := by
  have hbyte : ∀ j < 4, (ofWords w (4 * k + j)).toNat = w k / 256 ^ j % 256 := by
    intro j hj
    rw [ofWords, UInt8.toNat_ofNat', show (4 * k + j) / 4 = k by omega,
      show (4 * k + j) % 4 = j by omega]
  have h0 := hbyte 0 (by decide)
  have h1 := hbyte 1 (by decide)
  have h2 := hbyte 2 (by decide)
  have h3 := hbyte 3 (by decide)
  simp only [read32, readLE, Nat.add_assoc, Nat.reduceAdd]
  rw [h1, h2, h3, show ofWords w (4 * k) = ofWords w (4 * k + 0) from rfl, h0]
  simp only [Nat.reducePow]
  omega

end SynapseKernel.ByteMemory
