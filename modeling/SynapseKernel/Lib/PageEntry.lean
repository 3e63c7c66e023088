import SynapseKernel.Lib.Bitmap

/-! # Page frames and page table entries

A frame of 4096 bytes holds 1024 words. A word is a page table entry: its high
twenty bits name a frame, its lowest bit says whether it names one at all
(`Encodes`). The lemmas say how a store to one frame is seen from another, and
how the masks a C program applies to addresses and entries relate to division. -/
namespace SynapseKernel.PageEntry
open SynapseKernel.Word SynapseKernel.ByteMemory SynapseKernel.Bitmap

/-- Word `k` of the frame `f`. -/
def frameWord (m : Mem) (f k : Nat) : Nat := read32 m (f * 4096 + 4 * k)

def setFrameWord (m : Mem) (f k v : Nat) : Mem := write32 m (f * 4096 + 4 * k) v

theorem frameWord_lt (m : Mem) (f k : Nat) : frameWord m f k < 2 ^ 32 := read32_lt _ _

/-! ## Stores seen from a frame -/

theorem frameWord_setFrameWord (m : Mem) (f k v : Nat) :
    frameWord (setFrameWord m f k v) f k = v % 2 ^ 32 := read32_write32 _ _ _

theorem frameWord_setFrameWord_ne {m : Mem} {f k g l v : Nat} (hk : k < 1024) (hl : l < 1024)
    (h : f ≠ g ∨ k ≠ l) : frameWord (setFrameWord m f k v) g l = frameWord m g l :=
  read32_write32_ne (by omega)

theorem frameWord_fill {m : Mem} {f k : Nat} (hk : k < 1024) :
    frameWord (fill m (f * 4096) 4096 0) f k = 0 :=
  readLE_fill_zero (by omega) (by omega)

theorem frameWord_fill_ne {m : Mem} {f g k : Nat} {v : UInt8} (hk : k < 1024) (h : f ≠ g) :
    frameWord (fill m (f * 4096) 4096 v) g k = frameWord m g k :=
  readLE_fill_of_disjoint (by omega)

/-! ## A bitmap in a frame of its own -/

/-- The words of the bitmap of 32768 frames that starts at frame `b`. -/
theorem wordAddr_bounds {b i : Nat} (hi : i < 32768) :
    b * 4096 ≤ wordAddr (b * 4096) i ∧ wordAddr (b * 4096) i + 4 ≤ b * 4096 + 4096 := by
  unfold wordAddr
  omega

theorem frameWord_setBit {m : Mem} {b i f k : Nat} (hi : i < 32768) (hk : k < 1024) (h : f ≠ b) :
    frameWord (setBit m (b * 4096) i) f k = frameWord m f k := by
  have hw := wordAddr_bounds (b := b) hi
  exact read32_write32_ne (by omega)

theorem frameWord_clearBit {m : Mem} {b i f k : Nat} (hi : i < 32768) (hk : k < 1024)
    (h : f ≠ b) : frameWord (clearBit m (b * 4096) i) f k = frameWord m f k := by
  have hw := wordAddr_bounds (b := b) hi
  exact read32_write32_ne (by omega)

theorem bit_setFrameWord {m : Mem} {b i f k v : Nat} (hi : i < 32768) (hk : k < 1024)
    (h : f ≠ b) : bit (setFrameWord m f k v) (b * 4096) i = bit m (b * 4096) i := by
  have hw := wordAddr_bounds (b := b) hi
  exact bit_congr fun a ha ha' => writeLE_frame (by omega)

theorem bit_fill {m : Mem} {b i f : Nat} {v : UInt8} (hi : i < 32768) (h : f ≠ b) :
    bit (fill m (f * 4096) 4096 v) (b * 4096) i = bit m (b * 4096) i := by
  have hw := wordAddr_bounds (b := b) hi
  exact bit_congr fun a ha ha' => fill_frame (by omega)

/-! ## Entries -/

/-- The entry `e` is present and names the frame, or is not present. -/
def Encodes (e : Nat) : Option Nat → Prop
  | none => e % 2 = 0
  | some f => e / 4096 = f ∧ e % 2 = 1

theorem land_page {x : Nat} (hx : x < 2 ^ 32) : x &&& 0xFFFFF000 = x / 4096 * 4096 :=
  land_high_mask (n := 32) (k := 12) hx (by decide)

theorem land_offset (x : Nat) : x &&& 0xFFF = x % 4096 := Nat.and_two_pow_sub_one_eq_mod x 12

theorem land_index (x : Nat) : x &&& 0x3FF = x % 1024 := Nat.and_two_pow_sub_one_eq_mod x 10

theorem land_present (x : Nat) : x &&& 1 = x % 2 := Nat.and_one_is_mod x

/-- An address and flags below 4096 make an entry that names the address's frame. -/
theorem entry_eq {x flags : Nat} (hx : x < 2 ^ 32) (hf : flags < 4096) :
    (x &&& 0xFFFFF000) ||| flags ||| 1 = x / 4096 * 4096 + (flags ||| 1) := by
  have hlow : flags ||| 1 < 2 ^ 12 := Nat.or_lt_two_pow hf (by decide)
  rw [land_page hx, Nat.lor_assoc]
  exact lor_low hlow

theorem encodes_entry {x flags : Nat} (hx : x < 2 ^ 32) (hf : flags < 4096) :
    Encodes (((x &&& 0xFFFFF000) ||| flags ||| 1) % 2 ^ 32) (some (x / 4096)) := by
  have hlow : flags ||| 1 < 4096 := Nat.or_lt_two_pow (n := 12) hf (by decide)
  have hodd : (flags ||| 1) % 2 = 1 := by
    rw [Nat.mod_two_eq_one_iff_testBit_zero, Nat.testBit_or]
    exact Bool.or_true _
  rw [entry_eq hx hf]
  refine ⟨?_, ?_⟩ <;> omega

end SynapseKernel.PageEntry
