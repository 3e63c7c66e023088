import SynapseKernel.Str.Memory

/-! # Copying a string into memory

`strcpy` of lib/string.c, and `strcmp` with its first string in memory. The copy
stores the bytes of the string and a NUL (`holds_strcpy`) and nothing else
(`strcpy_frame`), whatever room there is for them. -/
namespace SynapseKernel.Str
open SynapseKernel.Word SynapseKernel.ByteMemory

/-- The loop of `strcpy`. -/
def strcpyFrom : Mem → Nat → List UInt8 → Mem
  | m, dest, [] => Function.update m (u32 dest) 0
  | m, dest, b :: src => strcpyFrom (Function.update m (u32 dest) b) (dest + 1) src

def strcpy (m : Mem) (dest : Nat) (src : CString) : Mem := strcpyFrom m dest src.bytes

/-- The loop of `strcmp`; the bytes of `s2` are not NUL. -/
def strcmpAtFrom (m : Mem) : Nat → List UInt8 → Int
  | s1, [] => (char m s1).toNat - 0
  | s1, b :: s2 =>
    if char m s1 = b then strcmpAtFrom m (s1 + 1) s2 else (char m s1).toNat - b.toNat

def strcmpAt (m : Mem) (s1 : Nat) (s2 : CString) : Int := strcmpAtFrom m s1 s2.bytes

variable {m m' : Mem} {p a : Nat} {s : List UInt8} {name : CString}

theorem strcpyFrom_frame (hp : p + s.length < 2 ^ 32) (ha : a < p ∨ p + s.length < a) :
    strcpyFrom m p s a = m a := by
  induction s generalizing m p with
  | nil =>
    simp only [List.length_nil] at hp ha
    rw [strcpyFrom, u32_of_lt (by omega), Function.update_of_ne (by omega)]
  | cons b s ih =>
    simp only [List.length_cons] at hp ha
    rw [strcpyFrom, ih (by omega) (by omega), u32_of_lt (by omega),
      Function.update_of_ne (by omega)]

/-- The copy stores to the bytes of the string and its NUL only. -/
theorem strcpy_frame (hp : p + name.bytes.length < 2 ^ 32)
    (ha : a < p ∨ p + name.bytes.length < a) : strcpy m p name a = m a :=
  strcpyFrom_frame hp ha

theorem holds_strcpyFrom (hp : p + s.length < 2 ^ 32) : Holds (strcpyFrom m p s) p s := by
  induction s generalizing m p with
  | nil =>
    unfold Holds char strcpyFrom
    exact Function.update_self ..
  | cons b s ih =>
    simp only [List.length_cons] at hp
    refine ⟨?_, ih (by omega)⟩
    unfold char strcpyFrom
    rw [u32_of_lt (by omega), strcpyFrom_frame (by omega) (by omega), Function.update_self]

/-- **What is copied stands at the destination.** -/
theorem holds_strcpy (hp : p + name.bytes.length < 2 ^ 32) :
    Holds (strcpy m p name) p name.bytes :=
  holds_strcpyFrom hp

/-- A string depends on its bytes and its NUL only. -/
theorem Holds.congr (h : Holds m p s) (hp : p + s.length < 2 ^ 32)
    (hm : ∀ a, p ≤ a → a ≤ p + s.length → m' a = m a) : Holds m' p s := by
  have hchar : char m' p = char m p := by
    unfold char
    rw [u32_of_lt (by omega)]
    exact hm p (Nat.le_refl p) (Nat.le_add_right ..)
  induction s generalizing p with
  | nil => exact hchar.trans h
  | cons b s ih =>
    simp only [List.length_cons] at hp hm
    refine ⟨hchar.trans h.1, ih h.2 (by omega) (fun a ha ha' => hm a (by omega) (by omega)) ?_⟩
    unfold char
    rw [u32_of_lt (by omega)]
    exact hm (p + 1) (by omega) (by omega)

theorem strcmpAtFrom_eq_zero (h0 : 0 ∉ s) : strcmpAtFrom m p s = 0 ↔ Holds m p s := by
  induction s generalizing p with
  | nil =>
    unfold strcmpAtFrom Holds
    rw [← UInt8.toNat_inj]
    simp
  | cons b s ih =>
    unfold strcmpAtFrom Holds
    by_cases hb : char m p = b
    · rw [if_pos hb, and_iff_right hb]
      exact ih fun hm => h0 (List.mem_cons_of_mem _ hm)
    · rw [if_neg hb]
      refine iff_of_false (fun he => hb (UInt8.toNat_inj.mp ?_)) fun h => hb h.1
      omega

/-- **`strcmp` is `0` when the other string stands there.** -/
theorem strcmpAt_eq_zero : strcmpAt m p name = 0 ↔ Holds m p name.bytes :=
  strcmpAtFrom_eq_zero name.noNul

end SynapseKernel.Str
