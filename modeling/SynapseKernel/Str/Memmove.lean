import SynapseKernel.Lib.ByteMemory
import SynapseKernel.Lib.Copying
import SynapseKernel.Lib.Word

/-! # Copying bytes (lib/mem.c)

`memcpy` goes up from the first byte; `memmove` goes up if its destination is below its source,
and else down from the last byte. Where neither region wraps around the end of memory the loops
are those of `Copying`, so that `memmove` is right for every overlap. -/
namespace SynapseKernel.Str
open SynapseKernel.Word SynapseKernel.ByteMemory SynapseKernel.Copying

/-- `while (n--) *d++ = *s++;`. -/
def copyUpFrom : Nat → Mem → Nat → Nat → Mem
  | 0, m, _, _ => m
  | n + 1, m, d, s => copyUpFrom n (Function.update m d (m s)) (u32 (d + 1)) (u32 (s + 1))

/-- `while (n--) *--d = *--s;`. -/
def copyDownFrom : Nat → Mem → Nat → Nat → Mem
  | 0, m, _, _ => m
  | n + 1, m, d, s =>
    let d := sub32 d 1
    let s := sub32 s 1
    copyDownFrom n (Function.update m d (m s)) d s

/-- `dest` is returned. -/
def memcpy (m : Mem) (dest src n : Nat) : Mem := copyUpFrom n m dest src

/-- `dest` is returned. -/
def memmove (m : Mem) (dest src n : Nat) : Mem :=
  if dest < src then copyUpFrom n m dest src
  else copyDownFrom n m (u32 (dest + n)) (u32 (src + n))

variable {m : Mem} {dest src n : Nat}

theorem copyUpFrom_eq (hd : dest + n ≤ 2 ^ 32) (hs : src + n ≤ 2 ^ 32) :
    copyUpFrom n m (u32 dest) (u32 src) = copyUp n m dest src := by
  induction n generalizing m dest src with
  | zero => rfl
  | succ n ih =>
    rw [copyUpFrom, u32_of_lt (show dest < 2 ^ 32 by omega),
      u32_of_lt (show src < 2 ^ 32 by omega), ih (by omega) (by omega), copyUp]

/-- A cursor behind a byte of memory goes back to it, also from behind the last one. -/
theorem sub32_u32_succ {p : Nat} (hp : p < 2 ^ 32) : sub32 (u32 (p + 1)) 1 = p := by
  unfold sub32 u32
  omega

theorem copyDownFrom_eq (hd : dest + n ≤ 2 ^ 32) (hs : src + n ≤ 2 ^ 32) :
    copyDownFrom n m (u32 (dest + n)) (u32 (src + n)) = copyDown n m dest src := by
  induction n generalizing m with
  | zero => rfl
  | succ n ih =>
    rw [copyDownFrom, ← Nat.add_assoc, ← Nat.add_assoc, sub32_u32_succ (by omega),
      sub32_u32_succ (by omega), copyDown, ← ih (by omega) (by omega),
      u32_of_lt (show dest + n < 2 ^ 32 by omega), u32_of_lt (show src + n < 2 ^ 32 by omega)]

theorem memcpy_eq (hdest : dest < 2 ^ 32) (hsrc : src < 2 ^ 32) (hd : dest + n ≤ 2 ^ 32)
    (hs : src + n ≤ 2 ^ 32) (h : dest ≤ src ∨ src + n ≤ dest) :
    memcpy m dest src n = moved m dest src n := by
  have hloop := @copyUpFrom_eq m dest src n hd hs
  rw [u32_of_lt hdest, u32_of_lt hsrc] at hloop
  rw [memcpy, hloop, copyUp_eq h]

theorem memmove_eq (hdest : dest < 2 ^ 32) (hsrc : src < 2 ^ 32) (hd : dest + n ≤ 2 ^ 32)
    (hs : src + n ≤ 2 ^ 32) : memmove m dest src n = moved m dest src n := by
  rw [memmove]
  by_cases hlt : dest < src
  · rw [if_pos hlt]
    exact memcpy_eq hdest hsrc hd hs (.inl (Nat.le_of_lt hlt))
  · rw [if_neg hlt, copyDownFrom_eq hd hs, copyDown_eq (.inl (Nat.le_of_not_lt hlt))]

/-- **`memmove` is right for every overlap.** For every memory and all regions that do not wrap,
the destination holds the bytes that the source held, and all other bytes are as they were.
`memcpy` does the same where the destination does not begin inside of the source. -/
theorem memmove_moves (m : Mem) (hdest : dest < 2 ^ 32) (hsrc : src < 2 ^ 32)
    (hd : dest + n ≤ 2 ^ 32) (hs : src + n ≤ 2 ^ 32) :
    (∀ i < n, memmove m dest src n (dest + i) = m (src + i)) ∧
      (∀ a, a < dest ∨ dest + n ≤ a → memmove m dest src n a = m a) ∧
      (dest ≤ src ∨ dest + n ≤ src ∨ src + n ≤ dest →
        memcpy m dest src n = memmove m dest src n) := by
  rw [memmove_eq hdest hsrc hd hs]
  refine ⟨fun i hi => moved_inside hi, fun a ha => moved_outside ha, fun h => ?_⟩
  exact memcpy_eq hdest hsrc hd hs (by omega)

/-- Two bytes up by one, to the end of memory. -/
theorem memmove_moves_end :
    memmove (fun a => UInt8.ofNat a) (2 ^ 32 - 2) (2 ^ 32 - 3) 2 (2 ^ 32 - 2 + 1) =
      UInt8.ofNat (2 ^ 32 - 3 + 1) :=
  (memmove_moves (fun a => UInt8.ofNat a) (by decide) (by decide) (by decide) (by decide)).1 1
    (by decide)

end SynapseKernel.Str
