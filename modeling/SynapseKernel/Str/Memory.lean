import Mathlib.Data.List.Infix
import SynapseKernel.Lib.ByteMemory
import SynapseKernel.Lib.Word
import SynapseKernel.Str.CString

/-! # Strings in memory

`strstr` of lib/string.c on a byte memory, and the two loops its callers run on
from what it returns. An address has 32 bits, so a cursor that has left a
string goes on through all of memory and comes back to it: where a string
stands, every such loop ends at its NUL at the latest (`Holds.comes_back`). -/
namespace SynapseKernel.Str
open SynapseKernel.Word SynapseKernel.ByteMemory

/-- `*p`. -/
def char (m : Mem) (p : Nat) : UInt8 := m (u32 p)

/-- The bytes `s` and then a NUL stand at `p`. -/
def Holds (m : Mem) : Nat → List UInt8 → Prop
  | p, [] => char m p = 0
  | p, b :: s => char m p = b ∧ Holds m (p + 1) s

/-- The inner loop of `strstr`. -/
def startsWith (m : Mem) : Nat → List UInt8 → Bool
  | _, [] => true
  | h, b :: needle => char m h == b && startsWith m (h + 1) needle

/-- The outer loop; `none` if it goes on after `fuel` rounds. -/
def strstrFrom (m : Mem) (needle : List UInt8) : Nat → Nat → Option (Option Nat)
  | 0, _ => none
  | fuel + 1, h =>
    if char m h = 0 then some none
    else if startsWith m h needle then some (some h)
    else strstrFrom m needle fuel (h + 1)

/-- Every loop over memory below gets a round for each address. -/
abbrev loopFuel : Nat := 2 ^ 32

def strstr (m : Mem) (haystack : Nat) (needle : List UInt8) : Option (Option Nat) :=
  if needle = [] then some (some haystack) else strstrFrom m needle loopFuel haystack

/-- `while (*p == ' ' || ..) p++;`. -/
def skipFrom (m : Mem) (skipped : List UInt8) : Nat → Nat → Option Nat
  | 0, _ => none
  | fuel + 1, p => if char m p ∈ skipped then skipFrom m skipped fuel (p + 1) else some p

def skip (m : Mem) (skipped : List UInt8) (p : Nat) : Option Nat := skipFrom m skipped loopFuel p

/-- `while (*p && *p != stop && i < room) buf[i++] = *p++;`: what is copied. -/
def copyUntil (m : Mem) (stop : UInt8) : Nat → Nat → List UInt8
  | 0, _ => []
  | room + 1, p =>
    if char m p = 0 ∨ char m p = stop then [] else char m p :: copyUntil m stop room (p + 1)

variable {m : Mem} {p : Nat} {s needle skipped : List UInt8}

/-- The string `s` at address 0, and NULs after it. -/
def place (s : List UInt8) : Mem := fun a => s.getD a 0

theorem holds_place_after (pre : List UInt8) (hlen : (pre ++ s).length < 2 ^ 32) :
    Holds (place (pre ++ s)) pre.length s := by
  have hchar : char (place (pre ++ s)) pre.length = s.getD 0 0 := by
    rw [char, place, u32_of_lt (by rw [List.length_append] at hlen; omega)]
    simp [List.getD_eq_getElem?_getD, List.getElem?_append_right]
  induction s generalizing pre with
  | nil => exact hchar
  | cons b s ih =>
    have happ : pre ++ b :: s = (pre ++ [b]) ++ s := by simp
    refine ⟨hchar, ?_⟩
    rw [happ] at hlen ⊢
    have hrest := ih (pre ++ [b]) hlen ?_
    · rwa [List.length_append] at hrest
    · rw [char, place, u32_of_lt (by rw [List.length_append] at hlen; omega)]
      simp [List.getD_eq_getElem?_getD, List.getElem?_append_right]

theorem holds_place (hlen : s.length < 2 ^ 32) : Holds (place s) 0 s := holds_place_after [] hlen

/-! ## Every loop ends -/

/-- The string's NUL, seen from its start. -/
theorem Holds.nul (hs : Holds m p s) : char m (p + s.length) = 0 := by
  induction s generalizing p with
  | nil => exact hs
  | cons b s ih =>
    have hrest := ih hs.2
    rwa [Nat.add_assoc, Nat.add_comm 1] at hrest

/-- From any address on there is a NUL before memory repeats. -/
theorem Holds.comes_back (hs : Holds m p s) (x : Nat) : ∃ k < loopFuel, char m (x + k) = 0 := by
  refine ⟨u32 (p + s.length + (2 ^ 32 - u32 x)), u32_lt _, ?_⟩
  have hsame : u32 (x + u32 (p + s.length + (2 ^ 32 - u32 x))) = u32 (p + s.length) := by
    unfold u32
    omega
  rw [char, hsame]
  exact hs.nul

theorem skipFrom_isSome {fuel k : Nat} (hk : k < fuel) (h0 : 0 ∉ skipped)
    (hnul : char m (p + k) = 0) : ∃ r, skipFrom m skipped fuel p = some r := by
  induction fuel generalizing p k with
  | zero => exact absurd hk (Nat.not_lt_zero k)
  | succ fuel ih =>
    rw [skipFrom]
    by_cases hin : char m p ∈ skipped
    · rw [if_pos hin]
      cases k with
      | zero => exact absurd (hnul ▸ hin) h0
      | succ k => exact ih (Nat.lt_of_succ_lt_succ hk) (by rwa [Nat.add_assoc, Nat.add_comm 1])
    · exact ⟨p, if_neg hin⟩

/-- A loop that stops at a NUL ends, wherever it starts. -/
theorem Holds.skip_isSome (hs : Holds m p s) (h0 : 0 ∉ skipped) (x : Nat) :
    ∃ r, skip m skipped x = some r := by
  obtain ⟨k, hk, hnul⟩ := hs.comes_back x
  exact skipFrom_isSome hk h0 hnul

theorem strstrFrom_isSome {fuel k : Nat} (hk : k < fuel) (hnul : char m (p + k) = 0) :
    ∃ r, strstrFrom m needle fuel p = some r := by
  induction fuel generalizing p k with
  | zero => exact absurd hk (Nat.not_lt_zero k)
  | succ fuel ih =>
    rw [strstrFrom]
    split
    · exact ⟨none, rfl⟩
    · rename_i hne
      split
      · exact ⟨some p, rfl⟩
      · cases k with
        | zero => exact absurd hnul hne
        | succ k => exact ih (Nat.lt_of_succ_lt_succ hk) (by rwa [Nat.add_assoc, Nat.add_comm 1])

theorem Holds.strstr_isSome (hs : Holds m p s) (needle : List UInt8) (x : Nat) :
    ∃ r, strstr m x needle = some r := by
  rw [strstr]
  split
  · exact ⟨some x, rfl⟩
  · obtain ⟨k, hk, hnul⟩ := hs.comes_back x
    exact strstrFrom_isSome hk hnul

/-! ## What `strstr` finds -/

theorem startsWith_iff (hs : Holds m p s) (h0 : 0 ∉ needle) :
    startsWith m p needle = true ↔ needle <+: s := by
  induction needle generalizing p s with
  | nil => exact ⟨fun _ => List.nil_prefix, fun _ => rfl⟩
  | cons b needle ih =>
    obtain ⟨hb, hrest⟩ := not_or.mp (mt List.mem_cons.mpr h0)
    rw [startsWith, Bool.and_eq_true, beq_iff_eq]
    cases s with
    | nil =>
      have hnul : char m p = 0 := hs
      rw [hnul]
      exact ⟨fun h => absurd h.1 hb, fun h => absurd (List.prefix_nil.mp h) (List.cons_ne_nil _ _)⟩
    | cons c s =>
      obtain ⟨hc, hs⟩ := hs
      rw [hc, ih hs hrest, List.cons_prefix_cons]
      exact and_congr_left fun _ => eq_comm

theorem strstrFrom_eq_none_iff (hs : Holds m p s) (hsne : 0 ∉ s) (h0 : 0 ∉ needle)
    (hne : needle ≠ []) {fuel : Nat} {r : Option Nat} (hr : strstrFrom m needle fuel p = some r) :
    r = none ↔ ¬ needle <:+: s := by
  induction s generalizing p fuel with
  | nil =>
    have hnul : char m p = 0 := hs
    cases fuel with
    | zero => cases hr
    | succ fuel =>
      rw [strstrFrom, if_pos hnul] at hr
      obtain rfl := Option.some.inj hr
      exact ⟨fun _ hin => hne (List.infix_nil.mp hin), fun _ => rfl⟩
  | cons b s ih =>
    obtain ⟨hb, hrest⟩ := not_or.mp (mt List.mem_cons.mpr hsne)
    cases fuel with
    | zero => cases hr
    | succ fuel =>
      rw [strstrFrom, if_neg (by rw [hs.1]; exact fun h => hb h.symm)] at hr
      rw [List.infix_cons_iff, ← startsWith_iff hs h0]
      split at hr
      · rename_i hstart
        obtain rfl := Option.some.inj hr
        exact ⟨fun h => (by cases h), fun h => absurd (.inl hstart) h⟩
      · rename_i hstart
        rw [ih hs.2 hrest hr]
        exact ⟨fun h => not_or.mpr ⟨hstart, h⟩, fun h => (not_or.mp h).2⟩

/-- **`strstr` returns `NULL` exactly when the needle is nowhere in the string.** -/
theorem Holds.strstr_eq_none_iff (hs : Holds m p s) (hsne : 0 ∉ s) (h0 : 0 ∉ needle)
    (hne : needle ≠ []) : strstr m p needle = some none ↔ ¬ needle <:+: s := by
  obtain ⟨r, hr⟩ := hs.strstr_isSome needle p
  have hr' := hr
  rw [strstr, if_neg hne] at hr'
  rw [hr, ← strstrFrom_eq_none_iff hs hsne h0 hne hr', Option.some.injEq]

end SynapseKernel.Str
