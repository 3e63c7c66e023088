import SynapseKernel.Str.Compare

/-! # Searching for a string in memory (lib/string.c)

`strstr` with its needle in memory, too, and with the cursors that it reads at. It returns what
the search for the text of the needle returns (`strstr_eq`), so it finds the first occurrence,
and it reads both strings up to their NULs only. -/
namespace SynapseKernel.Str
open SynapseKernel.Word SynapseKernel.ByteMemory

namespace InMemory

/-- The inner loop of `strstr`: where `n_ptr` is when it is left. -/
def matchFrom (m : Mem) : Nat → Nat → Nat → Reading (Option Nat)
  | 0, _, _ => ⟨none, [], []⟩
  | fuel + 1, hPtr, nPtr =>
    if char m nPtr = 0 then ⟨some nPtr, [], [nPtr]⟩
    else if char m hPtr = char m nPtr then
      (matchFrom m fuel (hPtr + 1) (nPtr + 1)).after [hPtr] [nPtr]
    else ⟨some nPtr, [hPtr], [nPtr]⟩

/-- The outer loop; `none` if it goes on after `fuel` rounds. -/
def strstrFrom (m : Mem) (needle : Nat) : Nat → Nat → Reading (Option (Option Nat))
  | 0, _ => ⟨none, [], []⟩
  | fuel + 1, h =>
    if char m h = 0 then ⟨some none, [h], []⟩
    else
      let inner := matchFrom m loopFuel h needle
      match inner.result with
      | none => ⟨none, h :: inner.reads1, inner.reads2⟩
      | some nPtr =>
        if char m nPtr = 0 then ⟨some (some h), h :: inner.reads1, inner.reads2 ++ [nPtr]⟩
        else (strstrFrom m needle fuel (h + 1)).after (h :: inner.reads1) (inner.reads2 ++ [nPtr])

def strstr (m : Mem) (haystack needle : Nat) : Reading (Option (Option Nat)) :=
  if char m needle = 0 then ⟨some (some haystack), [], [needle]⟩
  else (strstrFrom m needle loopFuel haystack).after [] [needle]

end InMemory

variable {m : Mem} {p q fuel : Nat} {text needle : List UInt8}

/-- What the inner loop leads to: its end is at the needle's NUL if and only if the needle
stands there. -/
structure Matches (m : Mem) (p q : Nat) (text needle : List UInt8) (r : Reading (Option Nat))
    (nPtr : Nat) : Prop where
  result : r.result = some nPtr
  end_iff : char m nPtr = 0 ↔ startsWith m p needle = true
  inside : q ≤ nPtr ∧ nPtr ≤ q + needle.length
  within : r.Within p text.length q needle.length

theorem matchFrom_spec (hm : Holds m p text) (hn : Holds m q needle) (hn0 : 0 ∉ needle)
    (hfuel : needle.length < fuel) :
    ∃ nPtr, Matches m p q text needle (InMemory.matchFrom m fuel p q) nPtr := by
  induction needle generalizing p q text fuel with
  | nil =>
    obtain ⟨fuel, rfl⟩ := Nat.exists_eq_succ_of_ne_zero (Nat.ne_zero_of_lt hfuel)
    have hnul : char m q = 0 := hn
    rw [InMemory.matchFrom, if_pos hnul]
    refine ⟨q, rfl, iff_of_true hnul rfl, ⟨Nat.le_refl q, Nat.le_refl q⟩, ?_, ?_⟩
    · exact fun _ hx => absurd hx List.not_mem_nil
    · exact start_in_string q 0
  | cons b needle ih =>
    obtain ⟨fuel, rfl⟩ := Nat.exists_eq_succ_of_ne_zero (Nat.ne_zero_of_lt hfuel)
    obtain ⟨hb, hn0⟩ := cons_notMem_nul hn0
    rw [InMemory.matchFrom, hn.1, if_neg hb]
    by_cases heq : char m p = b
    · cases text with
      | nil =>
        have hnul : char m p = 0 := hm
        exact absurd (heq.symm.trans hnul) hb
      | cons c text =>
        obtain ⟨nPtr, h⟩ := ih hm.2 hn.2 hn0 (Nat.lt_of_succ_lt_succ hfuel)
        rw [if_pos heq]
        refine ⟨nPtr, h.result, ?_, ?_, h.within.after⟩
        · rw [h.end_iff, startsWith, heq, beq_self_eq_true, Bool.true_and]
        · have hin := h.inside
          rw [List.length_cons]
          omega
    · rw [if_neg heq]
      refine ⟨q, rfl, iff_of_false ?_ ?_, ⟨Nat.le_refl q, Nat.le_add_right _ _⟩,
        within_single _ _ _ _ _⟩
      · rw [hn.1]
        exact hb
      · rw [startsWith, beq_false_of_ne heq, Bool.false_and]
        exact Bool.false_ne_true

/-- The reads of a round of the outer loop. -/
theorem Matches.round {r : Reading (Option Nat)} {nPtr : Nat}
    (h : Matches m p q text needle r nPtr) :
    (∀ x ∈ p :: r.reads1, p ≤ x ∧ x ≤ p + text.length) ∧
      ∀ x ∈ r.reads2 ++ [nPtr], q ≤ x ∧ x ≤ q + needle.length := by
  refine ⟨List.forall_mem_cons.mpr ⟨by omega, h.within.first⟩,
    List.forall_mem_append.mpr ⟨h.within.second, fun x hx => ?_⟩⟩
  obtain rfl := List.mem_singleton.mp hx
  exact h.inside

/-- The search finds what the search for the text of the needle finds. -/
theorem strstrFrom_spec (hm : Holds m p text) (h0 : 0 ∉ text) (hn : Holds m q needle)
    (hn0 : 0 ∉ needle) (fuel : Nat) :
    (InMemory.strstrFrom m q fuel p).result = strstrFrom m needle fuel p ∧
      (InMemory.strstrFrom m q fuel p).Within p text.length q needle.length := by
  induction fuel generalizing p text with
  | zero =>
    exact ⟨rfl, fun _ hx => absurd hx List.not_mem_nil, fun _ hx => absurd hx List.not_mem_nil⟩
  | succ fuel ih =>
    rw [InMemory.strstrFrom, strstrFrom]
    cases text with
    | nil =>
      have hnul : char m p = 0 := hm
      rw [if_pos hnul, if_pos hnul]
      refine ⟨rfl, start_in_string p 0, ?_⟩
      exact fun _ hx => absurd hx List.not_mem_nil
    | cons c text =>
      obtain ⟨hc, h0⟩ := cons_notMem_nul h0
      have hchar : char m p ≠ 0 := hm.1.symm ▸ hc
      obtain ⟨nPtr, h⟩ := matchFrom_spec hm hn hn0 (hn.length_lt hn0)
      obtain ⟨hround1, hround2⟩ := h.round
      rw [if_neg hchar, if_neg hchar]
      simp only [h.result]
      by_cases hend : char m nPtr = 0
      · rw [if_pos hend, if_pos (h.end_iff.mp hend)]
        exact ⟨rfl, hround1, hround2⟩
      · rw [if_neg hend, if_neg (mt h.end_iff.mpr hend)]
        obtain ⟨hresult, hwithin⟩ := ih hm.2 h0
        refine ⟨hresult, List.forall_mem_append.mpr ⟨hround1, fun x hx => ?_⟩,
          List.forall_mem_append.mpr ⟨hround2, hwithin.second⟩⟩
        have hin := hwithin.first x hx
        rw [List.length_cons]
        omega

theorem strstr_eq (hm : Holds m p text) (h0 : 0 ∉ text) (hn : Holds m q needle)
    (hn0 : 0 ∉ needle) :
    (InMemory.strstr m p q).result = strstr m p needle ∧
      (InMemory.strstr m p q).Within p text.length q needle.length := by
  rw [InMemory.strstr, strstr]
  cases needle with
  | nil =>
    have hnul : char m q = 0 := hn
    rw [if_pos hnul, if_pos rfl]
    refine ⟨rfl, ?_, start_in_string q 0⟩
    exact fun _ hx => absurd hx List.not_mem_nil
  | cons b needle =>
    have hchar : char m q ≠ 0 := hn.1.symm ▸ (cons_notMem_nul hn0).1
    obtain ⟨hresult, hwithin⟩ := strstrFrom_spec hm h0 hn hn0 loopFuel
    rw [if_neg hchar, if_neg (List.cons_ne_nil b needle)]
    exact ⟨hresult, hwithin.first, List.forall_mem_cons.mpr ⟨by omega, hwithin.second⟩⟩

/-- **`strstr` finds the first occurrence.** For all strings in memory it returns: the start
for an empty needle, `NULL` exactly when the needle is nowhere in the text, and else the
lowest position where it is. It reads nothing behind either NUL. -/
theorem strstr_finds_first (hm : Holds m p text) (h0 : 0 ∉ text) (hn : Holds m q needle)
    (hn0 : 0 ∉ needle) :
    (∃ r, (InMemory.strstr m p q).result = some r ∧ (needle = [] → r = some p) ∧
      (r = none ↔ ¬ needle <:+: text) ∧
      ∀ x, r = some x → ∃ pre rest, FirstAt needle text pre rest ∧ x = p + pre.length) ∧
    (InMemory.strstr m p q).Within p text.length q needle.length := by
  obtain ⟨hresult, hwithin⟩ := strstr_eq hm h0 hn hn0
  refine ⟨?_, hwithin⟩
  by_cases hne : needle = []
  · subst hne
    refine ⟨some p, ?_, fun _ => rfl, ?_, fun x hx => ⟨[], text, ?_, ?_⟩⟩
    · rw [hresult, strstr, if_pos rfl]
    · exact iff_of_false (Option.some_ne_none p) (not_not.mpr List.nil_infix)
    · exact ⟨rfl, fun _ _ _ => Nat.zero_le _⟩
    · exact (Option.some.inj hx).symm
  by_cases hin : needle <:+: text
  · obtain ⟨pre, rest, hf⟩ := exists_firstAt hin
    refine ⟨some (p + pre.length), ?_, fun he => absurd he hne, ?_, fun x hx => ?_⟩
    · rw [hresult, hm.strstr_first h0 hn0 hne hf]
    · exact iff_of_false (Option.some_ne_none _) (not_not.mpr hin)
    · exact ⟨pre, rest, hf, (Option.some.inj hx).symm⟩
  · refine ⟨none, ?_, fun he => absurd he hne, iff_of_true rfl hin, fun x hx => ?_⟩
    · rw [hresult, (hm.strstr_eq_none_iff h0 hn0 hne).mpr hin]
    · cases hx

/-- `b` in `ab`. -/
theorem strstr_finds_first_letter :
    ∃ r, (InMemory.strstr (place [97, 98, 0, 98]) 0 3).result = some r ∧ r ≠ none := by
  have hnul : char (place [97, 98, 0, 98]) 2 = 0 ∧ char (place [97, 98, 0, 98]) 4 = 0 := by
    decide
  have hab : Holds (place [97, 98, 0, 98]) 0 (ascii ['a', 'b']) :=
    ⟨by decide, by decide, hnul.1⟩
  have hb : Holds (place [97, 98, 0, 98]) 3 (ascii ['b']) := ⟨by decide, hnul.2⟩
  obtain ⟨⟨r, hr, -, hnone, -⟩, -⟩ := strstr_finds_first hab (by decide) hb (by decide)
  refine ⟨r, hr, fun he => hnone.mp he ?_⟩
  exact ⟨ascii ['a'], [], rfl⟩

end SynapseKernel.Str
