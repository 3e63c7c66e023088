import Mathlib.Data.Nat.Find
import SynapseKernel.Str.Memory

/-! # Where the loops over a string stop

`strstr` stops at the first occurrence of what it looks for, and the loops that skip
and copy run over as much of the string as they test for, so that each leads to a
position where a known rest of the string stands. -/
namespace SynapseKernel.Str
open SynapseKernel.Word SynapseKernel.ByteMemory

variable {m : Mem} {p : Nat} {a b c pre rest s text needle skipped : List UInt8}

/-- `needle` stands in the text behind `pre`, and nowhere before. -/
def FirstAt (needle text pre rest : List UInt8) : Prop :=
  text = pre ++ (needle ++ rest) ∧ ∀ a b, text = a ++ (needle ++ b) → pre.length ≤ a.length

/-- What is one byte behind the first place. -/
theorem FirstAt.behind {d : UInt8} (h : FirstAt needle text pre (d :: rest)) :
    text = (pre ++ (needle ++ [d])) ++ rest ∧
      (pre ++ (needle ++ [d])).length = pre.length + (needle.length + 1) := by
  rw [List.length_append, List.length_append, List.length_singleton, h.1, List.append_assoc,
    List.append_assoc, List.singleton_append]
  exact ⟨rfl, rfl⟩

/-- Looking at every place of a text. -/
theorem firstAt_of_forall (htext : text = pre ++ (needle ++ rest))
    (h : ∀ k < text.length + 1, needle <+: text.drop k → pre.length ≤ k) :
    FirstAt needle text pre rest := by
  refine ⟨htext, fun a b he => ?_⟩
  have hlen : a.length < text.length + 1 := by
    rw [he, List.length_append]
    omega
  refine h a.length hlen ?_
  rw [he, List.drop_left]
  exact List.prefix_append needle b

/-- What stands in a text has a first place in it. -/
theorem exists_firstAt (h : needle <:+: text) : ∃ pre rest, FirstAt needle text pre rest := by
  classical
  obtain ⟨a, b, he⟩ := h
  rw [List.append_assoc] at he
  have hex : ∃ n a b, text = a ++ (needle ++ b) ∧ a.length = n := ⟨_, a, b, he.symm, rfl⟩
  obtain ⟨pre, rest, hpre, hlen⟩ := Nat.find_spec hex
  refine ⟨pre, rest, hpre, fun a b he => ?_⟩
  rw [hlen]
  exact Nat.find_min' hex ⟨a, b, he, rfl⟩

/-- Nothing is dropped in front of an element that stays. -/
theorem dropWhile_of_head {α : Type} {keep : α → Bool} {l : List α}
    (h : ∀ b ∈ l.head?, keep b = false) : l.dropWhile keep = l := by
  cases l with
  | nil => rfl
  | cons b l => exact List.dropWhile_cons_of_neg (by rw [h b rfl]; exact Bool.false_ne_true)

/-- What is dropped in front of an element that stays is dropped before it. -/
theorem dropWhile_append_head {α : Type} {keep : α → Bool} {l r : List α}
    (h : ∀ b ∈ r.head?, keep b = false) : (l ++ r).dropWhile keep = l.dropWhile keep ++ r := by
  rw [List.dropWhile_append, dropWhile_of_head h]
  split
  · rename_i hnil
    rw [List.isEmpty_iff.mp hnil, List.nil_append]
  · rfl

/-! ## Strings in memory -/

theorem Holds.append_right (h : Holds m p (a ++ b)) : Holds m (p + a.length) b := by
  induction a generalizing p with
  | nil => exact h
  | cons c a ih =>
    have hrest := ih h.2
    rwa [Nat.add_assoc, Nat.add_comm 1] at hrest

theorem Holds.char_head (h : Holds m p s) : char m p = s.headD 0 := by
  cases s with
  | nil => exact h
  | cons c s => exact h.1

/-- A string ends before memory repeats. -/
theorem Holds.length_lt (h : Holds m p s) (h0 : 0 ∉ s) : s.length < loopFuel := by
  obtain ⟨k, hk, hnul⟩ := h.comes_back p
  refine Nat.lt_of_le_of_lt (Nat.le_of_not_lt fun hlt => h0 ?_) hk
  rw [← List.take_append_drop k s] at h
  have hat := h.append_right.char_head
  rw [List.length_take_of_le (Nat.le_of_lt hlt), hnul, List.drop_eq_getElem_cons hlt,
    List.headD_cons] at hat
  rw [hat]
  exact List.getElem_mem hlt

/-! ## What the loops return -/

theorem strstrFrom_first (h : Holds m p text) (h0 : 0 ∉ text) (hn : 0 ∉ needle) (hne : needle ≠ [])
    (hf : FirstAt needle text pre rest) {fuel : Nat} (hfuel : pre.length < fuel) :
    strstrFrom m needle fuel p = some (some (p + pre.length)) := by
  induction pre generalizing p text fuel with
  | nil =>
    obtain ⟨fuel, rfl⟩ := Nat.exists_eq_succ_of_ne_zero (Nat.ne_of_gt hfuel)
    have hstart : startsWith m p needle = true := by
      rw [startsWith_iff h hn, hf.1]
      exact List.prefix_append needle rest
    have hchar : char m p ≠ 0 := by
      have htext : text ≠ [] := by
        rw [hf.1]
        exact List.append_ne_nil_of_left_ne_nil hne rest
      obtain ⟨c, text, rfl⟩ := List.exists_cons_of_ne_nil htext
      rw [h.1]
      exact fun hc => h0 (hc ▸ List.mem_cons_self)
    rw [strstrFrom, if_neg hchar, if_pos hstart, List.length_nil, Nat.add_zero]
  | cons c pre ih =>
    obtain ⟨fuel, rfl⟩ := Nat.exists_eq_succ_of_ne_zero (Nat.ne_zero_of_lt hfuel)
    obtain ⟨htext, hfirst⟩ := hf
    rw [List.cons_append] at htext
    have hchar : char m p ≠ 0 := by
      rw [htext] at h
      rw [h.1]
      exact fun hc => h0 (htext ▸ hc ▸ List.mem_cons_self)
    have hstart : ¬ startsWith m p needle = true := by
      rw [startsWith_iff h hn]
      rintro ⟨b, hb⟩
      have hle := hfirst [] b hb.symm
      exact absurd hle (Nat.not_succ_le_zero _)
    rw [strstrFrom, if_neg hchar, if_neg hstart]
    have hrest : FirstAt needle (pre ++ (needle ++ rest)) pre rest := by
      refine ⟨rfl, fun a b he => ?_⟩
      have hle := hfirst (c :: a) b (by rw [htext, he, List.cons_append])
      exact Nat.le_of_succ_le_succ hle
    rw [htext] at h h0
    rw [ih h.2 (fun hm => h0 (List.mem_cons_of_mem _ hm)) hrest (Nat.lt_of_succ_lt_succ hfuel),
      List.length_cons, Nat.add_assoc, Nat.add_comm 1]

/-- **`strstr` finds the first occurrence.** -/
theorem Holds.strstr_first (h : Holds m p text) (h0 : 0 ∉ text) (hn : 0 ∉ needle)
    (hne : needle ≠ []) (hf : FirstAt needle text pre rest) :
    strstr m p needle = some (some (p + pre.length)) := by
  rw [strstr, if_neg hne]
  refine strstrFrom_first h h0 hn hne hf (Nat.lt_of_le_of_lt ?_ (h.length_lt h0))
  rw [hf.1, List.length_append]
  exact Nat.le_add_right _ _

theorem skipFrom_eq (h : Holds m p text) (h0 : 0 ∉ skipped) {fuel : Nat}
    (hfuel : text.length < fuel) :
    skipFrom m skipped fuel p = some (p + (text.takeWhile (· ∈ skipped)).length) := by
  induction text generalizing p fuel with
  | nil =>
    obtain ⟨fuel, rfl⟩ := Nat.exists_eq_succ_of_ne_zero (Nat.ne_of_gt hfuel)
    have hnul : char m p = 0 := h
    rw [skipFrom, hnul, if_neg h0, List.takeWhile_nil, List.length_nil, Nat.add_zero]
  | cons c text ih =>
    obtain ⟨fuel, rfl⟩ := Nat.exists_eq_succ_of_ne_zero (Nat.ne_zero_of_lt hfuel)
    rw [skipFrom, h.1]
    by_cases hc : c ∈ skipped
    · rw [if_pos hc, ih h.2 (Nat.lt_of_succ_lt_succ hfuel),
        List.takeWhile_cons, if_pos (decide_eq_true hc), List.length_cons, Nat.add_assoc,
        Nat.add_comm 1]
    · rw [if_neg hc, List.takeWhile_cons, if_neg (by rw [decide_eq_true_eq]; exact hc),
        List.length_nil, Nat.add_zero]

/-- **Skipping** leads behind all that is skipped. -/
theorem Holds.skip_eq (h : Holds m p text) (hnul : 0 ∉ text) (h0 : 0 ∉ skipped) :
    ∃ q, skip m skipped p = some q ∧ q = p + (text.takeWhile (· ∈ skipped)).length ∧
      Holds m q (text.dropWhile (· ∈ skipped)) := by
  refine ⟨_, skipFrom_eq h h0 (h.length_lt hnul), rfl, ?_⟩
  rw [← List.takeWhile_append_dropWhile (p := fun c => decide (c ∈ skipped)) (l := text)] at h
  exact h.append_right

/-- **Copying** takes what stands before the stop, as far as there is room. -/
theorem Holds.copyUntil_eq (h : Holds m p text) (h0 : 0 ∉ text) (stop : UInt8) (room : Nat) :
    copyUntil m stop room p = (text.takeWhile (· ≠ stop)).take room := by
  induction text generalizing p room with
  | nil =>
    have hnul : char m p = 0 := h
    cases room with
    | zero => rfl
    | succ room =>
      rw [copyUntil, if_pos (.inl hnul)]
      rfl
  | cons c text ih =>
    obtain ⟨hc, hrest⟩ := not_or.mp (mt List.mem_cons.mpr h0)
    cases room with
    | zero => rfl
    | succ room =>
      rw [copyUntil, h.1]
      by_cases hstop : c = stop
      · rw [if_pos (.inr hstop), List.takeWhile_cons, if_neg, List.take_nil]
        rw [decide_eq_true_eq]
        exact not_not.mpr hstop
      · rw [if_neg (not_or.mpr ⟨fun he => hc he.symm, hstop⟩), ih h.2 hrest,
          List.takeWhile_cons, if_pos (decide_eq_true hstop), List.take_succ_cons]

end SynapseKernel.Str
