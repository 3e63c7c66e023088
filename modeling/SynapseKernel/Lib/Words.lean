import Mathlib.Logic.Basic

/-! # Fields and words of a list

A separator cuts a list into fields, of which some may be empty; its words are the fields
that are not. A reader that takes one field after the other sees words as long as every
separator it passes stands behind something else (`take_fields_eq_take_words_iff`). -/
namespace SynapseKernel.Words

variable {α : Type} {sep : α} {w l : List α} {ws : List (List α)}

/-- An empty list at the end is left out. -/
def dropEmptyLast : List (List α) → List (List α)
  | [] => []
  | [w] => if w = [] then [] else [w]
  | w :: v :: ws => w :: dropEmptyLast (v :: ws)

theorem dropEmptyLast_cons (h : ws ≠ []) :
    dropEmptyLast (w :: ws) = w :: dropEmptyLast ws := by
  cases ws with
  | nil => exact absurd rfl h
  | cons v ws => rfl

theorem filter_dropEmptyLast (ws : List (List α)) :
    (dropEmptyLast ws).filter (· ≠ []) = ws.filter (· ≠ []) := by
  induction ws with
  | nil => rfl
  | cons w ws ih =>
    cases ws with
    | nil =>
      rw [dropEmptyLast]
      by_cases hw : w = []
      · rw [if_pos hw, hw]
        rfl
      · rw [if_neg hw]
    | cons v ws => rw [dropEmptyLast, List.filter_cons, List.filter_cons, ih]

/-- A list is its own nonempty members as far as there are no others. -/
theorem take_filter_eq_iff (ws : List (List α)) (n : Nat) :
    (ws.filter (· ≠ [])).take n = ws.take n ↔ [] ∉ ws.take n := by
  constructor
  · intro he hin
    rw [← he] at hin
    have hne := (List.mem_filter.mp (List.mem_of_mem_take hin)).2
    exact of_decide_eq_true hne rfl
  · induction ws generalizing n with
    | nil => exact fun _ => rfl
    | cons w ws ih =>
      cases n with
      | zero => exact fun _ => rfl
      | succ n =>
        rw [List.take_succ_cons, List.mem_cons, not_or]
        rintro ⟨hw, hrest⟩
        rw [List.filter_cons, if_pos (decide_eq_true (Ne.symm hw)), List.take_succ_cons,
          ih n hrest]

/-- A separator behind the first field is behind the first separator. -/
theorem append_eq_append_iff_of_notMem (h : sep ∉ w) {pre rest : List α} :
    w ++ sep :: l = pre ++ sep :: rest ↔
      pre = w ∧ rest = l ∨ ∃ pre', pre = w ++ sep :: pre' ∧ l = pre' ++ sep :: rest := by
  constructor
  · intro he
    rcases List.append_eq_append_iff.mp he with ⟨c, hpre, hc⟩ | ⟨c, hw, hc⟩
    · cases c with
      | nil =>
        rw [List.append_nil] at hpre
        exact .inl ⟨hpre, (List.cons.inj hc).2.symm⟩
      | cons d c =>
        obtain ⟨hd, hrest⟩ := List.cons.inj hc
        exact .inr ⟨c, hd ▸ hpre, hrest⟩
    · cases c with
      | nil =>
        rw [List.append_nil] at hw
        exact .inl ⟨hw.symm, (List.cons.inj hc).2⟩
      | cons d c =>
        obtain ⟨hd, -⟩ := List.cons.inj hc
        refine absurd ?_ h
        rw [hw, hd]
        exact List.mem_append_right _ List.mem_cons_self
  · rintro (⟨rfl, rfl⟩ | ⟨pre', rfl, rfl⟩)
    · rfl
    · rw [List.append_assoc, List.cons_append]

theorem getLastD_append_cons (w l : List α) (c d : α) :
    (w ++ c :: l).getLastD d = l.getLastD c := by
  rw [List.getLastD_eq_getLast?, List.getLast?_append, List.getLast?_cons, Option.some_or,
    Option.getD_some, ← List.getLastD_eq_getLast?]

variable [DecidableEq α]

/-- What stands between the separators, in front of the first one and, if that is anything,
behind the last one. -/
def fields (sep : α) (l : List α) : List (List α) := dropEmptyLast (l.splitOn sep)

/-- The maximal runs of elements that are not the separator. -/
def words (sep : α) (l : List α) : List (List α) := (l.splitOn sep).filter (· ≠ [])

/-- The words are the fields that are not empty. -/
theorem words_eq (sep : α) (l : List α) : words sep l = (fields sep l).filter (· ≠ []) :=
  (filter_dropEmptyLast _).symm

theorem splitOn_single (h : sep ∉ w) : w.splitOn sep = [w] := by
  refine List.splitOnP_eq_singleton fun c hc => ?_
  rw [beq_eq_false_iff_ne]
  exact fun he => h (he ▸ hc)

theorem splitOn_field (h : sep ∉ w) (l : List α) :
    (w ++ sep :: l).splitOn sep = w :: l.splitOn sep := by
  refine List.splitOnP_append_cons_of_forall_mem (p := (· == sep)) (fun c hc => ?_) sep
    (beq_self_eq_true sep) l
  rw [beq_eq_false_iff_ne]
  exact fun he => h (he ▸ hc)

theorem fields_nil (sep : α) : fields sep [] = [] := rfl

theorem fields_single (h : sep ∉ w) (hne : w ≠ []) : fields sep w = [w] := by
  rw [fields, splitOn_single h, dropEmptyLast, if_neg hne]

theorem fields_field (h : sep ∉ w) (l : List α) :
    fields sep (w ++ sep :: l) = w :: fields sep l := by
  rw [fields, splitOn_field h, dropEmptyLast_cons (List.splitOn_ne_nil sep l), fields]

/-- Every list is its first field, or that, a separator and a list. -/
theorem fields_induction (sep : α) {motive : List α → Prop} (last : ∀ w, sep ∉ w → motive w)
    (field : ∀ w l, sep ∉ w → motive l → motive (w ++ sep :: l)) (l : List α) : motive l := by
  by_cases hin : sep ∈ l
  · obtain ⟨w, rest, he, hw⟩ := List.eq_append_cons_of_mem hin
    have hlt : rest.length < l.length := by
      rw [he, List.length_append, List.length_cons]
      omega
    rw [he]
    exact field w rest hw (fields_induction sep last field rest)
  · exact last l hin
termination_by l.length

theorem mem_of_mem_fields {c : α} (hw : w ∈ fields sep l) (hc : c ∈ w) : c ∈ l := by
  induction l using fields_induction sep with
  | last v hv =>
    by_cases hne : v = []
    · rw [hne, fields_nil] at hw
      exact absurd hw List.not_mem_nil
    · rw [fields_single hv hne] at hw
      exact List.mem_singleton.mp hw ▸ hc
  | field v l hv ih =>
    rw [fields_field hv] at hw
    rcases List.mem_cons.mp hw with rfl | hw
    · exact List.mem_append_left _ hc
    · exact List.mem_append_right _ (List.mem_cons_of_mem _ (ih hw))

/-- Behind each of the first `n` separators that a list has, it goes on from something else. -/
def SeparatesWords (sep : α) (n : Nat) (l : List α) : Prop :=
  ∀ pre rest, l = pre ++ sep :: rest → pre.count sep < n → pre.getLastD sep ≠ sep

theorem separatesWords_of_notMem (n : Nat) (h : sep ∉ l) : SeparatesWords sep n l := by
  intro pre rest he
  refine absurd ?_ h
  rw [he]
  exact List.mem_append_right _ List.mem_cons_self

theorem separatesWords_field (h : sep ∉ w) (n : Nat) (l : List α) :
    SeparatesWords sep (n + 1) (w ++ sep :: l) ↔ w ≠ [] ∧ SeparatesWords sep n l := by
  have hcount : w.count sep = 0 := List.count_eq_zero.mpr h
  constructor
  · intro hsep
    refine ⟨?_, fun pre rest he hn => ?_⟩
    · rintro rfl
      exact hsep [] l rfl (by rw [hcount]; exact Nat.succ_pos n) rfl
    · rw [← getLastD_append_cons w pre sep sep]
      refine hsep _ rest ?_ ?_
      · rw [he, List.append_assoc, List.cons_append]
      · rw [List.count_append, hcount, List.count_cons_self, Nat.zero_add]
        exact Nat.succ_lt_succ hn
  · rintro ⟨hw, hrest⟩ pre rest he hn
    rcases (append_eq_append_iff_of_notMem h).mp he with ⟨rfl, -⟩ | ⟨pre', rfl, hl⟩
    · intro hlast
      rw [List.getLastD_eq_getLast?, List.getLast?_eq_some_getLast hw, Option.getD_some] at hlast
      exact h (hlast ▸ List.getLast_mem hw)
    · rw [getLastD_append_cons]
      rw [List.count_append, hcount, List.count_cons_self, Nat.zero_add] at hn
      exact hrest pre' rest hl (Nat.lt_of_succ_lt_succ hn)

/-- A field is empty where its separator stands behind another one or in front. -/
theorem nil_notMem_take_fields_iff (sep : α) (n : Nat) (l : List α) :
    [] ∉ (fields sep l).take n ↔ SeparatesWords sep n l := by
  induction l using fields_induction sep generalizing n with
  | last w hw =>
    refine iff_of_true (fun hin => ?_) (separatesWords_of_notMem n hw)
    have hmem := List.mem_of_mem_take hin
    by_cases hne : w = []
    · rw [hne, fields_nil] at hmem
      exact absurd hmem List.not_mem_nil
    · rw [fields_single hw hne] at hmem
      exact hne (List.mem_singleton.mp hmem).symm
  | field w l hw ih =>
    rw [fields_field hw]
    cases n with
    | zero => exact iff_of_true List.not_mem_nil fun _ _ _ h => absurd h (Nat.not_lt_zero _)
    | succ n =>
      rw [separatesWords_field hw, ← ih n, List.take_succ_cons, List.mem_cons, not_or]
      exact and_congr_left' ne_comm

/-- **The first fields are the first words** if and only if none of the separators that end
them is at the front or behind another one. -/
theorem take_fields_eq_take_words_iff (sep : α) (n : Nat) (l : List α) :
    (words sep l).take n = (fields sep l).take n ↔ SeparatesWords sep n l := by
  rw [words_eq, take_filter_eq_iff, nil_notMem_take_fields_iff]

theorem length_le_of_mem_fields (hw : w ∈ fields sep l) : w.length ≤ l.length := by
  induction l using fields_induction sep with
  | last v hv =>
    by_cases hne : v = []
    · rw [hne, fields_nil] at hw
      exact absurd hw List.not_mem_nil
    · rw [fields_single hv hne] at hw
      exact (List.mem_singleton.mp hw ▸ Nat.le_refl _)
  | field v l hv ih =>
    rw [fields_field hv] at hw
    rw [List.length_append, List.length_cons]
    rcases List.mem_cons.mp hw with rfl | hw
    · exact Nat.le_add_right _ _
    · have := ih hw
      omega

theorem fields_eq_nil_iff (sep : α) (l : List α) : fields sep l = [] ↔ l = [] := by
  induction l using fields_induction sep with
  | last w hw =>
    by_cases hne : w = []
    · rw [hne]
      exact iff_of_true rfl rfl
    · rw [fields_single hw hne]
      exact iff_of_false (List.cons_ne_nil _ _) hne
  | field w l hw _ =>
    rw [fields_field hw]
    refine iff_of_false (List.cons_ne_nil _ _) fun he => ?_
    exact absurd (List.append_eq_nil_iff.mp he).2 (List.cons_ne_nil _ _)

/-- Fields with a separator between them are the list again, if they are all of it and it does
not end in a separator. -/
theorem intercalate_take_fields_iff (sep : α) (n : Nat) (l : List α) :
    [sep].intercalate ((fields sep l).take (n + 1)) = l ↔
      l.getLast? ≠ some sep ∧ l.count sep ≤ n := by
  induction l using fields_induction sep generalizing n with
  | last w hw =>
    have hlast : w.getLast? ≠ some sep := fun he => hw (List.mem_of_getLast? he)
    rw [List.count_eq_zero.mpr hw]
    refine iff_of_true ?_ ⟨hlast, Nat.zero_le n⟩
    by_cases hne : w = []
    · rw [hne, fields_nil]
      rfl
    · rw [fields_single hw hne, List.take_succ_cons, List.take_nil]
      exact List.intercalate_singleton
  | field w l hw ih =>
    rw [fields_field hw, List.take_succ_cons, List.count_append, List.count_eq_zero.mpr hw,
      List.count_cons_self, Nat.zero_add]
    by_cases hl : l = []
    · rw [hl, fields_nil, List.take_nil, List.getLast?_concat]
      exact iff_of_false (fun he => by simp at he) fun h => h.1 rfl
    obtain ⟨c, l', rfl⟩ := List.exists_cons_of_ne_nil hl
    have hlast : (w ++ sep :: c :: l').getLast? = (c :: l').getLast? := by
      rw [List.getLast?_append, List.getLast?_cons_cons, List.getLast?_cons, Option.some_or]
    rw [hlast]
    cases n with
    | zero =>
      rw [List.take_zero]
      exact iff_of_false (fun he => by simp at he) fun h => absurd h.2 (by omega)
    | succ n =>
      have hne : (fields sep (c :: l')).take (n + 1) ≠ [] := by
        rw [Ne, List.take_eq_nil_iff, fields_eq_nil_iff]
        exact not_or.mpr ⟨Nat.succ_ne_zero n, hl⟩
      rw [List.intercalate_cons_of_ne_nil hne, List.append_assoc, List.append_cancel_left_eq,
        List.singleton_append, List.cons_inj_right, ih, Nat.add_le_add_iff_right]

end SynapseKernel.Words
