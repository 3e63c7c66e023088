/-! # Searching a list with an early return

The body of a loop that returns the first element with a property. An early
return is the `error` of a fold in `Except`. -/
namespace SynapseKernel.Search

variable {α : Type}

/-- `if (p(x)) return x;`. -/
def search (p : α → Prop) [DecidablePred p] (_ : Unit) (x : α) : Except α Unit :=
  if p x then .error x else .ok ()

/-- `if (p(x)) return x; prev = x;`: the element before is kept and returned, too. -/
def trail (p : α → Prop) [DecidablePred p] (prev x : α) : Except (α × α) α :=
  if p x then .error (prev, x) else .ok x

variable (p : α → Prop) [DecidablePred p]

/-- **The first element with the property** is returned, if there is one. -/
theorem foldlM_search (l : List α) :
    (∃ pre x post, l = pre ++ x :: post ∧ p x ∧ (∀ y ∈ pre, ¬ p y) ∧
      l.foldlM (search p) () = .error x) ∨
    ((∀ x ∈ l, ¬ p x) ∧ l.foldlM (search p) () = .ok ()) := by
  induction l with
  | nil => exact .inr ⟨fun x hx => (nomatch hx), rfl⟩
  | cons a l ih =>
    rw [List.foldlM_cons]
    by_cases ha : p a
    · have hreturn : search p () a = .error a := if_pos ha
      rw [hreturn]
      exact .inl ⟨[], a, l, rfl, ha, fun y hy => (nomatch hy), rfl⟩
    · have hgo : search p () a = .ok () := if_neg ha
      rw [hgo]
      rcases ih with ⟨pre, x, post, rfl, hx, hpre, hr⟩ | ⟨hno, hr⟩
      · exact .inl ⟨a :: pre, x, post, rfl, hx, List.forall_mem_cons.mpr ⟨ha, hpre⟩, hr⟩
      · exact .inr ⟨List.forall_mem_cons.mpr ⟨ha, hno⟩, hr⟩

/-- The same with the element before it, which is `prev` for the first one. -/
theorem foldlM_trail (l : List α) (prev : α) :
    (∃ pre x post, l = pre ++ x :: post ∧ p x ∧ (∀ y ∈ pre, ¬ p y) ∧
      l.foldlM (trail p) prev = .error (pre.getLastD prev, x)) ∨
    ((∀ x ∈ l, ¬ p x) ∧ ∃ last, l.foldlM (trail p) prev = .ok last) := by
  induction l generalizing prev with
  | nil => exact .inr ⟨fun x hx => absurd hx List.not_mem_nil, prev, rfl⟩
  | cons a l ih =>
    rw [List.foldlM_cons]
    by_cases ha : p a
    · have hreturn : trail p prev a = .error (prev, a) := if_pos ha
      rw [hreturn]
      exact .inl ⟨[], a, l, rfl, ha, fun y hy => absurd hy List.not_mem_nil, rfl⟩
    · have hgo : trail p prev a = .ok a := if_neg ha
      rw [hgo]
      rcases ih a with ⟨pre, x, post, rfl, hx, hpre, hr⟩ | ⟨hno, last, hr⟩
      · refine .inl ⟨a :: pre, x, post, rfl, hx, List.forall_mem_cons.mpr ⟨ha, hpre⟩, ?_⟩
        rw [List.getLastD_cons]
        exact hr
      · exact .inr ⟨List.forall_mem_cons.mpr ⟨ha, hno⟩, last, hr⟩

/-- A loop of `n` rounds, of which the rounds with `F` return: it ends, or it returns in
the first of them. `P` holds before each round, and `Q` of what is returned. -/
theorem foldlM_range_cases {σ ρ : Type} {body : σ → Nat → Except ρ σ} {P : Nat → σ → Prop}
    {Q : Nat → ρ → Prop} {F : Nat → Prop} {s : σ} (h0 : P 0 s)
    (hgo : ∀ i s, P i s → ¬ F i → ∃ s', body s i = .ok s' ∧ P (i + 1) s')
    (hreturn : ∀ i s, P i s → F i → ∃ r, body s i = .error r ∧ Q i r) (n : Nat) :
    ((∀ i < n, ¬ F i) ∧ ∃ s', (List.range n).foldlM body s = .ok s' ∧ P n s') ∨
    ∃ i < n, F i ∧ (∀ j < i, ¬ F j) ∧ ∃ r, (List.range n).foldlM body s = .error r ∧ Q i r := by
  induction n with
  | zero => exact .inl ⟨fun i hi => absurd hi (Nat.not_lt_zero i), s, rfl, h0⟩
  | succ n ih =>
    rw [List.range_succ, List.foldlM_append]
    rcases ih with ⟨hno, s', hs', hp⟩ | ⟨i, hi, hf, hno, r, hr, hq⟩
    · rw [hs']
      by_cases hf : F n
      · obtain ⟨r, hr, hq⟩ := hreturn n s' hp hf
        exact .inr ⟨n, Nat.lt_succ_self n, hf, hno, r, (bind_pure _).trans hr, hq⟩
      · obtain ⟨t, ht, hp'⟩ := hgo n s' hp hf
        refine .inl ⟨fun i hi => ?_, t, (bind_pure _).trans ht, hp'⟩
        rcases Nat.lt_succ_iff_lt_or_eq.mp hi with hi | rfl
        · exact hno i hi
        · exact hf
    · rw [hr]
      exact .inr ⟨i, Nat.lt_succ_of_lt hi, hf, hno, r, rfl, hq⟩

end SynapseKernel.Search
