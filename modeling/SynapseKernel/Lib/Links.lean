import Mathlib.Data.List.Nodup
import Mathlib.Logic.Function.Basic

/-! # Singly linked lists

A list threaded through a `next` field, ended by the null pointer `0`. `Linked`
is what a program can reach from the head; `IsList` is the list a proof keeps
beside the pointers. What is reached from a head is one list only, so it has no
duplicates (`IsList.nodup`). A loop over the pointers is a fold over that list
(`IsList.walk_eq`). -/
namespace SynapseKernel.Links

/-- `x` is reached from the head `h` by following `next`. -/
inductive Linked (next : Nat → Nat) : Nat → Nat → Prop
  | head {h : Nat} : h ≠ 0 → Linked next h h
  | tail {h x : Nat} : h ≠ 0 → Linked next (next h) x → Linked next h x

/-- The pointers from `h` on run through `l` and end. -/
def IsList (next : Nat → Nat) : Nat → List Nat → Prop
  | h, [] => h = 0
  | h, x :: l => h = x ∧ x ≠ 0 ∧ IsList next (next x) l

variable {next next' : Nat → Nat} {h : Nat} {l : List Nat}

theorem IsList.linked_iff (hl : IsList next h l) {x : Nat} : Linked next h x ↔ x ∈ l := by
  induction l generalizing h with
  | nil =>
    have hnull : h = 0 := hl
    constructor
    · intro hx
      cases hx with
      | head hne => exact absurd hnull hne
      | tail hne _ => exact absurd hnull hne
    · intro hx
      cases hx
  | cons y l ih =>
    obtain ⟨rfl, hne, hrest⟩ := hl
    constructor
    · intro hx
      cases hx with
      | head _ => exact List.mem_cons_self
      | tail _ hx => exact List.mem_cons_of_mem _ ((ih hrest).mp hx)
    · intro hx
      rcases List.mem_cons.mp hx with rfl | hx
      · exact .head hne
      · exact .tail hne ((ih hrest).mpr hx)

theorem IsList.ne_zero (hl : IsList next h l) : ∀ x ∈ l, x ≠ 0 := by
  induction l generalizing h with
  | nil => intro x hx; cases hx
  | cons y l ih =>
    obtain ⟨-, hne, hrest⟩ := hl
    intro x hx
    rcases List.mem_cons.mp hx with rfl | hx
    · exact hne
    · exact ih hrest x hx

theorem IsList.congr (hl : IsList next h l) (hn : ∀ x ∈ l, next' x = next x) :
    IsList next' h l := by
  induction l generalizing h with
  | nil => exact hl
  | cons y l ih =>
    obtain ⟨hy, hne, hrest⟩ := hl
    refine ⟨hy, hne, ?_⟩
    rw [hn y List.mem_cons_self]
    exact ih hrest fun x hx => hn x (List.mem_cons_of_mem _ hx)

/-- The pointers determine the list. -/
theorem IsList.unique {m : List Nat} (hl : IsList next h l) (hm : IsList next h m) : l = m := by
  induction l generalizing h m with
  | nil =>
    cases m with
    | nil => rfl
    | cons y m => exact absurd (hm.1.symm.trans hl) hm.2.1
  | cons x l ih =>
    cases m with
    | nil => exact absurd (hl.1.symm.trans hm) hl.2.1
    | cons y m =>
      obtain ⟨rfl, -, hl⟩ := hl
      obtain ⟨rfl, -, hm⟩ := hm
      rw [ih hl hm]

/-- From an element on, the pointers run through the rest of the list. -/
theorem IsList.after {pre post : List Nat} {x : Nat} (hl : IsList next h (pre ++ x :: post)) :
    IsList next (next x) post := by
  induction pre generalizing h with
  | nil => exact hl.2.2
  | cons y pre ih => exact ih hl.2.2

theorem IsList.nodup (hl : IsList next h l) : l.Nodup := by
  induction l generalizing h with
  | nil => exact List.nodup_nil
  | cons x l ih =>
    obtain ⟨-, -, hrest⟩ := hl
    refine List.nodup_cons.mpr ⟨fun hx => ?_, ih hrest⟩
    -- an element met twice would be followed by two lists of different lengths
    obtain ⟨pre, post, rfl⟩ := List.append_of_mem hx
    have hlen := congrArg List.length (hrest.unique hrest.after)
    simp only [List.length_append, List.length_cons] at hlen
    omega

/-- `y->next = x->next` takes the element `x` after `y` out. -/
theorem IsList.unlink {pre post : List Nat} {x y : Nat}
    (hl : IsList next h (pre ++ y :: x :: post)) :
    IsList (Function.update next y (next x)) h (pre ++ y :: post) := by
  induction pre generalizing h with
  | nil =>
    have hy : y ∉ x :: post := (List.nodup_cons.mp hl.nodup).1
    obtain ⟨rfl, hne, hx⟩ := hl
    have hpost : IsList next (next x) post := hx.2.2
    refine ⟨rfl, hne, ?_⟩
    rw [Function.update_self]
    refine hpost.congr fun z hz => Function.update_of_ne ?_ _ _
    rintro rfl
    exact hy (List.mem_cons_of_mem _ hz)
  | cons z pre ih =>
    have hz : z ∉ pre ++ y :: x :: post := (List.nodup_cons.mp hl.nodup).1
    obtain ⟨rfl, hne, hrest⟩ := hl
    have hzy : h ≠ y := fun he => hz (he ▸ List.mem_append_right _ List.mem_cons_self)
    refine ⟨rfl, hne, ?_⟩
    rw [Function.update_of_ne hzy]
    exact ih hrest

/-! ## Loops over a list -/

section Walk
variable {σ ρ : Type} {body : σ → Nat → Except ρ σ}

/-- `while (t) { body; t = t->next; }`, where the body may return (`error`), and
`none` if that takes more rounds than `fuel`. -/
def walk (body : σ → Nat → Except ρ σ) (next : Nat → Nat) :
    Nat → Nat → σ → Option (Except ρ σ)
  | 0, t, acc => if t = 0 then some (.ok acc) else none
  | fuel + 1, t, acc =>
    if t = 0 then some (.ok acc)
    else
      match body acc t with
      | .error r => some (.error r)
      | .ok acc => walk body next fuel (next t) acc

theorem IsList.walk_eq (hl : IsList next h l) {fuel : Nat} (hf : l.length ≤ fuel) (acc : σ) :
    walk body next fuel h acc = some (l.foldlM body acc) := by
  induction l generalizing h fuel acc with
  | nil =>
    have hnull : h = 0 := hl
    cases fuel with
    | zero => exact if_pos hnull
    | succ fuel => exact if_pos hnull
  | cons x l ih =>
    obtain ⟨rfl, hne, hrest⟩ := hl
    cases fuel with
    | zero => exact absurd hf (Nat.not_succ_le_zero _)
    | succ fuel =>
      rw [walk, if_neg hne, List.foldlM_cons]
      cases body acc h with
      | error r => rfl
      | ok acc => exact ih hrest (Nat.le_of_succ_le_succ hf) acc

end Walk

end SynapseKernel.Links
