import Mathlib.Logic.Basic

/-! # Editing one line

A line of at most `limit` elements is edited at its end. A terminal that has no way back
echoes each element that is taken in and a mark for each one that is erased: what it shows is
the line if and only if nothing was erased (`append_echoed_eq_iff`). -/
namespace SynapseKernel.LineEdit

inductive Edit (α : Type) where
  | insert (a : α)
  | erase

variable {α : Type} {limit : Nat} {mark : α} {line : List α}

/-- What an edit makes of a line; a full line takes in nothing. -/
def Edit.apply (limit : Nat) (line : List α) : Edit α → List α
  | .insert a => if line.length < limit then line ++ [a] else line
  | .erase => line.dropLast

/-- What is echoed of it. -/
def Edit.echo (limit : Nat) (mark : α) (line : List α) : Edit α → List α
  | .insert a => if line.length < limit then [a] else []
  | .erase => if line = [] then [] else [mark]

/-- How many elements it takes away. -/
def Edit.erased (line : List α) : Edit α → Nat
  | .insert _ => 0
  | .erase => if line = [] then 0 else 1

def edited (limit : Nat) (line : List α) (edits : List (Edit α)) : List α :=
  edits.foldl (Edit.apply limit) line

def echoed (limit : Nat) (mark : α) : List α → List (Edit α) → List α
  | _, [] => []
  | line, e :: edits => e.echo limit mark line ++ echoed limit mark (e.apply limit line) edits

/-- How many elements the edits take away again. -/
def erasures (limit : Nat) : List α → List (Edit α) → Nat
  | _, [] => 0
  | line, e :: edits => e.erased line + erasures limit (e.apply limit line) edits

theorem edited_nil (limit : Nat) (line : List α) : edited limit line [] = line := rfl

theorem edited_cons (limit : Nat) (line : List α) (e : Edit α) (edits : List (Edit α)) :
    edited limit line (e :: edits) = edited limit (e.apply limit line) edits := rfl

theorem edited_append (limit : Nat) (line : List α) (edits edits' : List (Edit α)) :
    edited limit line (edits ++ edits') = edited limit (edited limit line edits) edits' :=
  List.foldl_append

theorem echoed_append (limit : Nat) (mark : α) (line : List α) (edits edits' : List (Edit α)) :
    echoed limit mark line (edits ++ edits') =
      echoed limit mark line edits ++ echoed limit mark (edited limit line edits) edits' := by
  induction edits generalizing line with
  | nil => rfl
  | cons e edits ih => rw [List.cons_append, echoed, echoed, edited_cons, ih, List.append_assoc]

/-- An edit keeps within the limit. -/
theorem Edit.length_apply_le (e : Edit α) (h : line.length ≤ limit) :
    (e.apply limit line).length ≤ limit := by
  cases e with
  | insert a =>
    rw [Edit.apply]
    split
    case isTrue hroom =>
      rw [List.length_append, List.length_singleton]
      exact hroom
    case isFalse => exact h
  | erase =>
    rw [Edit.apply, List.length_dropLast]
    exact Nat.le_trans (Nat.sub_le ..) h

theorem length_edited_le (h : line.length ≤ limit) (edits : List (Edit α)) :
    (edited limit line edits).length ≤ limit := by
  induction edits generalizing line with
  | nil => exact h
  | cons e edits ih => exact ih (e.length_apply_le h)

/-- Nothing gets into a line but what is put in. -/
theorem Edit.forall_mem_apply {p : α → Prop} {e : Edit α} (h : ∀ a ∈ line, p a)
    (he : ∀ a, e = .insert a → p a) : ∀ a ∈ e.apply limit line, p a := by
  cases e with
  | insert b =>
    rw [Edit.apply]
    split
    · intro a ha
      rcases List.mem_append.mp ha with ha | ha
      · exact h a ha
      · exact List.mem_singleton.mp ha ▸ he b rfl
    · exact h
  | erase => exact fun a ha => h a ((List.dropLast_sublist line).subset ha)

theorem forall_mem_edited {p : α → Prop} {edits : List (Edit α)} (h : ∀ a ∈ line, p a)
    (hedits : ∀ a, .insert a ∈ edits → p a) : ∀ a ∈ edited limit line edits, p a := by
  induction edits generalizing line with
  | nil => exact h
  | cons e edits ih =>
    refine ih (Edit.forall_mem_apply h fun a he => hedits a ?_) fun a ha => hedits a ?_
    · exact he ▸ List.mem_cons_self
    · exact List.mem_cons_of_mem _ ha

/-- An erased element is shown, and so is the mark for it. -/
theorem Edit.length_echo (e : Edit α) (limit : Nat) (mark : α) (line : List α) :
    line.length + (e.echo limit mark line).length =
      (e.apply limit line).length + 2 * e.erased line := by
  cases e with
  | insert a =>
    rw [Edit.apply, Edit.echo, Edit.erased]
    split
    · exact (List.length_append ..).symm
    · rfl
  | erase =>
    rw [Edit.apply, Edit.echo, Edit.erased, List.length_dropLast]
    by_cases hline : line = []
    · rw [if_pos hline, if_pos hline, hline]
      rfl
    · have hpos := List.length_pos_iff.mpr hline
      rw [if_neg hline, if_neg hline, List.length_singleton]
      omega

theorem length_echoed (limit : Nat) (mark : α) (line : List α) (edits : List (Edit α)) :
    line.length + (echoed limit mark line edits).length =
      (edited limit line edits).length + 2 * erasures limit line edits := by
  induction edits generalizing line with
  | nil => rfl
  | cons e edits ih =>
    have hstep := e.length_echo limit mark line
    have hrest := ih (e.apply limit line)
    rw [edited_cons, echoed, erasures, List.length_append]
    omega

/-- What takes nothing away is echoed as it is. -/
theorem Edit.append_echo {e : Edit α} (h : e.erased line = 0) :
    line ++ e.echo limit mark line = e.apply limit line := by
  cases e with
  | insert a =>
    rw [Edit.apply, Edit.echo]
    split
    · rfl
    · exact List.append_nil line
  | erase =>
    rw [Edit.erased] at h
    by_cases hline : line = []
    · rw [Edit.apply, Edit.echo, if_pos hline, hline]
      rfl
    · rw [if_neg hline] at h
      exact absurd h (by decide)

/-- **What is shown is the line** if and only if the edits take nothing away. -/
theorem append_echoed_eq_iff (limit : Nat) (mark : α) (line : List α) (edits : List (Edit α)) :
    line ++ echoed limit mark line edits = edited limit line edits ↔
      erasures limit line edits = 0 := by
  constructor
  · intro he
    have hlen := length_echoed limit mark line edits
    rw [← List.length_append, he] at hlen
    omega
  · induction edits generalizing line with
    | nil => exact fun _ => List.append_nil line
    | cons e edits ih =>
      intro hnone
      obtain ⟨hfirst, hrest⟩ := Nat.add_eq_zero_iff.mp hnone
      rw [echoed, edited_cons, ← List.append_assoc, Edit.append_echo hfirst, ih _ hrest]

end SynapseKernel.LineEdit
