import Mathlib.Data.List.Basic

/-! # Pieces laid out in a row

What is put down piece by piece is found again at the offset that the pieces before it
give it (`window_flatten`). -/
namespace SynapseKernel.Layout

variable {α : Type} {pieces more : List (List α)} {piece : List α} {i : Nat}

/-- Where a piece begins. -/
def offsetOf (pieces : List (List α)) (i : Nat) : Nat := (pieces.take i).flatten.length

theorem offsetOf_cons_succ (piece : List α) (pieces : List (List α)) (i : Nat) :
    offsetOf (piece :: pieces) (i + 1) = piece.length + offsetOf pieces i := by
  rw [offsetOf, List.take_succ_cons, List.flatten_cons, List.length_append]
  rfl

theorem offsetOf_append_left (h : i ≤ pieces.length) :
    offsetOf (pieces ++ more) i = offsetOf pieces i := by
  rw [offsetOf, List.take_append_of_le_length h]
  rfl

theorem offsetOf_append_right (i : Nat) :
    offsetOf (pieces ++ more) (pieces.length + i) =
      offsetOf pieces pieces.length + offsetOf more i := by
  rw [offsetOf, List.take_length_add_append, List.flatten_append, List.length_append, offsetOf,
    List.take_length]
  rfl

/-- Pieces of one length. -/
theorem offsetOf_const {n : Nat} (h : ∀ piece ∈ pieces, piece.length = n) (hi : i ≤ pieces.length) :
    offsetOf pieces i = n * i := by
  induction pieces generalizing i with
  | nil =>
    obtain rfl := Nat.le_zero.mp hi
    rfl
  | cons piece pieces ih =>
    obtain ⟨hpiece, hrest⟩ := List.forall_mem_cons.mp h
    cases i with
    | zero => rfl
    | succ i =>
      rw [offsetOf_cons_succ, hpiece, ih hrest (Nat.le_of_succ_le_succ hi), Nat.mul_succ,
        Nat.add_comm]

theorem flatten_split (h : pieces[i]? = some piece) :
    ∃ pre post, pieces.flatten = pre ++ piece ++ post ∧ pre.length = offsetOf pieces i := by
  obtain ⟨hi, rfl⟩ := List.getElem?_eq_some_iff.mp h
  refine ⟨(pieces.take i).flatten, (pieces.drop (i + 1)).flatten, ?_, rfl⟩
  rw [List.append_assoc, ← List.flatten_cons, ← List.flatten_append,
    List.getElem_cons_drop hi, List.take_append_drop]

theorem window_flatten (h : pieces[i]? = some piece) :
    (pieces.flatten.drop (offsetOf pieces i)).take piece.length = piece := by
  obtain ⟨pre, post, he, hlen⟩ := flatten_split h
  rw [he, List.append_assoc, List.drop_left' hlen, List.take_left' rfl]

theorem offsetOf_add_le (h : pieces[i]? = some piece) :
    offsetOf pieces i + piece.length ≤ pieces.flatten.length := by
  obtain ⟨pre, post, he, hlen⟩ := flatten_split h
  rw [he, ← hlen, List.length_append, List.length_append]
  exact Nat.le_add_right _ _

end SynapseKernel.Layout
