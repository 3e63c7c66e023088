import Mathlib.Logic.Function.Basic

/-! # Copying in place

Two loops copy `n` places of a memory, one from the first place up and one from the last one
down. What a place held before is there as long as the loop has not written it: going up, the
destination must not begin inside of the source, and going down it must not end there. -/
namespace SynapseKernel.Copying

variable {β : Type} {m : Nat → β} {d s n : Nat}

/-- The places from `d` on hold what those from `s` on held. -/
def moved (m : Nat → β) (d s n : Nat) : Nat → β :=
  fun a => if d ≤ a ∧ a < d + n then m (s + (a - d)) else m a

/-- The first place first. -/
def copyUp : Nat → (Nat → β) → Nat → Nat → Nat → β
  | 0, m, _, _ => m
  | n + 1, m, d, s => copyUp n (Function.update m d (m s)) (d + 1) (s + 1)

/-- The last place first. -/
def copyDown : Nat → (Nat → β) → Nat → Nat → Nat → β
  | 0, m, _, _ => m
  | n + 1, m, d, s => copyDown n (Function.update m (d + n) (m (s + n))) d s

theorem moved_inside {i : Nat} (hi : i < n) : moved m d s n (d + i) = m (s + i) := by
  rw [moved, if_pos (by omega), Nat.add_sub_cancel_left]

theorem moved_outside {a : Nat} (ha : a < d ∨ d + n ≤ a) : moved m d s n a = m a := by
  rw [moved, if_neg (by omega)]

theorem moved_zero (m : Nat → β) (d s : Nat) : moved m d s 0 = m := by
  funext a
  exact moved_outside (by omega)

/-- One place more, in front. -/
theorem moved_update_first (h : d ≤ s ∨ s + (n + 1) ≤ d) :
    moved (Function.update m d (m s)) (d + 1) (s + 1) n = moved m d s (n + 1) := by
  funext a
  by_cases ha : d + 1 ≤ a ∧ a < d + 1 + n
  · obtain ⟨i, rfl⟩ := Nat.exists_eq_add_of_le ha.1
    -- the place that is read lies behind the one that was written
    rw [moved_inside (by omega), Function.update_of_ne (by omega), Nat.add_assoc d,
      moved_inside (by omega), Nat.add_assoc]
  · rw [moved_outside (by omega)]
    by_cases hd : a = d
    · rw [hd, Function.update_self]
      exact (moved_inside (i := 0) (Nat.succ_pos n)).symm
    · rw [Function.update_of_ne hd, moved_outside (by omega)]

/-- One place more, at the end. -/
theorem moved_update_last (h : s ≤ d ∨ d + (n + 1) ≤ s) :
    moved (Function.update m (d + n) (m (s + n))) d s n = moved m d s (n + 1) := by
  funext a
  by_cases ha : d ≤ a ∧ a < d + n
  · obtain ⟨i, rfl⟩ := Nat.exists_eq_add_of_le ha.1
    -- the place that is read lies in front of the one that was written
    rw [moved_inside (by omega), Function.update_of_ne (by omega), moved_inside (by omega)]
  · rw [moved_outside (by omega)]
    by_cases hd : a = d + n
    · rw [hd, Function.update_self, moved_inside (Nat.lt_succ_self n)]
    · rw [Function.update_of_ne hd, moved_outside (by omega)]

theorem copyUp_eq (h : d ≤ s ∨ s + n ≤ d) : copyUp n m d s = moved m d s n := by
  induction n generalizing m d s with
  | zero => rw [copyUp, moved_zero]
  | succ n ih => rw [copyUp, ih (by omega), moved_update_first h]

theorem copyDown_eq (h : s ≤ d ∨ d + n ≤ s) : copyDown n m d s = moved m d s n := by
  induction n generalizing m with
  | zero => rw [copyDown, moved_zero]
  | succ n ih => rw [copyDown, ih (by omega), moved_update_last h]

end SynapseKernel.Copying
