import Mathlib.Logic.Function.Basic

/-! # Exclusive ownership of resources

Users of a pool each own at most one resource, no resource has two owners and
every owned resource is marked in use in the pool. Resources in use without an
owner are allowed: they have leaked. A pool that hands out only what is not in
use keeps this up (`Owns.give`), and so does taking back what one user owns
(`Owns.drop`). -/
namespace SynapseKernel.Ownership

variable {ι α : Type} {inUse inUse' : α → Prop} {own : ι → Option α} {u v : ι} {x y : α}

structure Owns (inUse : α → Prop) (own : ι → Option α) : Prop where
  inUse : ∀ u x, own u = some x → inUse x
  injective : ∀ u v x, own u = some x → own v = some x → u = v

theorem Owns.mono (h : Owns inUse own) (hin : ∀ u x, own u = some x → inUse' x) :
    Owns inUse' own := ⟨hin, h.injective⟩

/-- What is not in use has no owner. -/
theorem Owns.not_owned (h : Owns inUse own) (hx : ¬ inUse x) (u : ι) : own u ≠ some x :=
  fun hu => hx (h.inUse u x hu)

/-- Different users own different resources. -/
theorem Owns.ne (h : Owns inUse own) (hu : own u = some x) (hv : own v = some y) (huv : u ≠ v) :
    x ≠ y := by
  intro hxy
  rw [← hxy] at hv
  exact huv (h.injective u v x hu hv)

variable [DecidableEq ι]

theorem Owns.give (h : Owns inUse own) (hx : inUse x) (hnew : ∀ v, own v ≠ some x) :
    Owns inUse (Function.update own u (some x)) := by
  refine ⟨fun v y hv => ?_, fun v w y hv hw => ?_⟩
  · by_cases hvu : v = u
    · rw [hvu, Function.update_self] at hv
      rwa [← Option.some.inj hv]
    · rw [Function.update_of_ne hvu] at hv
      exact h.inUse v y hv
  · by_cases hvu : v = u <;> by_cases hwu : w = u
    · rw [hvu, hwu]
    · rw [hvu, Function.update_self] at hv
      rw [Function.update_of_ne hwu, ← hv] at hw
      exact absurd hw (hnew w)
    · rw [hwu, Function.update_self] at hw
      rw [Function.update_of_ne hvu, ← hw] at hv
      exact absurd hv (hnew v)
    · rw [Function.update_of_ne hvu] at hv
      rw [Function.update_of_ne hwu] at hw
      exact h.injective v w y hv hw

/-- Once `u` gives up what it owns, only that resource may leave the pool. -/
theorem Owns.drop (h : Owns inUse own) (hrest : ∀ y, own u ≠ some y → inUse y → inUse' y) :
    Owns inUse' (Function.update own u none) := by
  have hold : ∀ v y, Function.update own u none v = some y → v ≠ u ∧ own v = some y := by
    intro v y hv
    by_cases hvu : v = u
    · rw [hvu, Function.update_self] at hv
      cases hv
    · rw [Function.update_of_ne hvu] at hv
      exact ⟨hvu, hv⟩
  refine ⟨fun v y hv => ?_, fun v w y hv hw => ?_⟩
  · obtain ⟨hvu, hv⟩ := hold v y hv
    exact hrest y (fun huy => hvu (h.injective v u y hv huy)) (h.inUse v y hv)
  · exact h.injective v w y (hold v y hv).2 (hold w y hw).2

end SynapseKernel.Ownership
