import Mathlib.Data.Nat.Count

/-! # Taking the lowest

An allocator that hands out the lowest free number each time has, after `k` of them,
the free numbers with at least `k` free ones below. -/
namespace SynapseKernel.FirstFit

variable {p q r : Nat → Prop} [DecidablePred p] {i j k n : Nat}

/-- Below `n`, the numbers `q` are the numbers `p` without the `k` lowest. -/
def WithoutFirst (p q : Nat → Prop) [DecidablePred p] (k n : Nat) : Prop :=
  ∀ g < n, q g ↔ p g ∧ k ≤ Nat.count p g

theorem WithoutFirst.none (h : ∀ g < n, q g ↔ p g) : WithoutFirst p q 0 n :=
  fun g hg => (h g hg).trans (and_iff_left (Nat.zero_le _)).symm

/-- Taking the lowest. -/
theorem WithoutFirst.lowest (hi : p i) (hbelow : ∀ j < i, ¬ p j)
    (h : ∀ g < n, q g ↔ g ≠ i ∧ p g) : WithoutFirst p q 1 n := by
  intro g hg
  have hzero : Nat.count p i = 0 := Nat.count_iff_forall_not.mpr hbelow
  rw [h g hg, and_comm]
  refine and_congr_right fun hpg => ⟨fun hne => ?_, ?_⟩
  · have hlt : i < g := by
      by_contra hle
      exact hbelow g (by omega) hpg
    have hcount := Nat.count_strict_mono hi hlt
    omega
  · rintro hcount rfl
    omega

variable [DecidablePred q]

theorem WithoutFirst.count (h : WithoutFirst p q k n) {g : Nat} (hg : g ≤ n) :
    Nat.count q g = Nat.count p g - k := by
  induction g with
  | zero => rw [Nat.count_zero, Nat.count_zero, Nat.zero_sub]
  | succ g ih =>
    have hg' := h g (by omega)
    rw [Nat.count_succ, Nat.count_succ, ih (by omega)]
    by_cases hp : p g
    · by_cases hk : k ≤ Nat.count p g
      · rw [if_pos hp, if_pos (hg'.mpr ⟨hp, hk⟩)]
        omega
      · rw [if_pos hp, if_neg fun hq => hk (hg'.mp hq).2]
        omega
    · rw [if_neg hp, if_neg fun hq => hp (hg'.mp hq).1, Nat.add_zero, Nat.add_zero]

/-- Taking the lowest `j`, and then the lowest `k` of the rest. -/
theorem WithoutFirst.trans (h : WithoutFirst p q j n) (h' : WithoutFirst q r k n) :
    WithoutFirst p r (j + k) n := by
  intro g hg
  rw [h' g hg, h.count (Nat.le_of_lt hg), h g hg, and_assoc]
  refine and_congr_right fun _ => ?_
  omega

end SynapseKernel.FirstFit
