/-! # Runs of a deterministic step function

A run applies a list of inputs one after the other. `Always` says that a
property holds in every state of the run, `Guarded` that every input was
acceptable in the state it met. Where an invariant is kept by acceptable inputs
and the property is lost with any other, the two agree (`always_iff_guarded`):
the guard is then exactly the condition under which the property holds. -/
namespace SynapseKernel.Runs

variable {σ ι : Type} {step : σ → ι → σ} {P : σ → Prop} {ok : σ → ι → Prop}

/-- `P` holds in the first state and after every step. -/
def Always (step : σ → ι → σ) (P : σ → Prop) : σ → List ι → Prop
  | s, [] => P s
  | s, i :: is => P s ∧ Always step P (step s i) is

/-- Every input is acceptable in the state it meets. -/
def Guarded (step : σ → ι → σ) (ok : σ → ι → Prop) : σ → List ι → Prop
  | _, [] => True
  | s, i :: is => ok s i ∧ Guarded step ok (step s i) is

theorem Always.head {s : σ} {is : List ι} (h : Always step P s is) : P s := by
  cases is with
  | nil => exact h
  | cons i is => exact h.1

theorem guarded_of_forall {good : ι → Prop} (s : σ) {is : List ι} (h : ∀ i ∈ is, good i) :
    Guarded step (fun _ i => good i) s is := by
  induction is generalizing s with
  | nil => trivial
  | cons i is ih =>
    exact ⟨h i List.mem_cons_self, ih _ fun j hj => h j (List.mem_cons_of_mem _ hj)⟩

/-- What acceptable inputs keep holds in every state of a run of them. -/
theorem Guarded.always (Inv : σ → Prop) (hP : ∀ s, Inv s → P s)
    (hstep : ∀ s i, Inv s → ok s i → Inv (step s i)) {s : σ} (h : Inv s) {is : List ι}
    (hg : Guarded step ok s is) : Always step P s is := by
  induction is generalizing s with
  | nil => exact hP s h
  | cons i is ih => exact ⟨hP s h, ih (hstep s i h hg.1) hg.2⟩

theorem Guarded.and {ok' : σ → ι → Prop} {s : σ} {is : List ι} (h : Guarded step ok s is)
    (h' : Guarded step ok' s is) : Guarded step (fun s i => ok s i ∧ ok' s i) s is := by
  induction is generalizing s with
  | nil => trivial
  | cons i is ih => exact ⟨⟨h.1, h'.1⟩, ih h.2 h'.2⟩

/-- What follows from a guard and the invariant it keeps is a guard of the run, too. -/
theorem Guarded.imp (Inv : σ → Prop) {ok' : σ → ι → Prop}
    (hstep : ∀ s i, Inv s → ok s i → Inv (step s i)) (himp : ∀ s i, Inv s → ok s i → ok' s i)
    {s : σ} (h : Inv s) {is : List ι} (hg : Guarded step ok s is) : Guarded step ok' s is := by
  induction is generalizing s with
  | nil => trivial
  | cons i is ih => exact ⟨himp s i h hg.1, ih (hstep s i h hg.1) hg.2⟩

/-- The same for runs of lawful inputs, of which those that are not acceptable lose
the property. -/
theorem always_iff_guarded_within (Inv : σ → Prop) {lawful : σ → ι → Prop}
    (hP : ∀ s, Inv s → P s)
    (hstep : ∀ s i, Inv s → lawful s i → ok s i → Inv (step s i))
    (hbad : ∀ s i, Inv s → lawful s i → ¬ ok s i → ¬ P (step s i)) {s : σ} (h : Inv s)
    {is : List ι} (hl : Guarded step lawful s is) :
    Always step P s is ↔ Guarded step ok s is := by
  induction is generalizing s with
  | nil => exact ⟨fun _ => trivial, fun _ => hP s h⟩
  | cons i is ih =>
    constructor
    · intro ⟨_, hrest⟩
      have hok : ok s i := by
        by_cases hi : ok s i
        · exact hi
        · exact absurd hrest.head (hbad s i h hl.1 hi)
      exact ⟨hok, (ih (hstep s i h hl.1 hok) hl.2).mp hrest⟩
    · intro ⟨hok, hrest⟩
      exact ⟨hP s h, (ih (hstep s i h hl.1 hok) hl.2).mpr hrest⟩

theorem always_iff_guarded (Inv : σ → Prop) (hP : ∀ s, Inv s → P s)
    (hstep : ∀ s i, Inv s → ok s i → Inv (step s i))
    (hbad : ∀ s i, Inv s → ¬ ok s i → ¬ P (step s i)) {s : σ} (h : Inv s) (is : List ι) :
    Always step P s is ↔ Guarded step ok s is :=
  always_iff_guarded_within Inv hP (fun s i hs _ => hstep s i hs) (fun s i hs _ => hbad s i hs) h
    (@guarded_of_forall _ _ _ (fun _ => True) s is fun _ _ => trivial)

/-- Guards that agree wherever an invariant holds that they keep accept the same runs. -/
theorem guarded_congr (Inv : σ → Prop) {ok' : σ → ι → Prop} {is : List ι}
    (hstep : ∀ s, ∀ i ∈ is, Inv s → ok s i → Inv (step s i))
    (hiff : ∀ s, ∀ i ∈ is, Inv s → (ok s i ↔ ok' s i)) {s : σ} (h : Inv s) :
    Guarded step ok s is ↔ Guarded step ok' s is := by
  induction is generalizing s with
  | nil => exact Iff.rfl
  | cons i is ih =>
    obtain ⟨hstep, hsteps⟩ := List.forall_mem_cons.mp fun i hi s => hstep s i hi
    obtain ⟨hiff, hiffs⟩ := List.forall_mem_cons.mp fun i hi s => hiff s i hi
    refine (and_congr_right fun hok => ?_).trans (and_congr_left' (hiff s h))
    exact ih (fun s i hi => hsteps i hi s) (fun s i hi => hiffs i hi s) (hstep s h hok)

/-! ## Steps that may fail -/

/-- Every input is acceptable in the state it meets, if the run comes to it. -/
def GuardedM (step : σ → ι → Option σ) (ok : σ → ι → Prop) : σ → List ι → Prop
  | _, [] => True
  | s, i :: is => ok s i ∧ ∀ s', step s i = some s' → GuardedM step ok s' is

section Fallible
variable {step : σ → ι → Option σ}

theorem GuardedM.cons {s s' : σ} {i : ι} {is : List ι} (hok : ok s i) (hs : step s i = some s')
    (h : GuardedM step ok s' is) : GuardedM step ok s (i :: is) := by
  refine ⟨hok, fun s'' hs'' => ?_⟩
  rwa [← Option.some.inj (hs.symm.trans hs'')]

/-- Where acceptable inputs never fail and keep an invariant, a run of them goes through. -/
theorem GuardedM.progress (Inv : σ → Prop)
    (hstep : ∀ s i, Inv s → ok s i → ∃ s', step s i = some s' ∧ Inv s') {s : σ} (h : Inv s)
    {is : List ι} (hg : GuardedM step ok s is) : ∃ s', is.foldlM step s = some s' ∧ Inv s' := by
  induction is generalizing s with
  | nil => exact ⟨s, rfl, h⟩
  | cons i is ih =>
    obtain ⟨s₁, he, h₁⟩ := hstep s i h hg.1
    obtain ⟨s', hrun, h'⟩ := ih h₁ (hg.2 s₁ he)
    exact ⟨s', by rw [List.foldlM_cons, he]; exact hrun, h'⟩

end Fallible

/-! ## Two runs of the same inputs -/

/-- A guard of one run is one of a run beside it. -/
theorem Guarded.transfer {τ : Type} {step' : τ → ι → τ} {ok' : τ → ι → Prop} (R : σ → τ → Prop)
    (hok : ∀ s t i, R s t → ok s i → ok' t i)
    (hstep : ∀ s t i, R s t → ok s i → R (step s i) (step' t i)) {s : σ} {t : τ} (h : R s t)
    {is : List ι} (hg : Guarded step ok s is) : Guarded step' ok' t is := by
  induction is generalizing s t with
  | nil => trivial
  | cons i is ih => exact ⟨hok s t i h hg.1, ih (hstep s t i h hg.1) hg.2⟩

section Outputs
variable {ο : Type} {out : σ → ι → ο}

/-- What the inputs of a run put out. -/
def outs (step : σ → ι → σ) (out : σ → ι → ο) : σ → List ι → List ο
  | _, [] => []
  | s, i :: is => out s i :: outs step out (step s i) is

/-- Related states put out the same as long as the inputs are acceptable. -/
theorem Guarded.outs_eq (R : σ → σ → Prop)
    (hout : ∀ s t i, R s t → ok s i → out s i = out t i)
    (hstep : ∀ s t i, R s t → ok s i → R (step s i) (step t i)) {s t : σ} (h : R s t)
    {is : List ι} (hg : Guarded step ok s is) : outs step out s is = outs step out t is := by
  induction is generalizing s t with
  | nil => rfl
  | cons i is ih =>
    rw [outs, outs, hout s t i h hg.1, ih (hstep s t i h hg.1) hg.2]

/-- Where an input that is not acceptable tells related states apart, runs that
put out the same have acceptable inputs only. -/
theorem guarded_of_outs_eq (R : σ → σ → Prop) {lawful : σ → ι → Prop}
    (hok : ∀ s t i, R s t → lawful s i → out s i = out t i → ok s i)
    (hstep : ∀ s t i, R s t → lawful s i → R (step s i) (step t i)) {s t : σ} (h : R s t)
    {is : List ι} (hl : Guarded step lawful s is)
    (he : outs step out s is = outs step out t is) : Guarded step ok s is := by
  induction is generalizing s t with
  | nil => trivial
  | cons i is ih =>
    obtain ⟨hhead, htail⟩ := List.cons.inj he
    exact ⟨hok s t i h hl.1 hhead, ih (hstep s t i h hl.1) hl.2 htail⟩

end Outputs

end SynapseKernel.Runs
