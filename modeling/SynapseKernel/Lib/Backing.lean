import Mathlib.Logic.Function.Basic
import SynapseKernel.Lib.Blocks
import SynapseKernel.Lib.Runs

/-! # A growable array in blocks that are not cleared

The array is the beginning of a block. A store past its end may move it to a new
block, of which only the old elements and those stored are filled in: the rest
keeps whatever the block held before. `Recorded` ties the array to the elements
stored so far, `Filled` says that everything else is still as it was. Of a
machine that keeps such an array, nothing else is ever seen if and only if every
position it is asked for was stored to before (`Lawful.sealed_iff`). -/
namespace SynapseKernel.Uncleared
open SynapseKernel.Blocks SynapseKernel.Runs

variable {α : Type}

/-- The contents of all blocks, the block of the array, its size, and the number of
blocks handed out. -/
structure Backing (α : Type) where
  contents : Nat → Nat → α
  data : Nat
  size : Nat
  handed : Nat

variable {b b' : Backing α} {last : Nat → Option α} {offset : Nat} {buf : List α} {v : α}

/-- A store that goes through. -/
inductive Stores (b b' : Backing α) (offset : Nat) (buf : List α) : Prop
  | inPlace : b'.data = b.data → b'.handed = b.handed →
      b'.size = max b.size (offset + buf.length) →
      (b.data = 0 → offset + buf.length = 0) →
      b'.contents =
        Function.update b.contents b.data (overwrite (b.contents b.data) offset buf) →
      Stores b b' offset buf
  | moved : b'.data = b.handed + 1 → b'.handed = b.handed + 1 →
      b'.size = max b.size (offset + buf.length) →
      b'.contents = Function.update b.contents (b.handed + 1)
        (overwrite (fun k => if b.data ≠ 0 ∧ k < b.size then b.contents b.data k
          else b.contents (b.handed + 1) k) offset buf) →
      Stores b b' offset buf

/-- A step that stores nothing. -/
structure Keeps (b b' : Backing α) : Prop where
  data : b'.data = b.data
  size : b'.size = b.size
  contents : b'.contents = b.contents
  handed : b.handed ≤ b'.handed

/-- The array has the elements that were stored last. -/
structure Recorded (last : Nat → Option α) (b : Backing α) : Prop where
  empty : b.data = 0 → b.size = 0
  reach : ∀ k x, last k = some x → k < b.size
  records : ∀ k x, last k = some x → b.contents b.data k = x

/-- Where nothing was stored, in the array and in blocks not yet handed out, is `v`. -/
structure Filled (v : α) (last : Nat → Option α) (b : Backing α) : Prop where
  gaps : ∀ k, last k = none → b.contents b.data k = v
  fresh : ∀ n, b.handed < n → ∀ k, b.contents n k = v
  old : b.data ≤ b.handed

theorem Keeps.refl (b : Backing α) : Keeps b b := ⟨rfl, rfl, rfl, Nat.le_refl _⟩

/-- An array without a block stays empty. -/
theorem Stores.empty (hs : Stores b b' offset buf) (h : b.data = 0 → b.size = 0) :
    b'.data = 0 → b'.size = 0 := by
  cases hs with
  | inPlace hdata hhanded hsize hnull hcontents =>
    intro h0
    rw [hdata] at h0
    rw [hsize, h h0, hnull h0]
    rfl
  | moved hdata hhanded hsize hcontents =>
    intro h0
    rw [hdata] at h0
    exact absurd h0 (Nat.succ_ne_zero _)

theorem Recorded.keep (h : Recorded last b) (hk : Keeps b b') : Recorded last b' := by
  refine ⟨?_, ?_, ?_⟩
  · rw [hk.data, hk.size]
    exact h.empty
  · rw [hk.size]
    exact h.reach
  · rw [hk.contents, hk.data]
    exact h.records

theorem Filled.keep (h : Filled v last b) (hk : Keeps b b') : Filled v last b' := by
  refine ⟨?_, fun n hn => ?_, ?_⟩
  · rw [hk.contents, hk.data]
    exact h.gaps
  · rw [hk.contents]
    exact h.fresh n (Nat.lt_of_le_of_lt hk.handed hn)
  · rw [hk.data]
    exact Nat.le_trans h.old hk.handed

theorem reach_overwrite {n : Nat} (h : ∀ k x, last k = some x → k < n) (k : Nat) (x : α)
    (hk : overwrite last offset (buf.map some) k = some x) : k < max n (offset + buf.length) := by
  rcases overwrite_some hk with ⟨hlt, -⟩ | ⟨hlast, -⟩
  · exact Nat.lt_of_lt_of_le hlt (Nat.le_max_right _ _)
  · exact Nat.lt_of_lt_of_le (h k x hlast) (Nat.le_max_left _ _)

theorem records_overwrite {f : Nat → α} (h : ∀ k x, last k = some x → f k = x) (k : Nat) (x : α)
    (hk : overwrite last offset (buf.map some) k = some x) : overwrite f offset buf k = x := by
  rcases overwrite_some hk with ⟨-, hnow⟩ | ⟨hlast, hkeep⟩
  · exact hnow f
  · exact (hkeep f).trans (h k x hlast)

/-- **A store is recorded**, whether the array moves or not. -/
theorem Recorded.store (h : Recorded last b) (hs : Stores b b' offset buf) :
    Recorded (overwrite last offset (buf.map some)) b' := by
  have hempty := hs.empty h.empty
  cases hs with
  | inPlace hdata hhanded hsize hnull hcontents =>
    refine ⟨hempty, ?_, ?_⟩
    · rw [hsize]
      exact reach_overwrite h.reach
    · rw [hcontents, hdata, Function.update_self]
      exact records_overwrite h.records
  | moved hdata hhanded hsize hcontents =>
    refine ⟨hempty, ?_, ?_⟩
    · rw [hsize]
      exact reach_overwrite h.reach
    · rw [hcontents, hdata, Function.update_self]
      refine records_overwrite fun k x hk => ?_
      have hlt := h.reach k x hk
      have h0 : b.data ≠ 0 := fun h0 => by
        rw [h.empty h0] at hlt
        exact absurd hlt (Nat.not_lt_zero k)
      rw [if_pos ⟨h0, hlt⟩]
      exact h.records k x hk

/-- **A store fills nothing else.** -/
theorem Filled.store (h : Filled v last b) (hs : Stores b b' offset buf) :
    Filled v (overwrite last offset (buf.map some)) b' := by
  cases hs with
  | inPlace hdata hhanded hsize hnull hcontents =>
    refine ⟨fun k hk => ?_, fun n hn k => ?_, ?_⟩
    · obtain ⟨hlast, hkeep⟩ := overwrite_none hk
      rw [hcontents, hdata, Function.update_self, hkeep]
      exact h.gaps k hlast
    · rw [hhanded] at hn
      have hne : n ≠ b.data := Nat.ne_of_gt (Nat.lt_of_le_of_lt h.old hn)
      rw [hcontents, Function.update_of_ne hne]
      exact h.fresh n hn k
    · rw [hdata, hhanded]
      exact h.old
  | moved hdata hhanded hsize hcontents =>
    have hnew : b.handed < b.handed + 1 := Nat.lt_succ_self _
    refine ⟨fun k hk => ?_, fun n hn k => ?_, ?_⟩
    · obtain ⟨hlast, hkeep⟩ := overwrite_none hk
      rw [hcontents, hdata, Function.update_self, hkeep]
      split
      · exact h.gaps k hlast
      · exact h.fresh _ hnew k
    · rw [hhanded] at hn
      rw [hcontents, Function.update_of_ne (Nat.ne_of_gt hn)]
      exact h.fresh n (Nat.lt_trans hnew hn) k
    · exact Nat.le_of_eq (hdata.trans hhanded.symm)

/-- An empty array in blocks that hold `v` everywhere. -/
theorem filled_empty {data handed : Nat} (h : data ≤ handed) :
    Filled v (fun _ => none) ⟨fun _ _ => v, data, 0, handed⟩ :=
  ⟨fun _ _ => rfl, fun _ _ _ => rfl, h⟩

theorem recorded_empty (contents : Nat → Nat → α) (data handed : Nat) :
    Recorded (fun _ => none) ⟨contents, data, 0, handed⟩ :=
  ⟨fun _ => rfl, fun _ _ hk => (by cases hk), fun _ _ hk => (by cases hk)⟩

/-! ## Machines that keep such an array -/

/-- A machine with its outputs: the array, what an input stores to it and the
stretch of it (from where, how many) that an input asks for. -/
structure Storage (σ ι ο α : Type) where
  step : σ → ι → σ
  out : σ → ι → ο × List α
  backing : σ → Backing α
  stored : σ → ι → Option (Nat × List α)
  asked : σ → ι → Nat × Nat

namespace Storage
variable {σ ι ο : Type}

/-- A step, with the record of the elements stored so far. -/
def recordStep (m : Storage σ ι ο α) (p : σ × (Nat → Option α)) (i : ι) :
    σ × (Nat → Option α) :=
  (m.step p.1 i,
    match m.stored p.1 i with
    | some (offset, buf) => overwrite p.2 offset (buf.map some)
    | none => p.2)

/-- Everything that is asked for was stored before. -/
def Covered (m : Storage σ ι ο α) (p : σ × (Nat → Option α)) (i : ι) : Prop :=
  ∀ k < (m.asked p.1 i).2, p.2 ((m.asked p.1 i).1 + k) ≠ none

/-- In the array, what was never stored to reads as `zero`. -/
def GapsRead (m : Storage σ ι ο α) (zero : α) (p : σ × (Nat → Option α)) (i : ι) : Prop :=
  ∀ k x, (m.out p.1 i).2[k]? = some x → (m.asked p.1 i).1 + k < (m.backing p.1).size →
    p.2 ((m.asked p.1 i).1 + k) = none → x = zero

/-- Runs from the twins of a state put out the same, and gaps in the array read as
`zero`. -/
def Sealed (m : Storage σ ι ο α) (Twin : σ → σ → Prop) (zero : α) (s : σ) (is : List ι) : Prop :=
  (∀ t t', Twin s t → Twin s t' → outs m.step m.out t is = outs m.step m.out t' is) ∧
    ∀ t, Twin s t → Guarded m.recordStep (m.GapsRead zero) (t, fun _ => none) is

/-- What the machine does to the array, and that twins do it alike. -/
structure Lawful (m : Storage σ ι ο α) (Twin : σ → σ → Prop) (Inv : σ → Prop)
    (ok : σ → ι → Prop) : Prop where
  inv : ∀ s i, Inv s → ok s i → Inv (m.step s i)
  effect : ∀ s i, Inv s → ok s i →
    (∃ offset buf, m.stored s i = some (offset, buf) ∧
      Stores (m.backing s) (m.backing (m.step s i)) offset buf) ∨
    m.stored s i = none ∧ Keeps (m.backing s) (m.backing (m.step s i))
  reads : ∀ s i, Inv s → ok s i → (m.out s i).2 =
    slice ((m.backing s).contents (m.backing s).data) (m.asked s i).1 (m.asked s i).2
  twin_inv : ∀ s t, Twin s t → Inv s → Inv t
  twin_ok : ∀ s t i, Twin s t → ok s i → ok t i
  twin_stored : ∀ s t i, Twin s t → m.stored t i = m.stored s i
  twin_asked : ∀ s t i, Twin s t → m.asked t i = m.asked s i
  twin_out : ∀ s t i, Twin s t → (m.out t i).1 = (m.out s i).1
  twin_step : ∀ s t i, Twin s t → Twin (m.step s i) (m.step t i)

variable {m : Storage σ ι ο α} {Twin : σ → σ → Prop} {Inv : σ → Prop} {ok : σ → ι → Prop}
  {s t : σ} {i : ι} {is : List ι} {p q : σ × (Nat → Option α)}
  {I J : (Nat → Option α) → Backing α → Prop}

theorem outs_recordStep (m : Storage σ ι ο α) (p : σ × (Nat → Option α)) (is : List ι) :
    outs m.recordStep (fun p i => m.out p.1 i) p is = outs m.step m.out p.1 is := by
  induction is generalizing p with
  | nil => rfl
  | cons i is ih => exact congrArg (m.out p.1 i :: ·) (ih (m.recordStep p i))

theorem guarded_recordStep (last : Nat → Option α) (hg : Guarded m.step ok s is) :
    Guarded m.recordStep (fun p i => ok p.1 i) (s, last) is :=
  hg.transfer (fun s p => p.1 = s) (fun _ _ _ he ho => he ▸ ho) (fun _ _ _ he _ => he ▸ rfl) rfl

/-- What a step that keeps the array and a store both keep. -/
structure Carried (I : (Nat → Option α) → Backing α → Prop) : Prop where
  keep : ∀ {last b b'}, I last b → Keeps b b' → I last b'
  store : ∀ {last b b' offset buf}, I last b → Stores b b' offset buf →
    I (overwrite last offset (buf.map some)) b'

theorem carried_recorded : Carried (@Recorded α) := ⟨Recorded.keep, Recorded.store⟩

theorem carried_filled (v : α) : Carried (Filled v) := ⟨Filled.keep, Filled.store⟩

theorem Lawful.carry (h : m.Lawful Twin Inv ok) (hc : Carried I) (hi : Inv p.1) (ho : ok p.1 i)
    (hI : I p.2 (m.backing p.1)) :
    I (m.recordStep p i).2 (m.backing (m.recordStep p i).1) := by
  rw [recordStep]
  rcases h.effect _ _ hi ho with ⟨offset, buf, hs, hstores⟩ | ⟨hs, hkeeps⟩ <;> rw [hs]
  · exact hc.store hI hstores
  · exact hc.keep hI hkeeps

/-- Two runs side by side. -/
structure Beside (m : Storage σ ι ο α) (Twin : σ → σ → Prop) (Inv : σ → Prop)
    (I J : (Nat → Option α) → Backing α → Prop) (p q : σ × (Nat → Option α)) : Prop where
  record : q.2 = p.2
  twin : Twin p.1 q.1
  inv : Inv p.1
  left : I p.2 (m.backing p.1)
  right : J q.2 (m.backing q.1)

theorem Lawful.record_step (h : m.Lawful Twin Inv ok) (hr : q.2 = p.2) (ht : Twin p.1 q.1) :
    (m.recordStep q i).2 = (m.recordStep p i).2 ∧
      Twin (m.recordStep p i).1 (m.recordStep q i).1 := by
  refine ⟨?_, h.twin_step _ _ _ ht⟩
  rw [recordStep, recordStep, h.twin_stored _ _ _ ht, hr]

theorem Beside.step (hb : Beside m Twin Inv I J p q) (h : m.Lawful Twin Inv ok)
    (hI : Carried I) (hJ : Carried J) (ho : ok p.1 i) :
    Beside m Twin Inv I J (m.recordStep p i) (m.recordStep q i) := by
  obtain ⟨hrecord, htwin⟩ := @Lawful.record_step _ _ _ _ _ _ _ _ i _ _ h hb.record hb.twin
  refine ⟨hrecord, htwin, h.inv _ _ hb.inv ho, h.carry hI hb.inv ho hb.left, ?_⟩
  exact h.carry hJ (h.twin_inv _ _ hb.twin hb.inv) (h.twin_ok _ _ _ hb.twin ho) hb.right

/-- What is covered is told by the inputs alone. -/
theorem Lawful.covered_twin (h : m.Lawful Twin Inv ok) (ht : Twin s t)
    {last : Nat → Option α} (hg : Guarded m.recordStep m.Covered (s, last) is) :
    Guarded m.recordStep m.Covered (t, last) is := by
  refine hg.transfer (fun p q => q.2 = p.2 ∧ Twin p.1 q.1) ?_ ?_ ⟨rfl, ht⟩
  · rintro p q i ⟨hrecord, htwin⟩ hcovered
    rw [Covered, h.twin_asked _ _ _ htwin, hrecord]
    exact hcovered
  · rintro p q i ⟨hrecord, htwin⟩ -
    exact h.record_step hrecord htwin

/-- A gap that is read tells what the blocks were filled with. -/
theorem Beside.covered {v w : α} (hb : Beside m Twin Inv (Filled v) (Filled w) p q)
    (h : m.Lawful Twin Inv ok) (hvw : v ≠ w) (ho : ok p.1 i) (he : m.out p.1 i = m.out q.1 i) :
    m.Covered p i := by
  intro k hk hnone
  have hp := h.reads _ _ hb.inv ho
  have hq := h.reads _ _ (h.twin_inv _ _ hb.twin hb.inv) (h.twin_ok _ _ _ hb.twin ho)
  rw [h.twin_asked _ _ _ hb.twin, ← he, hp] at hq
  have hlen : ∀ f : Nat → α, k < (slice f (m.asked p.1 i).1 (m.asked p.1 i).2).length :=
    fun f => length_slice.symm ▸ hk
  have hk := List.getElem_of_eq hq (hlen _)
  rw [getElem_slice, getElem_slice, hb.left.gaps _ hnone,
    hb.right.gaps _ (hb.record.symm ▸ hnone)] at hk
  exact hvw hk

/-- Where everything that is read was stored before, the same is read. -/
theorem Beside.out_eq (hb : Beside m Twin Inv Recorded Recorded p q)
    (h : m.Lawful Twin Inv ok) (ho : ok p.1 i) (hc : m.Covered p i) :
    m.out p.1 i = m.out q.1 i := by
  refine Prod.ext (h.twin_out _ _ _ hb.twin).symm ?_
  rw [h.reads _ _ hb.inv ho,
    h.reads _ _ (h.twin_inv _ _ hb.twin hb.inv) (h.twin_ok _ _ _ hb.twin ho),
    h.twin_asked _ _ _ hb.twin]
  refine slice_congr fun k hk => ?_
  obtain ⟨x, hx⟩ := Option.ne_none_iff_exists'.mp (hc k hk)
  rw [hb.left.records _ _ hx, hb.right.records _ _ (hb.record.symm ▸ hx)]

/-- Where everything that is read was stored before, no gap is read. -/
theorem Lawful.gapsRead (h : m.Lawful Twin Inv ok) (zero : α) (hi : Inv p.1) (ho : ok p.1 i)
    (hc : m.Covered p i) : m.GapsRead zero p i := by
  intro k x hx _ hnone
  rw [h.reads _ _ hi ho] at hx
  have hlt := (List.getElem?_eq_some_iff.mp hx).1
  rw [length_slice] at hlt
  exact absurd hnone (hc k hlt)

/-- **Nothing but what was stored is ever seen** if and only if every position that
is asked for was stored to before. -/
theorem Lawful.sealed_iff (h : m.Lawful Twin Inv ok) (htwin : Equivalence Twin) {v w : α}
    (hvw : v ≠ w) (zero : α) (hi : Inv s) (hg : Guarded m.step ok s is)
    (hrecorded : ∀ t, Twin s t → Recorded (fun _ => none) (m.backing t))
    (hfilled : ∀ v, ∃ t, Twin s t ∧ Filled v (fun _ => none) (m.backing t)) :
    m.Sealed Twin zero s is ↔ Guarded m.recordStep m.Covered (s, fun _ => none) is := by
  have hok : ∀ t, Twin s t →
      Guarded m.recordStep (fun p i => ok p.1 i) (t, fun _ => none) is := fun t ht =>
    guarded_recordStep _ (hg.transfer Twin (fun s t i ht ho => h.twin_ok s t i ht ho)
      (fun s t i ht _ => h.twin_step s t i ht) ht)
  constructor
  · intro ⟨hsame, _⟩
    obtain ⟨t, ht, hv⟩ := hfilled v
    obtain ⟨t', ht', hw⟩ := hfilled w
    have htt := htwin.trans (htwin.symm ht) ht'
    have houts := hsame t t' ht ht'
    rw [← outs_recordStep m (t, fun _ => none), ← outs_recordStep m (t', fun _ => none)] at houts
    have hstep : ∀ p q i, Beside m Twin Inv (Filled v) (Filled w) p q → ok p.1 i →
        Beside m Twin Inv (Filled v) (Filled w) (m.recordStep p i) (m.recordStep q i) :=
      fun p q i hb ho => hb.step h (carried_filled v) (carried_filled w) ho
    refine h.covered_twin (htwin.symm ht) (guarded_of_outs_eq _
      (fun p q i hb ho he => hb.covered h hvw ho he) hstep ?_ (hok t ht) houts)
    exact ⟨rfl, htt, h.twin_inv _ _ ht hi, hv, hw⟩
  · intro hcovered
    refine ⟨fun t t' ht ht' => ?_, fun t ht => ?_⟩
    · have htt := htwin.trans (htwin.symm ht) ht'
      rw [← outs_recordStep m (t, fun _ => none), ← outs_recordStep m (t', fun _ => none)]
      have hstep : ∀ p q i, Beside m Twin Inv Recorded Recorded p q →
          ok p.1 i ∧ m.Covered p i →
          Beside m Twin Inv Recorded Recorded (m.recordStep p i) (m.recordStep q i) :=
        fun p q i hb hc => hb.step h carried_recorded carried_recorded hc.1
      refine Guarded.outs_eq _ (fun p q i hb hc => hb.out_eq h hc.1 hc.2) hstep ?_
        ((hok t ht).and (h.covered_twin ht hcovered))
      exact ⟨rfl, htt, h.twin_inv _ _ ht hi, hrecorded t ht, hrecorded t' ht'⟩
    · refine Guarded.imp (fun p => Inv p.1) (fun p i hp hc => h.inv _ _ hp hc.1)
        (fun p i hp hc => h.gapsRead zero hp hc.1 hc.2) ?_
        ((hok t ht).and (h.covered_twin ht hcovered))
      exact h.twin_inv _ _ ht hi

end Storage

end SynapseKernel.Uncleared
