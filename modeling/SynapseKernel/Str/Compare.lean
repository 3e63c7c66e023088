import SynapseKernel.Str.Scan

/-! # Comparing two strings in memory (lib/string.c)

`strcmp` and `strncmp` with both strings in memory and with the cursors that they read at.
They return what the comparison of the texts returns (`strcmp_eq`, `strncmp_eq`), of which the
sign is that of the lexicographic order of unsigned bytes (`Compares`). -/
namespace SynapseKernel.Str
open SynapseKernel.Word SynapseKernel.ByteMemory

/-- What a function of two strings returns, and the cursors it reads each of them at. -/
structure Reading (α : Type) where
  result : α
  reads1 : List Nat
  reads2 : List Nat

/-- Cursors that are read at before. -/
def Reading.after {α : Type} (reads1 reads2 : List Nat) (r : Reading α) : Reading α :=
  ⟨r.result, reads1 ++ r.reads1, reads2 ++ r.reads2⟩

/-- Nothing is read behind the NUL of a string of length `k` at `p`, or of `l` at `q`. -/
structure Reading.Within {α : Type} (r : Reading α) (p k q l : Nat) : Prop where
  first : ∀ x ∈ r.reads1, p ≤ x ∧ x ≤ p + k
  second : ∀ x ∈ r.reads2, q ≤ x ∧ x ≤ q + l

namespace InMemory

/-- `n` rounds of the loop of `strcmp` and `strncmp` and, if it is left before that, the
difference of the bytes. Each round reads both strings. -/
def compareFrom (m : Mem) : Nat → Nat → Nat → Reading (Option Int)
  | 0, _, _ => ⟨none, [], []⟩
  | n + 1, s1, s2 =>
    if char m s1 ≠ 0 ∧ char m s1 = char m s2 then
      (compareFrom m n (s1 + 1) (s2 + 1)).after [s1] [s2]
    else ⟨some ((char m s1).toNat - (char m s2).toNat), [s1], [s2]⟩

/-- `none` if the loop goes on for ever. -/
def strcmp (m : Mem) (s1 s2 : Nat) : Reading (Option Int) := compareFrom m loopFuel s1 s2

/-- `0` where `n` has gone down to it. -/
def strncmp (m : Mem) (s1 s2 n : Nat) : Reading Int :=
  let r := compareFrom m n s1 s2
  ⟨r.result.getD 0, r.reads1, r.reads2⟩

end InMemory

/-- A number has the sign of the lexicographic order of two texts. -/
structure Compares (r : Int) (s t : List UInt8) : Prop where
  zero : r = 0 ↔ s = t
  neg : r < 0 ↔ s < t
  pos : 0 < r ↔ t < s

variable {m : Mem} {p q a b k l n : Nat} {s t : List UInt8} {α : Type} {r : Reading α}

/-! ## Texts -/

theorem cons_notMem_nul {c : UInt8} (h0 : 0 ∉ c :: s) : c ≠ 0 ∧ 0 ∉ s := by
  obtain ⟨hc, hs⟩ := not_or.mp (mt List.mem_cons.mpr h0)
  exact ⟨Ne.symm hc, hs⟩

theorem toNat_pos {c : UInt8} (hc : c ≠ 0) : 0 < c.toNat :=
  Nat.pos_of_ne_zero fun h => hc (UInt8.toNat_inj.mp h)

/-- The truncated texts are compared. -/
theorem strncmpFrom_eq (s t : List UInt8) (n : Nat) :
    strncmpFrom s t n = strcmpFrom (s.take n) (t.take n) := by
  induction n generalizing s t with
  | zero =>
    rw [List.take_zero, List.take_zero, strcmpFrom]
    cases s <;> cases t <;> rfl
  | succ n ih =>
    cases s with
    | nil => cases t <;> rfl
    | cons c s =>
      cases t with
      | nil => rfl
      | cons d t => rw [List.take_succ_cons, List.take_succ_cons, strncmpFrom, strcmpFrom, ih]

/-- **The sign of `strcmp`.** -/
theorem compares_strcmpFrom (hs : 0 ∉ s) (ht : 0 ∉ t) : Compares (strcmpFrom s t) s t := by
  induction s generalizing t with
  | nil =>
    cases t with
    | nil => exact ⟨iff_of_true rfl rfl, by simp [strcmpFrom], by simp [strcmpFrom]⟩
    | cons d t =>
      have hd := toNat_pos (cons_notMem_nul ht).1
      rw [strcmpFrom]
      refine ⟨iff_of_false (by omega) (List.cons_ne_nil d t).symm, ?_, ?_⟩
      · exact iff_of_true (by omega) (List.nil_lt_cons d t)
      · exact iff_of_false (by omega) (List.not_lt_nil _)
  | cons c s ih =>
    obtain ⟨hc, hs⟩ := cons_notMem_nul hs
    cases t with
    | nil =>
      have hpos := toNat_pos hc
      rw [strcmpFrom]
      refine ⟨iff_of_false (by omega) (List.cons_ne_nil c s), ?_, ?_⟩
      · exact iff_of_false (by omega) (List.not_lt_nil _)
      · exact iff_of_true (by omega) (List.nil_lt_cons c s)
    | cons d t =>
      obtain ⟨-, ht⟩ := cons_notMem_nul ht
      rw [strcmpFrom]
      by_cases hcd : c = d
      · obtain ⟨hzero, hneg, hpos⟩ := ih hs ht
        rw [if_pos hcd, hcd]
        refine ⟨?_, ?_, ?_⟩
        · rw [hzero, List.cons_inj_right]
        · rw [hneg, List.cons_lt_cons_self]
        · rw [hpos, List.cons_lt_cons_self]
      · have hne : c.toNat ≠ d.toNat := fun he => hcd (UInt8.toNat_inj.mp he)
        have hlt : c < d ↔ c.toNat < d.toNat := UInt8.lt_iff_toNat_lt
        have hgt : d < c ↔ d.toNat < c.toNat := UInt8.lt_iff_toNat_lt
        rw [if_neg hcd]
        refine ⟨iff_of_false (by omega) fun he => hcd (List.cons.inj he).1, ?_, ?_⟩
        · rw [List.cons_lt_cons_iff, or_iff_left fun he => hcd he.1, hlt]
          omega
        · rw [List.cons_lt_cons_iff, or_iff_left fun he => hcd he.1.symm, hgt]
          omega

/-! ## Memory -/

theorem Reading.Within.after (h : r.Within (p + 1) k (q + 1) l) :
    (r.after [p] [q]).Within p (k + 1) q (l + 1) := by
  refine ⟨List.forall_mem_cons.mpr ⟨by omega, fun x hx => ?_⟩,
    List.forall_mem_cons.mpr ⟨by omega, fun x hx => ?_⟩⟩
  · have hin := h.first x hx
    omega
  · have hin := h.second x hx
    omega

theorem start_in_string (p k : Nat) : ∀ x ∈ [p], p ≤ x ∧ x ≤ p + k := by
  intro x hx
  obtain rfl := List.mem_singleton.mp hx
  omega

theorem within_single (res : α) (p k q l : Nat) : Reading.Within ⟨res, [p], [q]⟩ p k q l :=
  ⟨start_in_string p k, start_in_string q l⟩

/-- The loop compares the texts and reads them only. -/
theorem compareFrom_spec (hs : Holds m p s) (ht : Holds m q t) (hs0 : 0 ∉ s) (ht0 : 0 ∉ t)
    (n : Nat) : (InMemory.compareFrom m n p q).result.getD 0 = strncmpFrom s t n ∧
      (s.length < n → (InMemory.compareFrom m n p q).result.isSome = true) ∧
      (InMemory.compareFrom m n p q).Within p s.length q t.length := by
  induction n generalizing p q s t with
  | zero =>
    refine ⟨?_, fun h => absurd h (Nat.not_lt_zero _), ?_⟩
    · cases s <;> cases t <;> rfl
    · exact ⟨fun _ hx => absurd hx List.not_mem_nil, fun _ hx => absurd hx List.not_mem_nil⟩
  | succ n ih =>
    rw [InMemory.compareFrom, hs.char_head, ht.char_head]
    by_cases hgo : s.headD 0 ≠ 0 ∧ s.headD 0 = t.headD 0
    · cases s with
      | nil => exact absurd rfl hgo.1
      | cons c s =>
        cases t with
        | nil => exact absurd hgo.2 hgo.1
        | cons d t =>
          have hcd : c = d := hgo.2
          obtain ⟨hresult, hsome, hwithin⟩ :=
            ih hs.2 ht.2 (cons_notMem_nul hs0).2 (cons_notMem_nul ht0).2
          rw [if_pos hgo, strncmpFrom, if_pos hcd]
          exact ⟨hresult, fun h => hsome (Nat.lt_of_succ_lt_succ h), hwithin.after⟩
    · rw [if_neg hgo]
      refine ⟨?_, fun _ => rfl, within_single _ _ _ _ _⟩
      cases s with
      | nil =>
        cases t with
        | nil => rfl
        | cons d t => rfl
      | cons c s =>
        cases t with
        | nil => rfl
        | cons d t =>
          have hcd : c ≠ d := fun he => hgo ⟨(cons_notMem_nul hs0).1, he⟩
          rw [strncmpFrom, if_neg hcd]
          rfl

section Strings
variable {s t : CString}

/-- `strcmp` on memory is `strcmp` on the strings that stand there. -/
theorem strcmp_eq (hs : Holds m p s.bytes) (ht : Holds m q t.bytes) :
    (InMemory.strcmp m p q).result = some (strcmp s t) ∧
      (InMemory.strcmp m p q).Within p s.bytes.length q t.bytes.length := by
  obtain ⟨hresult, hsome, hwithin⟩ := compareFrom_spec hs ht s.noNul t.noNul loopFuel
  have hlen := hs.length_lt s.noNul
  have hlen' := ht.length_lt t.noNul
  refine ⟨?_, hwithin⟩
  obtain ⟨r, hr⟩ := Option.isSome_iff_exists.mp (hsome hlen)
  rw [hr, Option.getD_some, strncmpFrom_eq, List.take_of_length_le (Nat.le_of_lt hlen),
    List.take_of_length_le (Nat.le_of_lt hlen')] at hresult
  rw [InMemory.strcmp, hr, hresult, strcmp]

theorem strncmp_eq (hs : Holds m p s.bytes) (ht : Holds m q t.bytes) (n : Nat) :
    (InMemory.strncmp m p q n).result = strncmp s t n ∧
      (InMemory.strncmp m p q n).Within p s.bytes.length q t.bytes.length := by
  obtain ⟨hresult, -, hwithin⟩ := compareFrom_spec hs ht s.noNul t.noNul n
  exact ⟨hresult, hwithin.first, hwithin.second⟩

/-- The first bytes of a string. -/
def CString.take (s : CString) (n : Nat) : CString :=
  ⟨s.bytes.take n, fun h => s.noNul (List.mem_of_mem_take h)⟩

/-- **`strcmp` and `strncmp` decide lexicographic order.** For all strings in memory, `strcmp`
returns a number of the sign of their order, `strncmp` one of the sign that `strcmp` returns
for the strings cut off after `n` bytes, and neither reads behind a NUL. -/
theorem strcmp_lexicographic (hs : Holds m p s.bytes) (ht : Holds m q t.bytes) :
    ((∃ r, (InMemory.strcmp m p q).result = some r ∧ Compares r s.bytes t.bytes) ∧
      (InMemory.strcmp m p q).Within p s.bytes.length q t.bytes.length) ∧
    ∀ n, (∀ m' p' q', Holds m' p' (s.bytes.take n) → Holds m' q' (t.bytes.take n) →
        ∃ r, (InMemory.strcmp m' p' q').result = some r ∧
          (InMemory.strncmp m p q n).result.sign = r.sign) ∧
      (InMemory.strncmp m p q n).Within p s.bytes.length q t.bytes.length := by
  obtain ⟨hresult, hwithin⟩ := strcmp_eq hs ht
  refine ⟨⟨⟨_, hresult, compares_strcmpFrom s.noNul t.noNul⟩, hwithin⟩, fun n => ?_⟩
  obtain ⟨hresult, hwithin⟩ := strncmp_eq hs ht n
  refine ⟨fun m' p' q' hs' ht' => ?_, hwithin⟩
  have hcut := (@strcmp_eq m' p' q' (s.take n) (t.take n) hs' ht').1
  refine ⟨_, hcut, ?_⟩
  rw [hresult, strncmp, strncmpFrom_eq]
  rfl

/-- `ab` and `ac`, and their first letters. -/
theorem strcmp_lexicographic_letters :
    let m := place [97, 98, 0, 97, 99, 0]
    ((∃ r, (InMemory.strcmp m 0 3).result = some r ∧
        Compares r (ascii ['a', 'b']) (ascii ['a', 'c'])) ∧
      (InMemory.strcmp m 0 3).Within 0 2 3 2) ∧
    (∃ r, (InMemory.strcmp (place [97, 0]) 0 0).result = some r ∧
      (InMemory.strncmp m 0 3 1).result.sign = r.sign) ∧
    (InMemory.strncmp m 0 3 1).Within 0 2 3 2 := by
  intro m
  have hs : Holds m 0 (ascii ['a', 'b']) := ⟨rfl, rfl, rfl⟩
  have ht : Holds m 3 (ascii ['a', 'c']) := ⟨rfl, rfl, rfl⟩
  have ha : Holds (place [97, 0]) 0 (ascii ['a']) := ⟨rfl, rfl⟩
  obtain ⟨hcmp, hncmp⟩ := @strcmp_lexicographic m 0 3 ⟨ascii ['a', 'b'], by decide⟩
    ⟨ascii ['a', 'c'], by decide⟩ hs ht
  exact ⟨hcmp, (hncmp 1).1 _ 0 0 ha ha, (hncmp 1).2⟩

end Strings

end SynapseKernel.Str
