import SynapseKernel.Lib.Numeral
import SynapseKernel.Str.Scan

/-! # atoi

The standard's `atoi` on a byte memory, which the kernel uses without a definition of
its own: white space is skipped, and the digits behind it are the number. Callers rely
on what it does where no sign stands (`StandardAtoi`). -/
namespace SynapseKernel.Str
open SynapseKernel.Word SynapseKernel.ByteMemory SynapseKernel.Numeral

/-- `isspace`. -/
def spaces : List UInt8 := [32, 9, 10, 11, 12, 13]

/-- A text that begins with blanks and the digits `ds` of a number, perhaps none. -/
structure BeginsWith (text ds : List UInt8) : Prop where
  split : ∃ blanks rest, text = blanks ++ (ds ++ rest) ∧ (∀ b ∈ blanks, b ∈ spaces) ∧
    (∀ b ∈ rest.head?, ¬ IsDigit b) ∧
    (ds = [] → ∀ b ∈ rest.head?, b ∉ spaces ∧ b ≠ byteOf '-' ∧ b ≠ byteOf '+')
  digits : ∀ b ∈ ds, IsDigit b

/-- What the standard says of `atoi` where no sign stands; the result is a word. -/
def StandardAtoi (atoi : Mem → Nat → Nat) : Prop :=
  ∀ m p text ds, Holds m p text → 0 ∉ text → BeginsWith text ds → value ds < 2 ^ 31 →
    atoi m p = value ds

/-- The loop over the digits. -/
def digitsAt (m : Mem) : Nat → Nat → Nat → Nat
  | 0, _, v => v
  | fuel + 1, p, v => if IsDigit (char m p) then digitsAt m fuel (p + 1) (more v (char m p)) else v

def atoi (m : Mem) (p : Nat) : Nat :=
  match skip m spaces p with
  | none => 0
  | some q =>
    if char m q = byteOf '-' then sub32 0 (u32 (digitsAt m loopFuel (q + 1) 0))
    else if char m q = byteOf '+' then u32 (digitsAt m loopFuel (q + 1) 0)
    else u32 (digitsAt m loopFuel q 0)

variable {m : Mem} {p : Nat} {ds rest text : List UInt8}

theorem not_space_of_isDigit {b : UInt8} (h : IsDigit b) :
    b ∉ spaces ∧ b ≠ byteOf '-' ∧ b ≠ byteOf '+' := by
  refine ⟨fun hb => ?_, ?_, ?_⟩
  · have hsmall : ∀ c ∈ spaces, c.toNat < 48 := forall_of_all (by decide)
    exact absurd h.1 (Nat.not_le_of_lt (hsmall b hb))
  · rintro rfl
    exact absurd h.1 (by decide)
  · rintro rfl
    exact absurd h.1 (by decide)

theorem digitsAt_eq (h : Holds m p (ds ++ rest)) (hds : ∀ b ∈ ds, IsDigit b)
    (hrest : ∀ b ∈ rest.head?, ¬ IsDigit b) {fuel : Nat} (hfuel : ds.length < fuel) (v : Nat) :
    digitsAt m fuel p v = ds.foldl more v := by
  induction ds generalizing p v fuel with
  | nil =>
    obtain ⟨fuel, rfl⟩ := Nat.exists_eq_succ_of_ne_zero (Nat.ne_of_gt hfuel)
    have hstop : ¬ IsDigit (char m p) := by
      rw [h.char_head, List.nil_append]
      cases rest with
      | nil => decide
      | cons b rest => exact hrest b rfl
    exact if_neg hstop
  | cons b ds ih =>
    obtain ⟨fuel, rfl⟩ := Nat.exists_eq_succ_of_ne_zero (Nat.ne_zero_of_lt hfuel)
    obtain ⟨hb, hds⟩ := List.forall_mem_cons.mp hds
    rw [digitsAt, h.1, if_pos hb, ih h.2 hds (Nat.lt_of_succ_lt_succ hfuel), List.foldl_cons]

/-- **The definition follows the standard.** -/
theorem standardAtoi_atoi : StandardAtoi atoi := by
  intro m p text ds h h0 hb hv
  obtain ⟨⟨blanks, rest, rfl, hblanks, hrest, hnone⟩, hds⟩ := hb
  have hhead : ∀ b ∈ (ds ++ rest).head?, b ∉ spaces ∧ b ≠ byteOf '-' ∧ b ≠ byteOf '+' := by
    cases ds with
    | nil => exact hnone rfl
    | cons c ds =>
      intro b hb
      obtain rfl := Option.some.inj hb
      exact not_space_of_isDigit (hds c List.mem_cons_self)
  have hspaces : 0 ∉ spaces := by decide
  obtain ⟨q, hq, -, hq'⟩ := h.skip_eq h0 hspaces
  rw [List.dropWhile_append_of_pos fun b hb => decide_eq_true (hblanks b hb),
    dropWhile_of_head fun b hb => decide_eq_false (hhead b hb).1] at hq'
  have hsign : char m q ≠ byteOf '-' ∧ char m q ≠ byteOf '+' := by
    rw [hq'.char_head]
    cases he : ds ++ rest with
    | nil => exact ⟨by decide, by decide⟩
    | cons b l => exact (hhead b (by rw [he]; rfl)).2
  have hlen : ds.length < loopFuel := by
    have hlt := hq'.length_lt fun hm => h0 (List.mem_append_right _ hm)
    rw [List.length_append] at hlt
    omega
  simp only [atoi, hq, if_neg hsign.1, if_neg hsign.2, digitsAt_eq hq' hds hrest hlen]
  exact u32_of_lt (Nat.lt_trans hv (by decide))

end SynapseKernel.Str
