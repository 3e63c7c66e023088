import SynapseKernel.Str.Scan
import SynapseKernel.Str.Strcpy

/-! # Cutting a string into fields (lib/string.c)

`strtok` cuts the string it was given last at the next delimiter and remembers where it goes
on. It does not pass over delimiters: each call returns one field of the string, an empty one
where a delimiter stands right at the start of what is left. -/
namespace SynapseKernel.Str
open SynapseKernel.Word SynapseKernel.ByteMemory

abbrev NULL : Nat := 0

/-- Memory and `strtok_saveptr`. -/
structure StrtokState where
  mem : Mem
  saveptr : Nat

/-- The loop of `strtok`: the state it leaves and what is returned; `none` if it goes on
after `fuel` rounds. -/
def strtokFrom (delim : List UInt8) (tokenStart : Nat) :
    Nat → StrtokState → Option (StrtokState × Nat)
  | 0, _ => none
  | fuel + 1, st =>
    if char st.mem st.saveptr = 0 then
      if tokenStart = st.saveptr then some (st, NULL)
      else some ({ st with saveptr := NULL }, tokenStart)
    else if char st.mem st.saveptr ∈ delim then
      some (⟨Function.update st.mem (u32 st.saveptr) 0, u32 (st.saveptr + 1)⟩, tokenStart)
    else strtokFrom delim tokenStart fuel { st with saveptr := u32 (st.saveptr + 1) }

def strtok (st : StrtokState) (str : Nat) (delim : List UInt8) : Option (StrtokState × Nat) :=
  let st := if str ≠ NULL then { st with saveptr := str } else st
  if st.saveptr = NULL then some (st, NULL) else strtokFrom delim st.saveptr loopFuel st

variable {m m' : Mem} {st : StrtokState} {delim s s' w l : List UInt8} {p fuel : Nat} {c : UInt8}

/-- One string stands at an address. -/
theorem Holds.unique (h : Holds m p s) (h' : Holds m p s') (h0 : 0 ∉ s) (h0' : 0 ∉ s') :
    s = s' := by
  induction s generalizing p s' with
  | nil =>
    have hnul : char m p = 0 := h
    cases s' with
    | nil => rfl
    | cons b s' => exact absurd (hnul ▸ h'.1 ▸ List.mem_cons_self) h0'
  | cons b s ih =>
    cases s' with
    | nil =>
      have hnul : char m p = 0 := h'
      exact absurd (hnul ▸ h.1 ▸ List.mem_cons_self) h0
    | cons b' s' =>
      have hb : b = b' := h.1.symm.trans h'.1
      rw [hb, ih h.2 h'.2 (fun hm => h0 (List.mem_cons_of_mem _ hm))
        fun hm => h0' (List.mem_cons_of_mem _ hm)]

/-- A string ends where a NUL is stored over a byte of it. -/
theorem Holds.cut (h : Holds m p (w ++ c :: l)) (hend : p + w.length < 2 ^ 32) :
    Holds (Function.update m (u32 (p + w.length)) 0) p w := by
  induction w generalizing p with
  | nil =>
    unfold Holds char
    exact Function.update_self ..
  | cons b w ih =>
    rw [List.length_cons, Nat.add_comm _ 1, ← Nat.add_assoc] at hend ⊢
    refine ⟨?_, ih h.2 hend⟩
    have hne : u32 p ≠ u32 (p + 1 + w.length) := by
      unfold u32
      omega
    rw [char, Function.update_of_ne hne]
    exact h.1

/-- The string behind the byte stays. -/
theorem Holds.cut_rest (h : Holds m p (w ++ c :: l))
    (hend : p + (w ++ c :: l).length < 2 ^ 32) :
    Holds (Function.update m (u32 (p + w.length)) 0) (p + w.length + 1) l := by
  rw [List.length_append, List.length_cons] at hend
  refine (h.append_right).2.congr (by omega) fun a ha ha' => Function.update_of_ne ?_ ..
  rw [u32_of_lt (by omega)]
  omega

/-! ## What a call returns -/

/-- The loop passes over a field. -/
theorem strtokFrom_field (tokenStart : Nat) (hm : Holds m p (w ++ l))
    (hw : ∀ b ∈ w, b ≠ 0 ∧ b ∉ delim) (hend : p + w.length < 2 ^ 32) :
    strtokFrom delim tokenStart (fuel + w.length) ⟨m, p⟩ =
      strtokFrom delim tokenStart fuel ⟨m, p + w.length⟩ := by
  induction w generalizing p with
  | nil => rfl
  | cons b w ih =>
    rw [List.length_cons] at hend
    obtain ⟨⟨hnul, hdelim⟩, hrest⟩ := List.forall_mem_cons.mp hw
    rw [List.length_cons, ← Nat.add_assoc, strtokFrom]
    simp only [hm.1, if_neg hnul, if_neg hdelim]
    rw [u32_of_lt (by omega), ih hm.2 hrest (by omega), Nat.add_assoc p, Nat.add_comm 1]

/-- A call that goes on in the string. -/
theorem strtok_next (hp : st.saveptr ≠ NULL) :
    strtok st NULL delim = strtokFrom delim st.saveptr loopFuel st := by
  rw [strtok, if_neg (not_not.mpr rfl)]
  exact if_neg hp

/-- A call with a string. -/
theorem strtok_start (hp : p ≠ NULL) :
    strtok st p delim = strtok { st with saveptr := p } NULL delim := by
  rw [strtok_next hp, strtok, if_pos hp]
  exact if_neg hp

/-- A call after the last field. -/
theorem strtok_done (hp : st.saveptr = NULL) : strtok st NULL delim = some (st, NULL) := by
  rw [strtok, if_neg (not_not.mpr rfl)]
  exact if_pos hp

/-- Nothing is left. -/
theorem strtok_nil (hp : st.saveptr ≠ NULL) (hm : Holds st.mem st.saveptr []) :
    strtok st NULL delim = some (st, NULL) := by
  have hnul : char st.mem st.saveptr = 0 := hm
  have hround : ∀ fuel, strtokFrom delim st.saveptr (fuel + 1) st = some (st, NULL) := by
    intro fuel
    rw [strtokFrom, if_pos hnul, if_pos rfl]
  rw [strtok_next hp]
  exact hround (loopFuel - 1)

/-- A call passes over a field and looks at what stands behind it. -/
theorem strtok_passes (hp : st.saveptr ≠ NULL) (hm : Holds st.mem st.saveptr (w ++ l))
    (hw : ∀ b ∈ w, b ≠ 0 ∧ b ∉ delim) (hend : st.saveptr + w.length < 2 ^ 32) :
    ∃ fuel, strtok st NULL delim =
      strtokFrom delim st.saveptr (fuel + 1) ⟨st.mem, st.saveptr + w.length⟩ := by
  have hrounds : loopFuel = loopFuel - 1 - w.length + 1 + w.length := by
    unfold loopFuel
    omega
  have hfield := @strtokFrom_field _ delim w l _ (loopFuel - 1 - w.length + 1) st.saveptr hm hw hend
  rw [← hrounds] at hfield
  exact ⟨loopFuel - 1 - w.length, (strtok_next hp).trans hfield⟩

/-- The last field is returned as it stands. -/
theorem strtok_last (hp : st.saveptr ≠ NULL) (hm : Holds st.mem st.saveptr w) (hne : w ≠ [])
    (hw : ∀ b ∈ w, b ≠ 0 ∧ b ∉ delim) (hend : st.saveptr + w.length < 2 ^ 32) :
    strtok st NULL delim = some ({ st with saveptr := NULL }, st.saveptr) := by
  have hlen : 0 < w.length := List.length_pos_iff.mpr hne
  obtain ⟨fuel, hcall⟩ := strtok_passes (l := []) hp (by rwa [List.append_nil]) hw hend
  have hbehind : st.saveptr ≠ st.saveptr + w.length := by omega
  rw [hcall, strtokFrom, if_pos hm.nul, if_neg hbehind]

/-- A field in front of a delimiter is cut off, and the rest of the string stays. -/
theorem strtok_field (hp : st.saveptr ≠ NULL) (hm : Holds st.mem st.saveptr (w ++ c :: l))
    (hw : ∀ b ∈ w, b ≠ 0 ∧ b ∉ delim) (hc : c ∈ delim) (h0 : c ≠ 0)
    (hend : st.saveptr + (w ++ c :: l).length < 2 ^ 32) :
    ∃ m', strtok st NULL delim = some (⟨m', st.saveptr + w.length + 1⟩, st.saveptr) ∧
      Holds m' st.saveptr w ∧ Holds m' (st.saveptr + w.length + 1) l ∧
      ∀ a < st.saveptr + w.length, m' a = st.mem a := by
  have hrest := hm.cut_rest hend
  rw [List.length_append, List.length_cons] at hend
  refine ⟨_, ?_, hm.cut (by omega), hrest, fun a ha => ?_⟩
  · obtain ⟨fuel, hcall⟩ := strtok_passes hp hm hw (by omega)
    have hchar : char st.mem (st.saveptr + w.length) = c := hm.append_right.1
    rw [hcall, strtokFrom]
    simp only [hchar, if_neg h0, if_pos hc]
    rw [u32_of_lt (show st.saveptr + w.length + 1 < 2 ^ 32 by omega)]
  · rw [u32_of_lt (by omega), Function.update_of_ne (Nat.ne_of_lt ha)]

end SynapseKernel.Str
