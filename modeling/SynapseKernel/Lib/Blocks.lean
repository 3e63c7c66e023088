import Mathlib.Data.List.GetD
import Mathlib.Logic.Function.Basic

/-! # Contents of a block

The contents of a block of memory are a function of the position in it. A copy
into a block overwrites a stretch of it and a copy out of a block is a slice. -/
namespace SynapseKernel.Blocks

variable {α : Type} {f g : Nat → α} {buf : List α} {offset n i : Nat}

/-- The contents after `buf` was copied to `offset`. -/
def overwrite (f : Nat → α) (offset : Nat) (buf : List α) (i : Nat) : α :=
  if offset ≤ i then buf.getD (i - offset) (f i) else f i

/-- The `n` elements from `offset` on. -/
def slice (f : Nat → α) (offset n : Nat) : List α := (List.range n).map fun i => f (offset + i)

theorem overwrite_below (h : i < offset) : overwrite f offset buf i = f i :=
  if_neg (Nat.not_le_of_lt h)

theorem overwrite_above (h : offset + buf.length ≤ i) : overwrite f offset buf i = f i := by
  rw [overwrite, if_pos (Nat.le_trans (Nat.le_add_right _ _) h)]
  exact List.getD_eq_default _ _ (Nat.le_sub_of_add_le' h)

/-- Everything outside of a range that is copied into is as before. -/
theorem overwrite_outside {lo hi : Nat} (hlo : lo ≤ offset) (hhi : offset + buf.length ≤ hi)
    (h : i < lo ∨ hi ≤ i) : overwrite f offset buf i = f i := by
  rcases h with h | h
  · exact overwrite_below (Nat.lt_of_lt_of_le h hlo)
  · exact overwrite_above (Nat.le_trans hhi h)

theorem overwrite_inside (h : i < buf.length) :
    overwrite f offset buf (offset + i) = buf[i] := by
  rw [overwrite, if_pos (Nat.le_add_right _ _), Nat.add_sub_cancel_left]
  exact List.getD_eq_getElem _ _ h

/-- A position is in the stretch that was overwritten, or keeps its element. -/
theorem overwrite_cases (buf : List α) (offset i : Nat) :
    (∃ h : i - offset < buf.length, offset ≤ i ∧ ∀ f, overwrite f offset buf i = buf[i - offset]) ∨
    ((i < offset ∨ offset + buf.length ≤ i) ∧ ∀ f, overwrite f offset buf i = f i) := by
  by_cases hbelow : i < offset
  · exact .inr ⟨.inl hbelow, fun f => overwrite_below hbelow⟩
  by_cases habove : offset + buf.length ≤ i
  · exact .inr ⟨.inr habove, fun f => overwrite_above habove⟩
  have hle : offset ≤ i := Nat.le_of_not_lt hbelow
  have hlt : i - offset < buf.length := by omega
  refine .inl ⟨hlt, hle, fun f => ?_⟩
  have hin := @overwrite_inside _ f buf offset _ hlt
  rwa [Nat.add_sub_cancel' hle] at hin

/-- What is recorded as written was written now or before. -/
theorem overwrite_some {last : Nat → Option α} {b : α}
    (h : overwrite last offset (buf.map some) i = some b) :
    (i < offset + buf.length ∧ ∀ f, overwrite f offset buf i = b) ∨
    (last i = some b ∧ ∀ f, overwrite f offset buf i = f i) := by
  rcases overwrite_cases buf offset i with ⟨hlt, hle, hin⟩ | ⟨hout, hkeep⟩
  · have hlt' : i - offset < (buf.map some).length := by rwa [List.length_map]
    have hmap := @overwrite_inside _ last (buf.map some) offset _ hlt'
    rw [Nat.add_sub_cancel' hle, h, List.getElem_map, Option.some.injEq] at hmap
    refine .inl ⟨by omega, fun f => ?_⟩
    rw [hin f, hmap]
  · refine .inr ⟨?_, hkeep⟩
    rcases hout with hout | hout
    · rwa [overwrite_below hout] at h
    · rwa [overwrite_above (by rwa [List.length_map])] at h

theorem overwrite_none {last : Nat → Option α} (h : overwrite last offset (buf.map some) i = none) :
    last i = none ∧ ∀ f, overwrite f offset buf i = f i := by
  rcases overwrite_cases buf offset i with ⟨hlt, hle, -⟩ | ⟨hout, hkeep⟩
  · have hlt' : i - offset < (buf.map some).length := by rwa [List.length_map]
    have hmap := @overwrite_inside _ last (buf.map some) offset _ hlt'
    rw [Nat.add_sub_cancel' hle, h, List.getElem_map] at hmap
    cases hmap
  · refine ⟨?_, hkeep⟩
    rcases hout with hout | hout
    · rwa [overwrite_below hout] at h
    · rwa [overwrite_above (by rwa [List.length_map])] at h

theorem overwrite_nil (f : Nat → α) (offset : Nat) : overwrite f offset [] = f :=
  funext fun _ => ite_self _

theorem overwrite_singleton (f : Nat → α) (offset : Nat) (a : α) :
    overwrite f offset [a] = Function.update f offset a := by
  funext i
  rcases overwrite_cases [a] offset i with ⟨hlt, hle, hin⟩ | ⟨hout, hkeep⟩
  · rw [List.length_singleton] at hlt
    obtain rfl : i = offset := by omega
    rw [hin, Function.update_self]
    exact List.getElem_singleton _
  · rw [List.length_singleton] at hout
    rw [hkeep, Function.update_of_ne (by omega)]

/-- Two copies, the second behind the first. -/
theorem overwrite_append (f : Nat → α) (offset : Nat) (a b : List α) :
    overwrite (overwrite f offset a) (offset + a.length) b = overwrite f offset (a ++ b) := by
  funext i
  by_cases hbelow : i < offset
  · rw [overwrite_below hbelow, overwrite_below (by omega), overwrite_below hbelow]
  have hle : offset ≤ i := Nat.le_of_not_lt hbelow
  by_cases hfirst : i < offset + a.length
  · rw [overwrite_below hfirst, overwrite, overwrite, if_pos hle, if_pos hle,
      List.getD_append _ _ _ _ (by omega)]
  · have hbehind : offset + a.length ≤ i := Nat.le_of_not_lt hfirst
    rw [overwrite, if_pos hbehind, overwrite_above hbehind, overwrite, if_pos hle,
      List.getD_append_right _ _ _ _ (by omega), Nat.sub_sub]

/-- The last element is written first. -/
theorem overwrite_update (f : Nat → α) (offset : Nat) (a : List α) (b : α) :
    overwrite (Function.update f (offset + a.length) b) offset a = overwrite f offset (a ++ [b]) := by
  rw [← overwrite_append, overwrite_singleton]
  funext i
  by_cases hi : i = offset + a.length
  · rw [hi, Function.update_self, overwrite_above (Nat.le_refl _), Function.update_self]
  · rw [Function.update_of_ne hi]
    rcases overwrite_cases a offset i with ⟨hlt, -, hin⟩ | ⟨-, hkeep⟩
    · rw [hin, hin]
    · rw [hkeep, hkeep, Function.update_of_ne hi]

theorem length_slice : (slice f offset n).length = n := by
  rw [slice, List.length_map, List.length_range]

theorem getElem_slice (h : i < (slice f offset n).length) :
    (slice f offset n)[i] = f (offset + i) := by
  simp only [slice, List.getElem_map, List.getElem_range]

theorem slice_congr (h : ∀ i < n, f (offset + i) = g (offset + i)) :
    slice f offset n = slice g offset n :=
  List.map_congr_left fun i hi => h i (List.mem_range.mp hi)

/-- What was copied in is what is copied out. -/
theorem slice_overwrite : slice (overwrite f offset buf) offset buf.length = buf := by
  refine List.ext_getElem length_slice fun i hi hb => ?_
  rw [getElem_slice, overwrite_inside hb]

/-- A copy of the first elements of one block to the front of another. -/
theorem overwrite_slice (f g : Nat → α) (n i : Nat) :
    overwrite f 0 (slice g 0 n) i = if i < n then g i else f i := by
  by_cases h : i < n
  · have hin := @overwrite_inside _ f (slice g 0 n) 0 i (length_slice.symm ▸ h)
    rw [getElem_slice, Nat.zero_add] at hin
    rw [if_pos h, hin]
  · rw [if_neg h, overwrite_above]
    rw [length_slice, Nat.zero_add]
    exact Nat.le_of_not_lt h

/-- The same among all blocks, where there is a block to copy from. -/
theorem copy_block (bytes : Nat → Nat → α) (p : Prop) [Decidable p] (old new n : Nat) :
    (if p then Function.update bytes new (overwrite (bytes new) 0 (slice (bytes old) 0 n))
      else bytes) =
      Function.update bytes new fun k => if p ∧ k < n then bytes old k else bytes new k := by
  by_cases h : p
  · rw [if_pos h]
    refine congrArg _ (funext fun k => ?_)
    exact (overwrite_slice _ _ _ _).trans (if_congr (and_iff_right h).symm rfl rfl)
  · have hsame : (fun k => if p ∧ k < n then bytes old k else bytes new k) = bytes new :=
      funext fun k => if_neg fun hp => h hp.1
    rw [if_neg h, hsame, Function.update_eq_self]

theorem slice_append {m : Nat} :
    slice f offset (n + m) = slice f offset n ++ slice f (offset + n) m := by
  simp only [slice, List.range_add, List.map_append, List.map_map, Function.comp_def, Nat.add_assoc]

theorem take_slice {m : Nat} (h : m ≤ n) : (slice f offset n).take m = slice f offset m := by
  obtain ⟨k, rfl⟩ := Nat.exists_eq_add_of_le h
  rw [slice_append, List.take_left' length_slice]

theorem take_slice_min (m : Nat) : (slice f offset n).take m = slice f offset (min m n) := by
  by_cases h : m ≤ n
  · rw [take_slice h, Nat.min_eq_left h]
  · have hn := Nat.le_of_not_le h
    rw [Nat.min_eq_right hn, List.take_of_length_le (by rwa [length_slice])]

/-- The first part of what was copied in. -/
theorem slice_overwrite_append (f : Nat → α) (a b : List α) :
    slice (overwrite f 0 (a ++ b)) 0 a.length = a := by
  have hwhole := @slice_overwrite _ f (a ++ b) 0
  have hle : a.length ≤ (a ++ b).length := by
    rw [List.length_append]
    exact Nat.le_add_right _ _
  rw [← take_slice hle, hwhole, List.take_left]

theorem drop_slice {m : Nat} (h : m ≤ n) :
    (slice f offset n).drop m = slice f (offset + m) (n - m) := by
  obtain ⟨k, rfl⟩ := Nat.exists_eq_add_of_le h
  rw [slice_append, List.drop_left' length_slice, Nat.add_sub_cancel_left]

/-- **A copy into a block** of which the first `n` elements count, at an offset
among them or at their end. -/
theorem slice_splice (h : offset ≤ n) :
    slice (overwrite f offset buf) 0 (max n (offset + buf.length)) =
      (slice f 0 n).take offset ++ buf ++ (slice f 0 n).drop (offset + buf.length) := by
  obtain ⟨k, hk⟩ := Nat.exists_eq_add_of_le (Nat.le_max_right n (offset + buf.length))
  have hbelow : slice (overwrite f offset buf) 0 offset = slice f 0 offset :=
    slice_congr fun i hi => overwrite_below (by omega)
  have habove : slice (overwrite f offset buf) (offset + buf.length) k =
      slice f (offset + buf.length) k :=
    slice_congr fun i _ => overwrite_above (Nat.le_add_right _ _)
  rw [hk, slice_append, slice_append, Nat.zero_add, Nat.zero_add, hbelow, slice_overwrite, habove,
    take_slice h]
  congr 1
  by_cases hend : offset + buf.length ≤ n
  · rw [drop_slice hend, Nat.zero_add]
    congr 1
    omega
  · have hk0 : k = 0 := by omega
    rw [hk0, List.drop_eq_nil_of_le (by rw [length_slice]; omega)]
    rfl

end SynapseKernel.Blocks
