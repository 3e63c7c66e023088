import Mathlib.Algebra.GroupWithZero.Nat
import Mathlib.Data.List.Basic

/-! # Reading a sequence in chunks

A reader is called again and again, each time at the offset advanced by what the call
before returned, until it returns `0`. When each call copies out some of what stands at
its offset, and nothing at the end, all of the sequence is read, whatever the chunks
were (`Reads.streams_iff`). -/
namespace SynapseKernel.Chunks

variable {α : Type} {read : Nat → Nat → Option (Int × List α)} {data out : List α}
  {k offset : Nat}

/-- The calls from number `k` on, the first of them at `offset`, and all they copy out. -/
inductive Streams (read : Nat → Nat → Option (Int × List α)) : Nat → Nat → List α → Prop
  | done {k offset : Nat} {chunk : List α} : read k offset = some (0, chunk) →
    Streams read k offset chunk
  | more {k offset n : Nat} {chunk out : List α} : read k offset = some ((n : Int), chunk) → n ≠ 0 →
    Streams read (k + 1) (offset + n) out → Streams read k offset (chunk ++ out)

/-- Every call copies out some of `data`, one at the end nothing. -/
structure Reads (read : Nat → Nat → Option (Int × List α)) (data : List α) : Prop where
  chunk : ∀ k offset, offset < data.length → ∃ n, n ≠ 0 ∧ offset + n ≤ data.length ∧
    read k offset = some ((n : Int), (data.drop offset).take n)
  last : ∀ k, read k data.length = some (0, [])

theorem take_append_drop_add (data : List α) (offset n : Nat) :
    (data.drop offset).take n ++ data.drop (offset + n) = data.drop offset := by
  rw [← List.drop_drop]
  exact List.take_append_drop n _

theorem Reads.streams (h : Reads read data) (hoffset : offset ≤ data.length) :
    Streams read k offset (data.drop offset) := by
  induction hrest : data.length - offset using Nat.strongRecOn generalizing k offset with
  | ind rest ih =>
    rcases Nat.lt_or_eq_of_le hoffset with hlt | rfl
    · obtain ⟨n, hn, hle, hread⟩ := h.chunk k offset hlt
      rw [← take_append_drop_add data offset n]
      exact .more hread hn (ih (data.length - (offset + n)) (by omega) hle rfl)
    · rw [List.drop_length]
      exact .done (h.last k)

theorem Reads.eq_of_streams (h : Reads read data) (hs : Streams read k offset out)
    (hoffset : offset ≤ data.length) : out = data.drop offset := by
  induction hs with
  | @done k offset chunk hread =>
    rcases Nat.lt_or_eq_of_le hoffset with hlt | rfl
    · obtain ⟨n, hn, -, hread'⟩ := h.chunk k offset hlt
      have hzero := (Prod.mk.inj (Option.some.inj (hread'.symm.trans hread))).1
      exact absurd (Int.ofNat.inj hzero) hn
    · rw [List.drop_length]
      exact (Prod.mk.inj (Option.some.inj (hread.symm.trans (h.last k)))).2
  | @more k offset n chunk out hread hn _ ih =>
    rcases Nat.lt_or_eq_of_le hoffset with hlt | rfl
    · obtain ⟨n', -, hle, hread'⟩ := h.chunk k offset hlt
      obtain ⟨hsame, rfl⟩ := Prod.mk.inj (Option.some.inj (hread'.symm.trans hread))
      obtain rfl := Int.ofNat.inj hsame
      rw [ih hle]
      exact take_append_drop_add data offset _
    · have hzero := (Prod.mk.inj (Option.some.inj ((h.last k).symm.trans hread))).1
      exact absurd (Int.ofNat.inj hzero).symm hn

/-- **All of the sequence is read**, once and in order. -/
theorem Reads.streams_iff (h : Reads read data) (hoffset : offset ≤ data.length) :
    Streams read k offset out ↔ out = data.drop offset :=
  ⟨fun hs => h.eq_of_streams hs hoffset, fun he => he ▸ h.streams hoffset⟩

/-! ## Chunks of given sizes -/

/-- What calls for so many elements each copy out together, the first at `offset`. -/
def readAll (read : Nat → Nat → Option (List α)) : List Nat → Nat → Option (List α)
  | [], _ => some []
  | count :: counts, offset =>
    match read count offset with
    | none => none
    | some chunk => (readAll read counts (offset + chunk.length)).map (chunk ++ ·)

/-- The elements that a call can copy out. -/
def window (data : List α) (count offset : Nat) : List α := (data.drop offset).take count

theorem length_window (data : List α) (count offset : Nat) :
    (window data count offset).length = min count (data.length - offset) := by
  rw [window, List.length_take, List.length_drop]

/-- A call at `offset` and one behind it. -/
theorem window_append (data : List α) (a b offset : Nat) :
    window data a offset ++ window data b (offset + (window data a offset).length) =
      window data (a + b) offset := by
  rw [length_window, window, window, window, List.take_add, List.drop_drop]
  by_cases hfit : a ≤ data.length - offset
  · rw [Nat.min_eq_left hfit]
  · have hrest : data.drop (offset + a) = [] := List.drop_eq_nil_of_le (by omega)
    have hend : data.drop (offset + min a (data.length - offset)) = [] :=
      List.drop_eq_nil_of_le (by omega)
    rw [hrest, hend]

/-- **Calls one after the other** copy out what one call for all of it would. -/
theorem readAll_eq {read : Nat → Nat → Option (List α)} {counts : List Nat}
    (hoffset : offset ≤ data.length)
    (h : ∀ pre count post, counts = pre ++ count :: post →
      read count (min (offset + pre.sum) data.length) =
        some (window data count (min (offset + pre.sum) data.length))) :
    readAll read counts offset = some (window data counts.sum offset) := by
  induction counts generalizing offset with
  | nil => rfl
  | cons count counts ih =>
    have hfirst := h [] count counts rfl
    rw [List.sum_nil, Nat.add_zero, Nat.min_eq_left hoffset] at hfirst
    have hlen := length_window data count offset
    have hnext : offset + (window data count offset).length =
        min (offset + count) data.length := by
      rw [hlen]
      omega
    have hrest : readAll read counts (offset + (window data count offset).length) =
        some (window data counts.sum (offset + (window data count offset).length)) := by
      refine ih (by omega) fun pre c post he => ?_
      have hsame : min (offset + (window data count offset).length + pre.sum) data.length =
          min (offset + (count :: pre).sum) data.length := by
        rw [hnext, List.sum_cons]
        omega
      rw [hsame]
      exact h (count :: pre) c post (by rw [he, List.cons_append])
    rw [readAll, hfirst, List.sum_cons, ← window_append]
    simp only [hrest, Option.map_some]

end SynapseKernel.Chunks
