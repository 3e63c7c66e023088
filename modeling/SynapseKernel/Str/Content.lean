import SynapseKernel.Str.Snprintf

/-! # Content printed piece by piece

The generators of procfs call `snprintf` again and again at a running offset, with what
is left of the buffer as the size. The offset stops at the last byte of the buffer, so
that there is always room for the NUL, and the pieces together are cut off as one text
would be (`Printed.print`). -/
namespace SynapseKernel.Str
open SynapseKernel.Word SynapseKernel.Blocks

/-- `buf` is the memory from the buffer on, `calls` are the offset and the size of every
call so far. -/
structure Content where
  buf : Nat → UInt8
  offset : Nat
  calls : List (Nat × Nat)

/-- `offset += snprintf(buf + offset, buf_size - offset, ..)`. -/
def Content.print (o : Content) (bufSize : Nat) (format : CString) (strings : Nat → CString)
    (args : Nat → Nat) : Option Content :=
  let size := sub32 bufSize o.offset
  match snprintf (fun i => o.buf (o.offset + i)) size format strings args with
  | none => none
  | some (n, str) =>
    some ⟨fun i => if i < o.offset then o.buf i else str (i - o.offset), u32 (o.offset + n),
      o.calls ++ [(o.offset, size)]⟩

/-- A call of `snprintf` but for its buffer. -/
structure PrintCall where
  format : CString
  strings : Nat → CString
  args : Nat → Nat

/-- The text of a call. -/
def PrintCall.text (call : PrintCall) : List UInt8 :=
  formatted call.format call.strings call.args

/-- Calls one after the other. -/
def Content.printAll (bufSize : Nat) : List PrintCall → Content → Option Content
  | [], o => some o
  | call :: calls, o =>
    match o.print bufSize call.format call.strings call.args with
    | none => none
    | some o => printAll bufSize calls o

/-- The content is the beginning of a text, with `pad` behind it: nothing at first, then a
NUL. Each call had what was left of the buffer, and that was not nothing. -/
structure Printed (bufSize : Nat) (before : Nat → UInt8) (text pad : List UInt8) (o : Content) :
    Prop where
  buf : o.buf = overwrite before 0 (text.take (bufSize - 1) ++ pad)
  offset : o.offset = min text.length (bufSize - 1)
  calls : ∀ call ∈ o.calls, 1 ≤ call.2 ∧ call.1 + call.2 = bufSize

variable {bufSize : Nat} {before : Nat → UInt8} {text pad : List UInt8} {o : Content}
  {format : CString} {strings : Nat → CString} {args : Nat → Nat}

theorem printed_nil (bufSize : Nat) (before : Nat → UInt8) :
    Printed bufSize before [] [] ⟨before, 0, []⟩ := by
  refine ⟨?_, (Nat.zero_min _).symm, fun call hc => absurd hc List.not_mem_nil⟩
  rw [List.take_nil, List.append_nil, overwrite_nil]

theorem Printed.lt (h : Printed bufSize before text pad o) (hpos : 1 ≤ bufSize) :
    o.offset < bufSize := by
  rw [h.offset]
  omega

theorem Printed.length_take (h : Printed bufSize before text pad o) :
    (text.take (bufSize - 1)).length = o.offset := by
  rw [h.offset, List.length_take, Nat.min_comm]

/-- A write from an offset on. -/
theorem overwrite_shift (f : Nat → UInt8) (offset : Nat) (w : List UInt8) :
    (fun i => if i < offset then f i else
      overwrite (fun i => f (offset + i)) 0 w (i - offset)) = overwrite f offset w := by
  funext i
  by_cases hi : i < offset
  · rw [if_pos hi, overwrite_below hi]
  · have hle : offset ≤ i := Nat.le_of_not_lt hi
    rw [if_neg hi, overwrite, overwrite, if_pos (Nat.zero_le _), if_pos hle, Nat.sub_zero,
      Nat.add_sub_cancel' hle]

/-- A write over the end of the last one. -/
theorem overwrite_over (f : Nat → UInt8) (offset : Nat) {a b c : List UInt8}
    (h : b.length ≤ c.length) :
    overwrite (overwrite f offset (a ++ b)) (offset + a.length) c = overwrite f offset (a ++ c) := by
  rw [← overwrite_append, ← overwrite_append]
  funext i
  rcases overwrite_cases c (offset + a.length) i with ⟨hlt, -, hin⟩ | ⟨hout, hkeep⟩
  · rw [hin, hin]
  · rw [hkeep, hkeep]
    rcases hout with hout | hout
    · exact overwrite_below hout
    · exact overwrite_above (by omega)

/-- What is left of a limit behind one text takes the beginning of the next. -/
theorem take_append_take (a b : List UInt8) (limit : Nat) :
    a.take limit ++ b.take (limit - min a.length limit) = (a ++ b).take limit := by
  rw [List.take_append]
  congr 2
  omega

/-- What a call does while the offset is inside the buffer. -/
theorem Content.print_eq (hlt : o.offset < bufSize) (hsize : bufSize < 2 ^ 31)
    (hlone : Piece.lone ∉ pieces format.bytes) : o.print bufSize format strings args =
      some ⟨overwrite o.buf o.offset
          ((formatted format strings args).take (bufSize - o.offset - 1) ++ [0]),
        o.offset + min (formatted format strings args).length (bufSize - o.offset - 1),
        o.calls ++ [(o.offset, bufSize - o.offset)]⟩ := by
  have hsub : sub32 bufSize o.offset = bufSize - o.offset :=
    sub32_of_le (Nat.lt_trans hsize (by decide)) (Nat.le_of_lt hlt)
  have hleft : 1 ≤ bufSize - o.offset := Nat.sub_pos_of_lt hlt
  have hfits : bufSize - o.offset < 2 ^ 32 := by omega
  have hwrite := @snprintf_eq strings args format _ hleft hfits hlone fun i => o.buf (o.offset + i)
  have hword : u32 (o.offset +
      min (formatted format strings args).length (bufSize - o.offset - 1)) =
      o.offset + min (formatted format strings args).length (bufSize - o.offset - 1) :=
    u32_of_lt (by omega)
  simp only [Content.print, hsub, hwrite, overwrite_shift, hword]

/-- **One more piece** continues the text. -/
theorem Printed.print (h : Printed bufSize before text pad o) (hpad : pad.length ≤ 1)
    (hpos : 1 ≤ bufSize) (hsize : bufSize < 2 ^ 31) (hlone : Piece.lone ∉ pieces format.bytes)
    (strings : Nat → CString) (args : Nat → Nat) :
    ∃ o', o.print bufSize format strings args = some o' ∧
      Printed bufSize before (text ++ formatted format strings args) [0] o' := by
  have hlt := h.lt hpos
  have hstop : bufSize - o.offset - 1 = bufSize - 1 - min text.length (bufSize - 1) := by
    rw [h.offset]
    omega
  have hlen := h.length_take
  have hover := @overwrite_over before 0 (text.take (bufSize - 1)) pad
    ((formatted format strings args).take (bufSize - o.offset - 1) ++ [0])
    (by rw [List.length_append, List.length_singleton]; omega)
  rw [hlen, Nat.zero_add] at hover
  refine ⟨_, Content.print_eq hlt hsize hlone, ?_, ?_, ?_⟩
  · rw [h.buf, hover, hstop, ← List.append_assoc, take_append_take]
  · have hoffset := h.offset
    rw [List.length_append]
    dsimp only
    omega
  · intro call hc
    rcases List.mem_append.mp hc with hc | hc
    · exact h.calls call hc
    · obtain rfl := List.mem_singleton.mp hc
      exact ⟨Nat.sub_pos_of_lt hlt, Nat.add_sub_cancel' (Nat.le_of_lt hlt)⟩

/-- At least one call, and then the NUL is behind the text. -/
theorem Printed.printAll {call : PrintCall} {calls : List PrintCall}
    (h : Printed bufSize before text pad o) (hpad : pad.length ≤ 1) (hpos : 1 ≤ bufSize)
    (hsize : bufSize < 2 ^ 31)
    (hlone : ∀ c ∈ call :: calls, Piece.lone ∉ pieces c.format.bytes) :
    ∃ o', Content.printAll bufSize (call :: calls) o = some o' ∧
      Printed bufSize before (text ++ (call :: calls).flatMap PrintCall.text) [0] o' := by
  induction calls generalizing call text pad o with
  | nil =>
    obtain ⟨o', ho', hprinted⟩ := h.print hpad hpos hsize (hlone call List.mem_cons_self)
      call.strings call.args
    refine ⟨o', ?_, ?_⟩
    · rw [Content.printAll, ho']
      rfl
    · rwa [List.flatMap_cons, List.flatMap_nil, List.append_nil]
  | cons next calls ih =>
    obtain ⟨hcall, hrest⟩ := List.forall_mem_cons.mp hlone
    obtain ⟨o₁, ho₁, hprinted⟩ := h.print hpad hpos hsize hcall call.strings call.args
    obtain ⟨o', ho', hall⟩ := ih hprinted (Nat.le_refl 1) hrest
    refine ⟨o', ?_, ?_⟩
    · rw [Content.printAll, ho₁]
      exact ho'
    · rwa [List.flatMap_cons, ← List.append_assoc]

/-- What stands in front of the NUL. -/
theorem Printed.slice_eq (h : Printed bufSize before text pad o) {count offset : Nat}
    (hle : offset + count ≤ (text.take (bufSize - 1)).length) :
    slice o.buf offset count = ((text.take (bufSize - 1)).drop offset).take count := by
  have hfront : slice o.buf 0 (text.take (bufSize - 1)).length = text.take (bufSize - 1) := by
    rw [h.buf, slice_overwrite_append]
  conv_rhs => rw [← hfront]
  rw [drop_slice (by omega), take_slice (by omega), Nat.zero_add]

end SynapseKernel.Str
