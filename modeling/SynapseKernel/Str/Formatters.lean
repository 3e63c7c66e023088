import SynapseKernel.Str.Snprintf

/-! # The three formatters (lib/kprintf.c, lib/libc.c, lib/vga.c)

Two of the copies of the formatting loop test the limit before a directive, the third at
every store. As long as the text fits the tests do not matter, and what the three write is
the same text (`formatters_agree`). -/
namespace SynapseKernel.Str
open SynapseKernel.ByteMemory SynapseKernel.Blocks

/-- `vga_puts`: what is sent to the console of a buffer with a NUL behind it. -/
def vgaPuts (buffer : List UInt8) : List UInt8 := (buffer ++ [0]).takeWhile (· ≠ 0)

/-- What `kprintf` sends to the console. -/
def kprintfConsole (format : CString) (strings : Nat → CString) (args : Nat → Nat) :
    Except Fault (List UInt8) :=
  match kprintf format strings args with
  | .error fault => .error fault
  | .ok buffer => .ok (vgaPuts buffer)

/-- The text at the first call that `printf` makes, `write(1, buffer, i)`. The wrapper
`syscall` behind `write` puts none of the three into a register. `printf` then makes the same
call with what `open("/dev/log")` returns, which is descriptor 1 too (`Proc.sysOpenHandler`). -/
def printfWrite (format : CString) (strings : Nat → CString) (args : Nat → Nat) :
    Except Fault (List UInt8) :=
  match printf format strings args with
  | .error fault => .error fault
  | .ok buffer => .ok buffer

variable {strings : Nat → CString} {args : Nat → Nat} {buffer text format : List UInt8}
  {c : UInt8} {k : Nat}

/-- All of a string is sent. -/
theorem vgaPuts_eq (h : 0 ∉ text) : vgaPuts text = text := by
  have hall : ∀ b ∈ text, decide (b ≠ 0) = true :=
    fun b hb => decide_eq_true fun he => h (he ▸ hb)
  rw [vgaPuts, List.takeWhile_append_of_pos hall]
  exact List.append_nil text

theorem copyGuarded_fits (h : buffer.length + text.length ≤ 1023) :
    copyGuarded buffer text = .ok (buffer ++ text) := by
  induction text generalizing buffer with
  | nil => rw [copyGuarded, List.append_nil]
  | cons c text ih =>
    rw [List.length_cons] at h
    have hgo : buffer.length < bufferSize - 1 := by
      have hlt : buffer.length < 1023 := by omega
      exact hlt
    have hrest := @ih (buffer ++ [c]) (by rw [length_stored]; omega)
    rw [copyGuarded, if_pos hgo, put_ok (by omega)]
    simp only [hrest, List.append_assoc, List.singleton_append]

/-- A directive whose text fits appends it. -/
theorem directive_fits
    (h : buffer.length + ((Piece.directive c).rendering strings (args k)).length ≤ 1023) :
    directive strings args c k buffer =
      (.ok (buffer ++ (Piece.directive c).rendering strings (args k)),
        k + (Piece.directive c).arity) := by
  unfold Piece.rendering at h ⊢
  unfold directive
  by_cases hd : c = byteOf 'd'
  · simp only [if_pos hd] at h ⊢
    rw [copyGuarded_fits h, arity_argument (.inl hd)]
  simp only [if_neg hd] at h ⊢
  by_cases hx : c = byteOf 'x'
  · simp only [if_pos hx] at h ⊢
    rw [copyAll_ok (by omega), arity_argument (.inr (.inl hx))]
  simp only [if_neg hx] at h ⊢
  by_cases hs : c = byteOf 's'
  · simp only [if_pos hs] at h ⊢
    rw [copyGuarded_fits h, arity_argument (.inr (.inr (.inl hs)))]
  simp only [if_neg hs] at h ⊢
  by_cases hc : c = byteOf 'c'
  · simp only [if_pos hc] at h ⊢
    rw [List.length_singleton] at h
    rw [put_ok (by omega), arity_argument (.inr (.inr (.inr hc)))]
  · simp only [if_neg hc] at h ⊢
    rw [List.length_singleton] at h
    rw [put_ok (by omega), arity_other hd hx hs hc, Nat.add_zero]

/-- A full buffer has no more text to come. -/
theorem formatLoop_fits_full (hfull : 1023 ≤ buffer.length)
    (h : buffer.length + (renderings strings args k (pieces format)).length ≤ 1023) :
    formatLoop strings args format k buffer =
      .ok (buffer ++ renderings strings args k (pieces format)) := by
  have hnothing : renderings strings args k (pieces format) = [] :=
    List.eq_nil_of_length_eq_zero (by omega)
  rw [formatLoop_full hfull, hnothing, List.append_nil]

/-- **The loop** appends a text that fits. -/
theorem formatLoop_fits (hlone : Piece.lone ∉ pieces format)
    (h : buffer.length + (renderings strings args k (pieces format)).length ≤ 1023) :
    formatLoop strings args format k buffer =
      .ok (buffer ++ renderings strings args k (pieces format)) := by
  induction format using pieces.induct generalizing k buffer with
  | case1 => rw [formatLoop, pieces, renderings, List.append_nil]
  | case2 =>
    rw [pieces, if_pos rfl] at hlone
    exact absurd List.mem_cons_self hlone
  | case3 d format ih =>
    by_cases hfull : 1023 ≤ buffer.length
    · exact formatLoop_fits_full hfull h
    rw [pieces, if_pos rfl] at hlone h ⊢
    rw [renderings] at h ⊢
    rw [List.length_append] at h
    have hfits : (buffer ++ (Piece.directive d).rendering strings (args k)).length +
        (renderings strings args (k + (Piece.directive d).arity) (pieces format)).length ≤ 1023 := by
      rw [List.length_append]
      omega
    have hrest := ih (fun hm => hlone (List.mem_cons_of_mem _ hm)) hfits
    rw [formatLoop_directive (by omega), directive_fits (by omega), ← List.append_assoc]
    exact hrest
  | case4 c format hc ih =>
    by_cases hfull : 1023 ≤ buffer.length
    · exact formatLoop_fits_full hfull h
    have harity : k + (Piece.plain c).arity = k := rfl
    rw [pieces_plain hc] at hlone h ⊢
    rw [renderings, harity] at h ⊢
    rw [List.length_append] at h
    have hone : ((Piece.plain c).rendering strings (args k)).length = 1 := rfl
    have hrest := @ih (buffer ++ [c]) k (fun hm => hlone (List.mem_cons_of_mem _ hm))
      (by rw [length_stored]; exact (by omega))
    rw [formatLoop_plain (by omega) hc, hrest, List.append_assoc]
    rfl

/-- The buffer of `kprintf` and of `printf`. -/
theorem formatText_fits {format : CString} (hlone : Piece.lone ∉ pieces format.bytes)
    (h : (formatted format strings args).length ≤ 1023) :
    formatText format strings args = .ok (formatted format strings args) := by
  have hroom : ([] : List UInt8).length + (formatted format strings args).length ≤ 1023 := by
    rwa [List.length_nil, Nat.zero_add]
  have hloop : formatLoop strings args format.bytes 0 [] =
      .ok ([] ++ formatted format strings args) := formatLoop_fits hlone hroom
  rw [List.nil_append] at hloop
  rw [formatText, hloop]
  simp only [terminate, put_ok (Nat.lt_succ_of_le h)]

/-- **The formatters agree.** For every format without a `%` at its end and all arguments for
which the text has no NUL and at most 1023 bytes, `kprintf` sends this text to the console,
`printf` writes it to descriptor 1 and `snprintf` with size 1024 puts it in the buffer, with
a NUL behind it. -/
theorem formatters_agree (format : CString) (strings : Nat → CString) (args : Nat → Nat)
    (hlone : Piece.lone ∉ pieces format.bytes) (h0 : 0 ∉ formatted format strings args)
    (hlen : (formatted format strings args).length ≤ 1023) (str : Nat → UInt8) :
    ∃ text n out, kprintfConsole format strings args = .ok text ∧
      printfWrite format strings args = .ok text ∧
      snprintf str 1024 format strings args = some (n, out) ∧
      slice out 0 n = text ∧ out n = 0 ∧ text = formatted format strings args := by
  have htext := formatText_fits hlone hlen
  have htake : (formatted format strings args).take 1023 = formatted format strings args :=
    List.take_of_length_le hlen
  have hwrite := @snprintf_eq strings args format 1024 (by decide) (by decide) hlone str
  rw [Nat.min_eq_left hlen, htake] at hwrite
  refine ⟨_, _, _, ?_, ?_, hwrite, slice_written _ _, ?_, rfl⟩
  · rw [kprintfConsole, kprintf, htext]
    simp only [vgaPuts_eq h0]
  · rw [printfWrite, printf, htext]
  · rw [← overwrite_append, Nat.zero_add, overwrite_singleton, Function.update_self]

/-- `"%d\n"` with the argument 42. -/
theorem formatters_agree_number :
    ∃ n out, kprintfConsole ⟨ascii ['%', 'd', '\n'], by decide⟩ (fun _ => ⟨[], by decide⟩)
        (fun _ => 42) = .ok (ascii ['4', '2', '\n']) ∧
      printfWrite ⟨ascii ['%', 'd', '\n'], by decide⟩ (fun _ => ⟨[], by decide⟩)
        (fun _ => 42) = .ok (ascii ['4', '2', '\n']) ∧
      snprintf (fun _ => 0) 1024 ⟨ascii ['%', 'd', '\n'], by decide⟩ (fun _ => ⟨[], by decide⟩)
        (fun _ => 42) = some (n, out) ∧ slice out 0 n = ascii ['4', '2', '\n'] := by
  obtain ⟨text, n, out, hconsole, hwrite, hbuffer, hslice, -, htext⟩ :=
    formatters_agree ⟨ascii ['%', 'd', '\n'], by decide⟩ (fun _ => ⟨[], by decide⟩) (fun _ => 42)
      (by decide) (by decide) (by decide) fun _ => 0
  have hdigits : formatted ⟨ascii ['%', 'd', '\n'], by decide⟩ (fun _ => ⟨[], by decide⟩)
      (fun _ => 42) = ascii ['4', '2', '\n'] := by decide
  rw [hdigits] at htext
  subst htext
  exact ⟨n, out, hconsole, hwrite, hbuffer, hslice⟩

end SynapseKernel.Str
