import Mathlib.Data.List.Basic
import SynapseKernel.Lib.ByteMemory
import SynapseKernel.Lib.Word
import SynapseKernel.Str.CString

/-! # Formatted printing (lib/kprintf.c, lib/libc.c)

`kprintf` and `printf` run the same loop over a buffer of 1024 bytes. A run ends
with a `Fault` at its first access behind the format's NUL or outside the
buffer. The loop tests its limit before each directive; `%x` stores ten
characters without testing it again, and a `%` before the NUL makes the cursor
step over the NUL. `safe_iff` says that nothing else goes wrong. -/
namespace SynapseKernel.Str
open SynapseKernel.Word SynapseKernel.ByteMemory

inductive Fault
  | formatRead
  | bufferWrite
deriving DecidableEq, Repr

/-- `PRINTF_BUFFER_SIZE`. -/
abbrev bufferSize : Nat := 1024

/-- `buffer[i++] = c`, where `i` is the number of characters in the buffer. -/
def put (buffer : List UInt8) (c : UInt8) : Except Fault (List UInt8) :=
  if buffer.length < bufferSize then .ok (buffer ++ [c]) else .error .bufferWrite

/-- The copying loops of `%d` and `%s`, which test the limit. -/
def copyGuarded : List UInt8 → List UInt8 → Except Fault (List UInt8)
  | buffer, [] => .ok buffer
  | buffer, c :: text =>
    if buffer.length < bufferSize - 1 then
      match put buffer c with
      | .error fault => .error fault
      | .ok buffer => copyGuarded buffer text
    else .ok buffer

/-- The stores of `%x`, which do not. -/
def copyAll : List UInt8 → List UInt8 → Except Fault (List UInt8)
  | buffer, [] => .ok buffer
  | buffer, c :: text =>
    match put buffer c with
    | .error fault => .error fault
    | .ok buffer => copyAll buffer text

/-- `do { num_buf[j++] = '0' + val % 10; val /= 10; } while (val > 0 && j < 30)`
with `left` rounds left. -/
def digitsFrom : Nat → Int → List UInt8
  | 0, _ => []
  | left + 1, val =>
    UInt8.ofNat (48 + val.tmod 10).toNat ::
      if 0 < val.tdiv 10 then digitsFrom left (val.tdiv 10) else []

/-- A round of the reversing loop, which swaps `num_buf[k]` and `num_buf[j - k - 1]`. -/
def swapEnds (j : Nat) (numBuf : List UInt8) (k : Nat) : List UInt8 :=
  let temp := numBuf.getD k 0
  (numBuf.set k (numBuf.getD (j - k - 1) 0)).set (j - k - 1) temp

/-- `for (int k = 0; k < j / 2; k++)`, where `j` is the number of characters. -/
def reverseLoop (numBuf : List UInt8) : List UInt8 :=
  (List.range (numBuf.length / 2)).foldl (swapEnds numBuf.length) numBuf

/-- What `%d` copies for an argument: the negation of the least `int` is itself. -/
def decimal (word : Nat) : List UInt8 :=
  let val := s32 word
  let digits := digitsFrom 30 (if val < 0 then s32 (u32 (2 ^ 32 - u32 word)) else val)
  reverseLoop (if val < 0 then digits ++ [byteOf '-'] else digits)

def hexDigit (n : Nat) : UInt8 := UInt8.ofNat (if n < 10 then 48 + n else 87 + n)

/-- What `%x` stores: `0x` and the eight digits of the word. -/
def hexText (word : Nat) : List UInt8 :=
  byteOf '0' :: byteOf 'x' ::
    ([28, 24, 20, 16, 12, 8, 4, 0].map fun j => hexDigit ((word >>> j) &&& 15))

/-- The string `%s` prints, where `strings` are the strings in memory. -/
def stringArg (strings : Nat → CString) (word : Nat) : List UInt8 :=
  if word = 0 then ascii ['(', 'n', 'u', 'l', 'l', ')'] else (strings word).bytes

/-- The `switch` on the character after `%`. The words `args` are what `va_arg`
returns one after the other; the next one is number `k`. -/
def directive (strings : Nat → CString) (args : Nat → Nat) (c : UInt8) (k : Nat)
    (buffer : List UInt8) : Except Fault (List UInt8) × Nat :=
  if c = byteOf 'd' then (copyGuarded buffer (decimal (args k)), k + 1)
  else if c = byteOf 'x' then (copyAll buffer (hexText (args k)), k + 1)
  else if c = byteOf 's' then (copyGuarded buffer (stringArg strings (args k)), k + 1)
  else if c = byteOf 'c' then (put buffer (UInt8.ofNat (args k)), k + 1)
  else (put buffer c, k)

/-- The loop from a position of the format on. At the end of the list stands the
NUL: after a lone `%` it is stored like any character and stepped over. -/
def formatLoop (strings : Nat → CString) (args : Nat → Nat) :
    List UInt8 → Nat → List UInt8 → Except Fault (List UInt8)
  | [], _, buffer => .ok buffer
  | c :: format, k, buffer =>
    if buffer.length < bufferSize - 1 then
      if c = byteOf '%' then
        match format with
        | [] =>
          match put buffer 0 with
          | .error fault => .error fault
          | .ok _ => .error .formatRead
        | d :: format =>
          match directive strings args d k buffer with
          | (.error fault, _) => .error fault
          | (.ok buffer, k) => formatLoop strings args format k buffer
      else
        match put buffer c with
        | .error fault => .error fault
        | .ok buffer => formatLoop strings args format k buffer
    else .ok buffer

/-- `buffer[i] = '\0'`. -/
def terminate (buffer : List UInt8) : Except Fault (List UInt8) :=
  match put buffer 0 with
  | .error fault => .error fault
  | .ok _ => .ok buffer

/-- The text in the buffer when it is printed. -/
def formatText (format : CString) (strings : Nat → CString) (args : Nat → Nat) :
    Except Fault (List UInt8) :=
  match formatLoop strings args format.bytes 0 [] with
  | .error fault => .error fault
  | .ok buffer => terminate buffer

/-- lib/kprintf.c up to the output of the buffer. -/
def kprintf (format : CString) (strings : Nat → CString) (args : Nat → Nat) :
    Except Fault (List UInt8) := formatText format strings args

/-- lib/libc.c up to the output of the buffer. -/
def printf (format : CString) (strings : Nat → CString) (args : Nat → Nat) :
    Except Fault (List UInt8) := formatText format strings args

/-- Every access stays inside the format and the buffer. -/
def Safe (run : Except Fault (List UInt8)) : Prop := ∃ text, run = .ok text

/-! ## What a format stands for -/

inductive Piece
  | plain (c : UInt8)
  | directive (c : UInt8)
  | lone
deriving DecidableEq

/-- The format cut into characters and directives. -/
def pieces : List UInt8 → List Piece
  | [] => []
  | c :: format =>
    if c = byteOf '%' then
      match format with
      | [] => [.lone]
      | d :: format => .directive d :: pieces format
    else .plain c :: pieces format

/-- The number of arguments it takes. -/
def Piece.arity : Piece → Nat
  | .plain _ => 0
  | .directive c => if c ∈ ascii ['d', 'x', 's', 'c'] then 1 else 0
  | .lone => 0

/-- The number of characters it stands for when it takes the argument `word`. -/
def Piece.width (strings : Nat → CString) (word : Nat) : Piece → Nat
  | .plain _ => 1
  | .directive c =>
    if c = byteOf 'd' then (decimal word).length
    else if c = byteOf 'x' then 10
    else if c = byteOf 's' then (stringArg strings word).length
    else 1
  | .lone => 0

/-- The number of characters the pieces stand for, in a buffer without a limit;
the first argument is number `k`. -/
def textWidth (strings : Nat → CString) (args : Nat → Nat) : Nat → List Piece → Nat
  | _, [] => 0
  | k, p :: ps => p.width strings (args k) + textWidth strings args (k + p.arity) ps

/-- A piece met after `n` characters: a `%x` has room for its ten characters or
lies behind the limit, and so does a `%` that ends the format. -/
def Piece.HasRoom (n : Nat) : Piece → Prop
  | .plain _ => True
  | .directive c => c = byteOf 'x' → n ≤ 1013 ∨ 1023 ≤ n
  | .lone => 1023 ≤ n

/-- Every piece has room after the text of the pieces before it. -/
def HasRoom (format : CString) (strings : Nat → CString) (args : Nat → Nat) : Prop :=
  ∀ pre p post, pieces format.bytes = pre ++ p :: post → p.HasRoom (textWidth strings args 0 pre)

/-! ## The reversing loop -/

theorem some_getD {l : List UInt8} {i : Nat} (h : i < l.length) : some (l.getD i 0) = l[i]? := by
  rw [List.getD_eq_getElem _ _ h, List.getElem?_eq_getElem h]

/-- After `n` rounds the first `n` characters and the last `n` have changed places. -/
theorem foldl_swapEnds (numBuf : List UInt8) {n : Nat} (hn : n ≤ numBuf.length / 2) :
    ((List.range n).foldl (swapEnds numBuf.length) numBuf).length = numBuf.length ∧
      ∀ i < numBuf.length, ((List.range n).foldl (swapEnds numBuf.length) numBuf)[i]? =
        numBuf[if i < n ∨ numBuf.length - n ≤ i then numBuf.length - 1 - i else i]? := by
  induction n with
  | zero =>
    refine ⟨rfl, fun i hi => ?_⟩
    rw [if_neg (by omega)]
    rfl
  | succ n ih =>
    obtain ⟨hlen, hget⟩ := ih (by omega)
    rw [List.range_succ, List.foldl_append, List.foldl_cons, List.foldl_nil]
    generalize (List.range n).foldl (swapEnds numBuf.length) numBuf = l at *
    -- neither of the two that are swapped was before
    have hfirst := hget n (by omega)
    have hlast := hget (numBuf.length - n - 1) (by omega)
    rw [if_neg (by omega), ← some_getD (by omega)] at hfirst hlast
    refine ⟨by rw [swapEnds, List.length_set, List.length_set, hlen], fun i hi => ?_⟩
    rw [swapEnds, List.getElem?_set, List.getElem?_set, List.length_set, hlen]
    by_cases hright : numBuf.length - n - 1 = i
    · rw [if_pos hright, if_pos (by omega), hfirst, if_pos (by omega)]
      congr 1
      omega
    · rw [if_neg hright]
      by_cases hleft : n = i
      · rw [if_pos hleft, if_pos (by omega), hlast, if_pos (by omega)]
        congr 1
        omega
      · rw [if_neg hleft, hget i hi]
        congr 1
        split <;> split <;> omega

theorem reverseLoop_eq (numBuf : List UInt8) : reverseLoop numBuf = numBuf.reverse := by
  obtain ⟨hlen, hget⟩ := foldl_swapEnds numBuf (Nat.le_refl _)
  refine List.ext_getElem? fun i => ?_
  by_cases hi : i < numBuf.length
  · rw [List.getElem?_reverse hi]
    refine (hget i hi).trans ?_
    congr 1
    split <;> omega
  · rw [List.getElem?_eq_none (by rw [reverseLoop, hlen]; omega),
      List.getElem?_eq_none (by rw [List.length_reverse]; omega)]

/-! ## Stores -/

section Stores
variable {buffer text : List UInt8} {c : UInt8}

theorem length_stored : (buffer ++ [c]).length = buffer.length + 1 := by
  rw [List.length_append, List.length_singleton]

theorem put_ok (h : buffer.length < 1024) : put buffer c = .ok (buffer ++ [c]) := if_pos h

theorem put_error (h : ¬ buffer.length < 1024) : put buffer c = .error .bufferWrite := if_neg h

theorem terminate_safe_iff : Safe (terminate buffer) ↔ buffer.length < 1024 := by
  unfold terminate
  by_cases h : buffer.length < 1024
  · rw [put_ok h]
    exact ⟨fun _ => h, fun _ => ⟨buffer, rfl⟩⟩
  · rw [put_error h]
    exact ⟨fun hs => (by obtain ⟨text, he⟩ := hs; cases he), fun hlt => absurd hlt h⟩

/-- A guarded copy fills the buffer up to its last character at most. -/
theorem copyGuarded_ok (text : List UInt8) (h : buffer.length ≤ 1023) :
    ∃ out, copyGuarded buffer text = .ok out ∧
      out.length = min (buffer.length + text.length) 1023 := by
  induction text generalizing buffer with
  | nil =>
    refine ⟨buffer, rfl, ?_⟩
    rw [List.length_nil]
    omega
  | cons c text ih =>
    unfold copyGuarded
    by_cases hlt : buffer.length < bufferSize - 1
    · have hlt' : buffer.length < 1023 := hlt
      obtain ⟨out, hout, hl⟩ := @ih (buffer ++ [c]) (by rw [length_stored]; omega)
      rw [if_pos hlt, put_ok (by omega)]
      refine ⟨out, hout, ?_⟩
      rw [hl, length_stored, List.length_cons]
      omega
    · have hfull : ¬ buffer.length < 1023 := hlt
      rw [if_neg hlt]
      refine ⟨buffer, rfl, ?_⟩
      rw [List.length_cons]
      omega

theorem copyAll_ok (h : buffer.length + text.length ≤ 1024) :
    copyAll buffer text = .ok (buffer ++ text) := by
  induction text generalizing buffer with
  | nil => rw [copyAll, List.append_nil]
  | cons c text ih =>
    rw [List.length_cons] at h
    have hrest := @ih (buffer ++ [c]) (by rw [length_stored]; omega)
    rw [copyAll, put_ok (by omega)]
    simp only [hrest, List.append_assoc, List.singleton_append]

/-- An unguarded copy that does not fit runs over the end. -/
theorem copyAll_error (hb : buffer.length ≤ 1024) (h : 1024 < buffer.length + text.length) :
    copyAll buffer text = .error .bufferWrite := by
  induction text generalizing buffer with
  | nil =>
    rw [List.length_nil] at h
    omega
  | cons c text ih =>
    rw [List.length_cons] at h
    rw [copyAll]
    by_cases hlt : buffer.length < 1024
    · rw [put_ok hlt]
      exact @ih (buffer ++ [c]) (by rw [length_stored]; omega) (by rw [length_stored]; omega)
    · rw [put_error hlt]

end Stores

/-! ## The loop -/

section Loop
variable {strings : Nat → CString} {args : Nat → Nat} {c : UInt8} {k n : Nat}
  {buffer format : List UInt8} {p : Piece} {ps : List Piece}

theorem arity_argument (h : c = byteOf 'd' ∨ c = byteOf 'x' ∨ c = byteOf 's' ∨ c = byteOf 'c') :
    (Piece.directive c).arity = 1 := by
  rcases h with rfl | rfl | rfl | rfl <;> rfl

theorem arity_other (hd : c ≠ byteOf 'd') (hx : c ≠ byteOf 'x') (hs : c ≠ byteOf 's')
    (hc : c ≠ byteOf 'c') : (Piece.directive c).arity = 0 := by
  refine if_neg ?_
  simp only [ascii, List.map_cons, List.map_nil, List.mem_cons, List.not_mem_nil, or_false, not_or]
  exact ⟨hd, hx, hs, hc⟩

/-- A directive that has room leaves the text of the format so far in the buffer,
or fills it. -/
theorem directive_ok (strings : Nat → CString) (args : Nat → Nat) (k : Nat)
    (hroom : (Piece.directive c).HasRoom buffer.length) (hlt : buffer.length < 1023) :
    ∃ out, directive strings args c k buffer = (.ok out, k + (Piece.directive c).arity) ∧
      out.length = min (buffer.length + (Piece.directive c).width strings (args k)) 1023 := by
  have hput : ∀ x, ∃ out, put buffer x = .ok out ∧ out.length = min (buffer.length + 1) 1023 := by
    intro x
    refine ⟨buffer ++ [x], put_ok (by omega), ?_⟩
    rw [length_stored]
    omega
  simp only [directive, Piece.width]
  by_cases hd : c = byteOf 'd'
  · obtain ⟨out, hout, hl⟩ := copyGuarded_ok (decimal (args k)) (Nat.le_of_lt hlt)
    rw [if_pos hd, if_pos hd, arity_argument (.inl hd), hout]
    exact ⟨out, rfl, hl⟩
  · rw [if_neg hd, if_neg hd]
    by_cases hx : c = byteOf 'x'
    · have hten : (hexText (args k)).length = 10 := rfl
      have hfit : buffer.length ≤ 1013 := (hroom hx).resolve_right (by omega)
      rw [if_pos hx, if_pos hx, arity_argument (.inr (.inl hx)), copyAll_ok (by rw [hten]; omega)]
      refine ⟨_, rfl, ?_⟩
      rw [List.length_append, hten]
      omega
    · rw [if_neg hx, if_neg hx]
      by_cases hs : c = byteOf 's'
      · obtain ⟨out, hout, hl⟩ := copyGuarded_ok (stringArg strings (args k)) (Nat.le_of_lt hlt)
        rw [if_pos hs, if_pos hs, arity_argument (.inr (.inr (.inl hs))), hout]
        exact ⟨out, rfl, hl⟩
      · rw [if_neg hs, if_neg hs]
        by_cases hc : c = byteOf 'c'
        · obtain ⟨out, hout, hl⟩ := hput (UInt8.ofNat (args k))
          rw [if_pos hc, arity_argument (.inr (.inr (.inr hc))), hout]
          exact ⟨out, rfl, hl⟩
        · obtain ⟨out, hout, hl⟩ := hput c
          rw [if_neg hc, arity_other hd hx hs hc, hout]
          exact ⟨out, rfl, hl⟩

/-- A directive without room overruns the buffer or fills it to its last byte,
so that there is none left for the NUL. -/
theorem directive_overrun (strings : Nat → CString) (args : Nat → Nat) (k : Nat)
    (hroom : ¬ (Piece.directive c).HasRoom buffer.length) (hlt : buffer.length < 1023) :
    (∃ k', directive strings args c k buffer = (.error .bufferWrite, k')) ∨
      ∃ out k', directive strings args c k buffer = (.ok out, k') ∧ out.length = 1024 := by
  obtain ⟨hx, hno⟩ : c = byteOf 'x' ∧ ¬ (buffer.length ≤ 1013 ∨ 1023 ≤ buffer.length) :=
    Classical.not_imp.mp hroom
  have hten : (hexText (args k)).length = 10 := rfl
  have hd : c ≠ byteOf 'd' := fun h => absurd (h.symm.trans hx) (by decide)
  unfold directive
  rw [if_neg hd, if_pos hx]
  by_cases hlast : buffer.length = 1014
  · rw [copyAll_ok (by rw [hten]; omega)]
    refine .inr ⟨_, _, rfl, ?_⟩
    rw [List.length_append, hten, hlast]
  · rw [copyAll_error (by omega) (by rw [hten]; omega)]
    exact .inl ⟨_, rfl⟩

/-- Every piece has room after the text of those before it, which starts after
`n` characters. -/
def RoomFrom (strings : Nat → CString) (args : Nat → Nat) (k n : Nat) (ps : List Piece) : Prop :=
  ∀ pre p post, ps = pre ++ p :: post → p.HasRoom (n + textWidth strings args k pre)

theorem roomFrom_nil : RoomFrom strings args k n [] := by
  intro pre p post h
  cases pre <;> cases h

theorem roomFrom_cons : RoomFrom strings args k n (p :: ps) ↔
    p.HasRoom n ∧ RoomFrom strings args (k + p.arity) (n + p.width strings (args k)) ps := by
  constructor
  · intro h
    refine ⟨h [] p ps rfl, fun pre p' post he => ?_⟩
    have hrest := h (p :: pre) p' post (by rw [he, List.cons_append])
    rwa [textWidth, ← Nat.add_assoc] at hrest
  · rintro ⟨hp, hrest⟩ pre p' post he
    cases pre with
    | nil =>
      obtain ⟨rfl, -⟩ := List.cons.inj he
      exact hp
    | cons p'' pre =>
      obtain ⟨rfl, htail⟩ := List.cons.inj he
      rw [textWidth, ← Nat.add_assoc]
      exact hrest pre p' post htail

/-- Behind the limit there is nothing to go wrong. -/
theorem roomFrom_of_full (h : 1023 ≤ n) : RoomFrom strings args k n ps := by
  intro pre p post _
  cases p with
  | plain c => trivial
  | directive c => exact fun _ => .inr (Nat.le_add_right_of_le h)
  | lone => exact Nat.le_add_right_of_le h

theorem formatLoop_full (h : 1023 ≤ buffer.length) :
    formatLoop strings args format k buffer = .ok buffer := by
  have hstop : ¬ buffer.length < bufferSize - 1 := Nat.not_lt_of_le h
  unfold formatLoop
  cases format with
  | nil => rfl
  | cons c format => exact if_neg hstop

theorem formatLoop_plain (h : buffer.length < 1023) (hc : c ≠ byteOf '%') :
    formatLoop strings args (c :: format) k buffer =
      formatLoop strings args format k (buffer ++ [c]) := by
  have hgo : buffer.length < bufferSize - 1 := h
  conv_lhs => unfold formatLoop
  rw [if_pos hgo, if_neg hc, put_ok (by omega)]

theorem formatLoop_lone (h : buffer.length < 1023) :
    formatLoop strings args [byteOf '%'] k buffer = .error .formatRead := by
  have hgo : buffer.length < bufferSize - 1 := h
  unfold formatLoop
  rw [if_pos hgo, if_pos rfl, put_ok (by omega)]

theorem formatLoop_directive (h : buffer.length < 1023) :
    formatLoop strings args (byteOf '%' :: c :: format) k buffer =
      match directive strings args c k buffer with
      | (.error fault, _) => .error fault
      | (.ok buffer, k) => formatLoop strings args format k buffer := by
  have hgo : buffer.length < bufferSize - 1 := h
  conv_lhs => unfold formatLoop
  rw [if_pos hgo, if_pos rfl]

theorem pieces_plain (hc : c ≠ byteOf '%') :
    pieces (c :: format) = .plain c :: pieces format := by
  conv_lhs => unfold pieces
  rw [if_neg hc]

/-- The loop ends with a byte left for the NUL. -/
def Finishes (strings : Nat → CString) (args : Nat → Nat) (format : List UInt8) (k : Nat)
    (buffer : List UInt8) : Prop :=
  ∃ out, formatLoop strings args format k buffer = .ok out ∧ out.length < 1024

theorem finishes_full (h : 1023 ≤ buffer.length) :
    Finishes strings args format k buffer ↔ buffer.length < 1024 := by
  unfold Finishes
  rw [formatLoop_full h]
  constructor
  · rintro ⟨out, he, hl⟩
    rwa [Except.ok.inj he]
  · intro hl
    exact ⟨buffer, rfl, hl⟩

/-- **The loop** ends with a byte left for the NUL if and only if every piece of
the format has room. -/
theorem finishes_iff (hb : buffer.length = min n 1023) :
    Finishes strings args format k buffer ↔ RoomFrom strings args k n (pieces format) := by
  induction format using pieces.induct generalizing k n buffer with
  | case1 => exact ⟨fun _ => roomFrom_nil, fun _ => ⟨buffer, rfl, by omega⟩⟩
  | case2 =>
    rw [pieces, if_pos rfl, roomFrom_cons]
    by_cases hfull : 1023 ≤ n
    · rw [finishes_full (by omega)]
      exact ⟨fun _ => ⟨hfull, roomFrom_nil⟩, fun _ => by omega⟩
    · refine ⟨fun hf => ?_, fun hroom => absurd hroom.1 hfull⟩
      obtain ⟨out, he, -⟩ := hf
      rw [formatLoop_lone (by omega)] at he
      cases he
  | case3 d format ih =>
    rw [pieces, if_pos rfl, roomFrom_cons]
    by_cases hfull : 1023 ≤ n
    · rw [finishes_full (by omega)]
      exact ⟨fun _ => ⟨fun _ => .inr hfull, roomFrom_of_full (Nat.le_add_right_of_le hfull)⟩,
        fun _ => by omega⟩
    · obtain rfl : buffer.length = n := by omega
      unfold Finishes
      rw [formatLoop_directive (by omega)]
      by_cases hroom : (Piece.directive d).HasRoom buffer.length
      · obtain ⟨out, hout, hl⟩ := directive_ok strings args k hroom (by omega)
        rw [hout, ← ih hl, and_iff_right hroom]
        rfl
      · refine ⟨fun hf => ?_, fun h => absurd h.1 hroom⟩
        rcases directive_overrun strings args k hroom (by omega) with
          ⟨k', he⟩ | ⟨out, k', he, hl⟩
        · obtain ⟨out, hout, -⟩ := hf
          rw [he] at hout
          cases hout
        · rw [he] at hf
          have := (finishes_full (by omega)).mp hf
          omega
  | case4 c format hc ih =>
    rw [pieces_plain hc, roomFrom_cons]
    by_cases hfull : 1023 ≤ n
    · rw [finishes_full (by omega)]
      exact ⟨fun _ => ⟨trivial, roomFrom_of_full (Nat.le_add_right_of_le hfull)⟩,
        fun _ => by omega⟩
    · unfold Finishes
      rw [formatLoop_plain (by omega) hc]
      have hl : (buffer ++ [c]).length = min (n + 1) 1023 := by
        rw [length_stored]
        omega
      have hroom : (Piece.plain c).HasRoom n := trivial
      rw [and_iff_right hroom]
      exact ih hl

end Loop

/-! ## The two functions -/

theorem formatText_safe_iff (format : CString) (strings : Nat → CString) (args : Nat → Nat) :
    Safe (formatText format strings args) ↔ HasRoom format strings args := by
  have hloop : Finishes strings args format.bytes 0 [] ↔ HasRoom format strings args := by
    rw [finishes_iff (n := 0) rfl]
    unfold RoomFrom HasRoom
    simp only [Nat.zero_add]
  rw [← hloop]
  unfold Finishes formatText
  cases formatLoop strings args format.bytes 0 [] with
  | error fault =>
    constructor
    · rintro ⟨text, he⟩
      cases he
    · rintro ⟨out, he, -⟩
      cases he
  | ok buffer =>
    simp only [terminate_safe_iff]
    constructor
    · intro hl
      exact ⟨buffer, rfl, hl⟩
    · rintro ⟨out, he, hl⟩
      rwa [Except.ok.inj he]

/-- **Formatted printing.** `kprintf` and `printf` stay inside the format and the
buffer if and only if every `%x` and a `%` at the end have room: at most 1013
characters before a `%x`, unless 1023 or more come before it. -/
theorem safe_iff (format : CString) (strings : Nat → CString) (args : Nat → Nat) :
    (Safe (kprintf format strings args) ↔ HasRoom format strings args) ∧
      (Safe (printf format strings args) ↔ HasRoom format strings args) :=
  ⟨formatText_safe_iff format strings args, formatText_safe_iff format strings args⟩

/-- The format `%`. -/
def lonePercent : CString := ⟨ascii ['%'], by decide⟩

/-- 1014 letters and a `%x`. -/
def lateHex : CString := ⟨List.replicate 1014 (byteOf 'a') ++ ascii ['%', 'x'], by
  rw [List.mem_append, List.mem_replicate]
  decide⟩

theorem pieces_replicate (n : Nat) (rest : List UInt8) :
    pieces (List.replicate n (byteOf 'a') ++ rest) =
      List.replicate n (.plain (byteOf 'a')) ++ pieces rest := by
  induction n with
  | zero => rfl
  | succ n ih =>
    rw [List.replicate_succ, List.cons_append, pieces_plain (by decide), ih, List.replicate_succ,
      List.cons_append]

theorem textWidth_replicate (strings : Nat → CString) (args : Nat → Nat) (k n : Nat) :
    textWidth strings args k (List.replicate n (.plain (byteOf 'a'))) = n := by
  induction n generalizing k with
  | zero => rfl
  | succ n ih =>
    rw [List.replicate_succ, textWidth, ih]
    exact Nat.add_comm 1 n

/-- `kprintf("%")` reads behind its format, and `%x` after 1014 characters writes
behind the buffer. -/
theorem not_safe_lonePercent :
    kprintf lonePercent (fun _ => lonePercent) (fun _ => 0) = .error .formatRead ∧
      ¬ Safe (kprintf lateHex (fun _ => lonePercent) fun _ => 0) := by
  constructor
  · have hloop : formatLoop (fun _ => lonePercent) (fun _ => 0) lonePercent.bytes 0 [] =
        .error .formatRead := formatLoop_lone (by decide)
    rw [kprintf, formatText, hloop]
  · intro hsafe
    have hroom := (formatText_safe_iff lateHex (fun _ => lonePercent) fun _ => 0).mp hsafe
    have hhex := hroom (List.replicate 1014 (.plain (byteOf 'a'))) (.directive (byteOf 'x')) []
      (pieces_replicate 1014 _)
    rw [textWidth_replicate] at hhex
    exact absurd (hhex rfl) (by decide)

end SynapseKernel.Str
