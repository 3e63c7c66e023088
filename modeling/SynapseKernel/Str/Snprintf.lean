import Mathlib.Data.Nat.Digits.Defs
import SynapseKernel.Lib.Blocks
import SynapseKernel.Str.Printf

/-! # snprintf (lib/kprintf.c)

Every store of `snprintf` tests the limit, those of `%x` too. So what is written is the
untruncated text cut off at the limit (`snprintf_eq`), wherever in a directive that is. -/
namespace SynapseKernel.Str
open SynapseKernel.Word SynapseKernel.ByteMemory SynapseKernel.Blocks

/-- The memory from `str` on, and the number of characters stored. -/
structure Output where
  str : Nat → UInt8
  i : Nat

/-- `if (i < size - 1) str[i++] = c`. -/
def store (limit : Nat) (o : Output) (c : UInt8) : Output :=
  if o.i < limit then ⟨Function.update o.str o.i c, o.i + 1⟩ else o

/-- A copying loop. -/
def storeText (limit : Nat) : Output → List UInt8 → Output
  | o, [] => o
  | o, c :: text =>
    if o.i < limit then storeText limit ⟨Function.update o.str o.i c, o.i + 1⟩ text else o

/-- The `switch` on the character after `%`. -/
def storeDirective (limit : Nat) (strings : Nat → CString) (args : Nat → Nat) (c : UInt8) (k : Nat)
    (o : Output) : Output × Nat :=
  if c = byteOf 'd' then (storeText limit o (decimal (args k)), k + 1)
  else if c = byteOf 'x' then
    let o := store limit o (byteOf '0')
    let o := store limit o (byteOf 'x')
    (storeText limit o
      ([28, 24, 20, 16, 12, 8, 4, 0].map fun j => hexDigit ((args k >>> j) &&& 15)), k + 1)
  else if c = byteOf 's' then (storeText limit o (stringArg strings (args k)), k + 1)
  else if c = byteOf 'c' then (store limit o (UInt8.ofNat (args k)), k + 1)
  else (store limit o c, k)

/-- The loop from a position of the format on; `none` is a read behind its NUL. -/
def storeLoop (limit : Nat) (strings : Nat → CString) (args : Nat → Nat) :
    List UInt8 → Nat → Output → Option Output
  | [], _, o => some o
  | c :: format, k, o =>
    if o.i < limit then
      if c = byteOf '%' then
        match format with
        | [] => none
        | d :: format =>
          let (o, k) := storeDirective limit strings args d k o
          storeLoop limit strings args format k o
      else storeLoop limit strings args format k (store limit o c)
    else some o

/-- The result and the memory from `str` on. The strings that `%s` prints are elsewhere. -/
def snprintf (str : Nat → UInt8) (size : Nat) (format : CString) (strings : Nat → CString)
    (args : Nat → Nat) : Option (Nat × (Nat → UInt8)) :=
  match storeLoop (sub32 size 1) strings args format.bytes 0 ⟨str, 0⟩ with
  | none => none
  | some o => some (o.i, Function.update o.str o.i 0)

/-! ## The text of a format -/

/-- What a piece stands for when it takes the argument `word`. -/
def Piece.rendering (strings : Nat → CString) (word : Nat) : Piece → List UInt8
  | .plain c => [c]
  | .directive c =>
    if c = byteOf 'd' then decimal word
    else if c = byteOf 'x' then hexText word
    else if c = byteOf 's' then stringArg strings word
    else if c = byteOf 'c' then [UInt8.ofNat word]
    else [c]
  | .lone => []

/-- The text of the pieces one after the other; the first argument is number `k`. -/
def renderings (strings : Nat → CString) (args : Nat → Nat) : Nat → List Piece → List UInt8
  | _, [] => []
  | k, p :: ps =>
    p.rendering strings (args k) ++ renderings strings args (k + p.arity) ps

/-! ## Numbers -/

/-- The decimal numeral of an integer. -/
def numeral (z : Int) : List UInt8 :=
  (if z < 0 then [byteOf '-'] else []) ++
    (if z = 0 then [0] else (Nat.digits 10 z.natAbs).reverse).map fun d => UInt8.ofNat (48 + d)

/-- The loop gives the digits from the last one on. -/
theorem digitsFrom_eq (left n : Nat) (hleft : 0 < left) (hn : n < 10 ^ left) :
    digitsFrom left n =
      (if n = 0 then [0] else Nat.digits 10 n).map fun d => UInt8.ofNat (48 + d) := by
  induction left generalizing n with
  | zero => exact absurd hleft (Nat.lt_irrefl 0)
  | succ left ih =>
    have hdigit : (48 + (n : Int).tmod 10).toNat = 48 + n % 10 := by
      rw [Int.tmod_eq_emod_of_nonneg (Int.natCast_nonneg n)]
      omega
    have hrest : (n : Int).tdiv 10 = (n / 10 : Nat) := by
      rw [Int.tdiv_eq_ediv_of_nonneg (Int.natCast_nonneg n)]
      rfl
    rw [digitsFrom, hdigit, hrest]
    by_cases h0 : n = 0
    · rw [h0, if_pos rfl]
      rfl
    · rw [if_neg h0, Nat.digits_def' (by decide) (Nat.pos_of_ne_zero h0), List.map_cons]
      congr 1
      by_cases hlast : n / 10 = 0
      · rw [hlast, Nat.digits_zero]
        rfl
      · rw [if_pos (by omega), ih (n / 10) ?_ ?_, if_neg hlast]
        · refine Nat.pos_of_ne_zero fun hl => hlast ?_
          rw [hl] at hn
          omega
        · rw [Nat.pow_succ] at hn
          omega

/-- **`%d` prints the numeral** of every `int` but the least one. -/
theorem decimal_eq {word : Nat} (hw : word < 2 ^ 32) (hleast : word ≠ 2 ^ 31) :
    decimal word = numeral (s32 word) := by
  have hlong : ∀ n, n < 2 ^ 32 → n < 10 ^ 30 := fun n hn => Nat.lt_trans hn (by decide)
  have hzero : ∀ n : Nat, (if (n : Int) = 0 then [0] else (Nat.digits 10 n).reverse) =
      (if n = 0 then [0] else Nat.digits 10 n).reverse := by
    intro n
    simp only [Int.natCast_eq_zero]
    split <;> rfl
  by_cases hneg : word < 2 ^ 31
  · rw [decimal, reverseLoop_eq, numeral, s32_of_lt hneg, if_neg (by omega), if_neg (by omega),
      if_neg (by omega),
      digitsFrom_eq 30 word (by decide) (hlong word hw), Int.natAbs_natCast, hzero, List.map_reverse]
    rfl
  · have habs : s32 word = -((2 ^ 32 - word : Nat) : Int) := by
      rw [s32, if_neg hneg]
      omega
    have hminus : s32 (u32 (2 ^ 32 - u32 word)) = (2 ^ 32 - word : Nat) := by
      rw [u32_of_lt hw, u32_of_lt (by omega), s32_of_lt (by omega)]
    have hpos : 2 ^ 32 - word ≠ 0 := by omega
    have hdigits := digitsFrom_eq 30 (2 ^ 32 - word) (by decide) (hlong _ (by omega))
    rw [if_neg hpos] at hdigits
    simp only [decimal, reverseLoop_eq, numeral, hminus]
    rw [habs, if_pos (by omega), if_pos (by omega), if_pos (by omega), if_neg (by omega),
      Int.natAbs_neg, Int.natAbs_natCast, List.reverse_append, List.map_reverse, hdigits]
    rfl

/-- The least `int` is its own negation, and its last digit comes out as a bracket. -/
example : decimal (2 ^ 31) = ascii ['-', '('] := by decide

/-! ## Stores with a limit -/

section Stores
variable {limit : Nat} {o : Output} {strings : Nat → CString} {args : Nat → Nat} {c : UInt8}
  {k : Nat}

/-- As much of the text as there is room for. -/
def Output.append (limit : Nat) (o : Output) (text : List UInt8) : Output :=
  ⟨overwrite o.str o.i (text.take (limit - o.i)), min (o.i + text.length) limit⟩

theorem Output.append_nil (h : o.i ≤ limit) : o.append limit [] = o := by
  rw [append, List.take_nil, overwrite_nil, List.length_nil, Nat.add_zero, Nat.min_eq_left h]

theorem Output.append_full (h : o.i = limit) (text : List UInt8) : o.append limit text = o := by
  rw [append, h, Nat.sub_self, List.take_zero, overwrite_nil,
    Nat.min_eq_right (Nat.le_add_right _ _), ← h]

theorem Output.append_le (text : List UInt8) : (o.append limit text).i ≤ limit :=
  Nat.min_le_right _ _

/-- One text after the other is their concatenation. -/
theorem Output.append_append (h : o.i ≤ limit) (a b : List UInt8) :
    (o.append limit a).append limit b = o.append limit (a ++ b) := by
  by_cases hroom : o.i + a.length ≤ limit
  · have ha : a.take (limit - o.i) = a := List.take_of_length_le (by omega)
    have hcut : (a ++ b).take (limit - o.i) = a ++ b.take (limit - (o.i + a.length)) := by
      rw [List.take_append, ha, Nat.sub_sub]
    simp only [append, Nat.min_eq_left hroom]
    rw [ha, overwrite_append, hcut, List.length_append, Nat.add_assoc]
  · have hfull : (o.append limit a).i = limit := Nat.min_eq_right (by omega)
    rw [append_full hfull, append, append, List.take_append_of_le_length (by omega),
      List.length_append, Nat.min_eq_right (by omega), Nat.min_eq_right (by omega)]

theorem store_eq (h : o.i ≤ limit) (c : UInt8) : store limit o c = o.append limit [c] := by
  rw [store]
  by_cases hlt : o.i < limit
  · have hone : [c].length ≤ limit - o.i := by
      rw [List.length_singleton]
      omega
    have hcut : [c].take (limit - o.i) = [c] := List.take_of_length_le hone
    rw [if_pos hlt, Output.append, hcut, overwrite_singleton, List.length_singleton,
      Nat.min_eq_left hlt]
  · rw [if_neg hlt, Output.append_full (by omega)]

theorem storeText_eq (h : o.i ≤ limit) (text : List UInt8) :
    storeText limit o text = o.append limit text := by
  induction text generalizing o with
  | nil => rw [storeText, Output.append_nil h]
  | cons c text ih =>
    rw [storeText]
    by_cases hlt : o.i < limit
    · have hstore := store_eq h c
      rw [store, if_pos hlt] at hstore
      rw [if_pos hlt, hstore, ih (Output.append_le _), Output.append_append h, List.singleton_append]
    · rw [if_neg hlt, Output.append_full (by omega)]

/-- A directive stores what it stands for. -/
theorem storeDirective_eq (h : o.i ≤ limit) (strings : Nat → CString) (args : Nat → Nat)
    (c : UInt8) (k : Nat) : storeDirective limit strings args c k o =
      (o.append limit ((Piece.directive c).rendering strings (args k)),
        k + (Piece.directive c).arity) := by
  simp only [storeDirective, Piece.rendering]
  by_cases hd : c = byteOf 'd'
  · rw [if_pos hd, if_pos hd, arity_argument (.inl hd), storeText_eq h]
  rw [if_neg hd, if_neg hd]
  by_cases hx : c = byteOf 'x'
  · rw [if_pos hx, if_pos hx, arity_argument (.inr (.inl hx)), store_eq h,
      store_eq (Output.append_le _), storeText_eq (Output.append_le _),
      Output.append_append (Output.append_le _), Output.append_append h]
    rfl
  rw [if_neg hx, if_neg hx]
  by_cases hs : c = byteOf 's'
  · rw [if_pos hs, if_pos hs, arity_argument (.inr (.inr (.inl hs))), storeText_eq h]
  rw [if_neg hs, if_neg hs]
  by_cases hc : c = byteOf 'c'
  · rw [if_pos hc, if_pos hc, arity_argument (.inr (.inr (.inr hc))), store_eq h]
  · rw [if_neg hc, if_neg hc, arity_other hd hx hs hc, store_eq h, Nat.add_zero]

theorem storeLoop_full (h : o.i = limit) (format : List UInt8) :
    storeLoop limit strings args format k o = some o := by
  cases format with
  | nil => rw [storeLoop]
  | cons c format =>
    unfold storeLoop
    exact if_neg (Nat.not_lt_of_le (Nat.le_of_eq h.symm))

/-- **The loop** stores as much of the text as there is room for. -/
theorem storeLoop_eq {format : List UInt8} (hlone : Piece.lone ∉ pieces format)
    (h : o.i ≤ limit) : storeLoop limit strings args format k o =
      some (o.append limit (renderings strings args k (pieces format))) := by
  induction format using pieces.induct generalizing k o with
  | case1 => rw [storeLoop, pieces, renderings, Output.append_nil h]
  | case2 =>
    rw [pieces, if_pos rfl] at hlone
    exact absurd List.mem_cons_self hlone
  | case3 d format ih =>
    rw [pieces, if_pos rfl] at hlone ⊢
    have hrest : Piece.lone ∉ pieces format := fun hm => hlone (List.mem_cons_of_mem _ hm)
    by_cases hlt : o.i < limit
    · rw [renderings, ← Output.append_append h]
      conv_lhs => unfold storeLoop
      rw [if_pos hlt, if_pos rfl]
      simp only [storeDirective_eq h]
      exact ih hrest (Output.append_le _)
    · have hfull : o.i = limit := Nat.le_antisymm h (Nat.le_of_not_lt hlt)
      rw [storeLoop_full hfull, Output.append_full hfull]
  | case4 c format hc ih =>
    rw [pieces_plain hc] at hlone ⊢
    have hrest : Piece.lone ∉ pieces format := fun hm => hlone (List.mem_cons_of_mem _ hm)
    by_cases hlt : o.i < limit
    · rw [renderings, ← Output.append_append h]
      conv_lhs => unfold storeLoop
      rw [if_pos hlt, if_neg hc, store_eq h]
      exact ih hrest (Output.append_le _)
    · have hfull : o.i = limit := Nat.le_antisymm h (Nat.le_of_not_lt hlt)
      rw [storeLoop_full hfull, Output.append_full hfull]

end Stores

/-! ## The whole call -/

section Truncation
variable {strings : Nat → CString} {args : Nat → Nat} {format : CString} {size : Nat}

/-- The text that `snprintf` cuts off. -/
def formatted (format : CString) (strings : Nat → CString) (args : Nat → Nat) : List UInt8 :=
  renderings strings args 0 (pieces format.bytes)

theorem snprintf_eq (hpos : 1 ≤ size) (hsize : size < 2 ^ 32)
    (hlone : Piece.lone ∉ pieces format.bytes) (str : Nat → UInt8) :
    snprintf str size format strings args =
      some (min (formatted format strings args).length (size - 1),
        overwrite str 0 ((formatted format strings args).take (size - 1) ++ [0])) := by
  have hlimit : sub32 size 1 = size - 1 := sub32_of_le hsize hpos
  have hstart : (Output.mk str 0).i ≤ size - 1 := Nat.zero_le _
  have hloop := @storeLoop_eq _ _ strings args 0 _ hlone hstart
  rw [snprintf, hlimit, hloop, formatted]
  simp only [Output.append, Nat.zero_add, Nat.sub_zero]
  rw [← overwrite_append, ← overwrite_singleton, List.length_take, Nat.zero_add,
    Nat.min_comm (size - 1)]

/-- What is before the NUL. -/
theorem slice_written (str : Nat → UInt8) (text : List UInt8) :
    slice (overwrite str 0 (text ++ [0])) 0 text.length = text :=
  slice_overwrite_append str text [0]

/-- **`snprintf` truncates exactly**: it writes the text up to `size - 1` characters, the NUL
and nothing else, so that the output for a smaller size is a prefix of that for a larger. -/
theorem snprintf_truncates (str : Nat → UInt8) (size : Nat) (format : CString)
    (strings : Nat → CString) (args : Nat → Nat) (hpos : 1 ≤ size) (hsize : size < 2 ^ 31)
    (hlone : Piece.lone ∉ pieces format.bytes) :
    snprintf str size format strings args =
        some (min (formatted format strings args).length (size - 1),
          overwrite str 0 ((formatted format strings args).take (size - 1) ++ [0])) ∧
      ∀ str' size' n n' out out', size ≤ size' → size' < 2 ^ 31 →
        snprintf str size format strings args = some (n, out) →
        snprintf str' size' format strings args = some (n', out') →
        slice out 0 n <+: slice out' 0 n' := by
  have hwritten : ∀ str₁ size₁, 1 ≤ size₁ → size₁ < 2 ^ 31 → ∀ n₁ out₁,
      snprintf str₁ size₁ format strings args = some (n₁, out₁) →
      slice out₁ 0 n₁ = (formatted format strings args).take (size₁ - 1) := by
    intro str₁ size₁ hpos₁ hsize₁ n₁ out₁ he
    rw [snprintf_eq hpos₁ (Nat.lt_trans hsize₁ (by decide)) hlone, Option.some.injEq,
      Prod.mk.injEq] at he
    rw [← he.1, ← he.2, Nat.min_comm, ← List.length_take]
    exact slice_written _ _
  refine ⟨snprintf_eq hpos (Nat.lt_trans hsize (by decide)) hlone str,
    fun str' size' n n' out out' hle hsize' he he' => ?_⟩
  rw [hwritten str size hpos hsize n out he,
    hwritten str' size' (Nat.le_trans hpos hle) hsize' n' out' he']
  exact List.take_prefix_take_left (by omega)

/-- `snprintf(str, 6, "%x", 0xabc)` stops in the middle of the number that the same call with
12 prints whole. -/
theorem snprintf_truncates_hex :
    snprintf (fun _ => 0) 6 ⟨ascii ['%', 'x'], by decide⟩ (fun _ => ⟨[], by decide⟩)
        (fun _ => 0xabc) =
      some (5, overwrite (fun _ => 0) 0 (ascii ['0', 'x', '0', '0', '0'] ++ [0])) ∧
    snprintf (fun _ => 0) 12 ⟨ascii ['%', 'x'], by decide⟩ (fun _ => ⟨[], by decide⟩)
        (fun _ => 0xabc) =
      some (10, overwrite (fun _ => 0) 0
        (ascii ['0', 'x', '0', '0', '0', '0', '0', 'a', 'b', 'c'] ++ [0])) ∧
    slice (overwrite (fun _ => 0) 0 (ascii ['0', 'x', '0', '0', '0'] ++ [0])) 0 5 <+:
      slice (overwrite (fun _ => 0) 0
        (ascii ['0', 'x', '0', '0', '0', '0', '0', 'a', 'b', 'c'] ++ [0])) 0 10 := by
  have hcut := snprintf_truncates (fun _ => 0) 6 ⟨ascii ['%', 'x'], by decide⟩
    (fun _ => ⟨[], by decide⟩) (fun _ => 0xabc) (by decide) (by decide) nofun
  have hwhole := snprintf_truncates (fun _ => 0) 12 ⟨ascii ['%', 'x'], by decide⟩
    (fun _ => ⟨[], by decide⟩) (fun _ => 0xabc) (by decide) (by decide) nofun
  exact ⟨hcut.1, hwhole.1, hcut.2 _ 12 5 10 _ _ (by decide) (by decide) hcut.1 hwhole.1⟩

end Truncation

end SynapseKernel.Str
