import SynapseKernel.Str.Memory

/-! # Copying a string into a window (lib/string.c)

`strncpy` counts down in its first loop for the bytes it copies but not for the NUL, and
then pads for all that is left of the count. So where the string is shorter than the
window the padding runs over its end by one byte (`strncpy_eq`). -/
namespace SynapseKernel.Str
open SynapseKernel.Word SynapseKernel.ByteMemory

/-- `while (n && (*d++ = *src++) != '\\0') n--;`: memory, `d` and `n` when it is left. -/
def strncpyFrom : Nat → Mem → Nat → Nat → Mem × Nat × Nat
  | 0, m, d, _ => (m, d, 0)
  | n + 1, m, d, src =>
    let c := char m src
    let m := Function.update m (u32 d) c
    if c ≠ 0 then strncpyFrom n m (d + 1) (src + 1) else (m, d + 1, n + 1)

/-- `while (n--) *d++ = '\\0';`. -/
def padFrom : Nat → Mem → Nat → Mem
  | 0, m, _ => m
  | n + 1, m, d => padFrom n (Function.update m (u32 d) 0) (d + 1)

def strncpy (m : Mem) (dest src n : Nat) : Mem :=
  let (m, d, n) := strncpyFrom n m dest src
  padFrom n m d

/-- The bytes of a list from an address on. -/
def storeFrom : Mem → Nat → List UInt8 → Mem
  | m, _, [] => m
  | m, d, b :: bytes => storeFrom (Function.update m (u32 d) b) (d + 1) bytes

/-- The first `n` bytes of a text, padded with NULs. -/
def padded (text : List UInt8) (n : Nat) : List UInt8 :=
  text.take n ++ List.replicate (n - text.length) 0

/-- The window from `dest` on holds the bytes, and memory is as it was outside of it. -/
structure WritesWindow (m m' : Mem) (dest : Nat) (bytes : List UInt8) : Prop where
  written : ∀ i, (h : i < bytes.length) → char m' (dest + i) = bytes[i]
  frame : ∀ a, (∀ i < bytes.length, a ≠ u32 (dest + i)) → m' a = m a

variable {m : Mem} {d dest src n a : Nat} {text bytes : List UInt8}

/-! ## Stores -/

theorem storeFrom_append (m : Mem) (d : Nat) (l r : List UInt8) :
    storeFrom m d (l ++ r) = storeFrom (storeFrom m d l) (d + l.length) r := by
  induction l generalizing m d with
  | nil => rfl
  | cons b l ih =>
    rw [List.cons_append, storeFrom, storeFrom, ih, List.length_cons, Nat.add_assoc,
      Nat.add_comm 1]

theorem storeFrom_frame (h : ∀ i < bytes.length, a ≠ u32 (d + i)) :
    storeFrom m d bytes a = m a := by
  induction bytes generalizing m d with
  | nil => rfl
  | cons b bytes ih =>
    have hfirst : a ≠ u32 d := h 0 (Nat.succ_pos _)
    rw [storeFrom, ih, Function.update_of_ne hfirst]
    intro i hi
    have hnext := h (i + 1) (Nat.succ_lt_succ hi)
    rwa [Nat.add_comm i, ← Nat.add_assoc] at hnext

/-- Positions less than all of memory apart are at different addresses. -/
theorem u32_add_ne {i j : Nat} (hij : i < j) (hj : j < 2 ^ 32) : u32 (d + i) ≠ u32 (d + j) := by
  unfold u32
  omega

theorem char_storeFrom (hlen : bytes.length ≤ 2 ^ 32) {i : Nat} (hi : i < bytes.length) :
    char (storeFrom m d bytes) (d + i) = bytes[i] := by
  induction bytes generalizing m d i with
  | nil => exact absurd hi (Nat.not_lt_zero i)
  | cons b bytes ih =>
    rw [List.length_cons] at hlen hi
    cases i with
    | zero =>
      have hkept : ∀ j < bytes.length, u32 (d + 0) ≠ u32 (d + 1 + j) := by
        intro j hj
        rw [Nat.add_assoc, Nat.add_comm 1]
        exact u32_add_ne (Nat.succ_pos j) (by omega)
      rw [storeFrom, char, storeFrom_frame hkept]
      exact Function.update_self ..
    | succ i =>
      have hrest := @ih (Function.update m (u32 d) b) (d + 1) (by omega) i (by omega)
      rw [Nat.add_assoc, Nat.add_comm 1] at hrest
      rw [storeFrom, hrest, List.getElem_cons_succ]

theorem writesWindow_storeFrom (m : Mem) (dest : Nat) (hlen : bytes.length ≤ 2 ^ 32) :
    WritesWindow m (storeFrom m dest bytes) dest bytes :=
  ⟨fun _ hi => char_storeFrom hlen hi, fun _ ha => storeFrom_frame ha⟩

/-! ## The two loops -/

theorem padFrom_eq (n : Nat) (m : Mem) (d : Nat) :
    padFrom n m d = storeFrom m d (List.replicate n 0) := by
  induction n generalizing m d with
  | zero => rfl
  | succ n ih => rw [padFrom, ih, List.replicate_succ, storeFrom]

/-- The bytes that are read, one after the other as others are written, are those of the text
and its NUL. -/
def ReadsText : Nat → Mem → Nat → Nat → List UInt8 → Prop
  | 0, _, _, _, _ => True
  | _ + 1, m, _, src, [] => char m src = 0
  | n + 1, m, dest, src, b :: text =>
    char m src = b ∧ ReadsText n (Function.update m (u32 dest) b) (dest + 1) (src + 1) text

/-- Where the window lies over a byte of the string that is still to be read, it gets the same
byte there. -/
def Undisturbed (dest src n : Nat) (text : List UInt8) : Prop :=
  ∀ i j, i < j → j < n → j ≤ text.length → u32 (dest + i) = u32 (src + j) →
    text.getD i 0 = text.getD j 0

theorem undisturbed_of_apart
    (h : ∀ i < n, ∀ j ≤ text.length, u32 (dest + i) ≠ u32 (src + j)) :
    Undisturbed dest src n text :=
  fun i j hij hj hlen he => absurd he (h i (Nat.lt_trans hij hj) j hlen)

theorem Undisturbed.tail {b : UInt8} (h : Undisturbed dest src (n + 1) (b :: text)) :
    Undisturbed (dest + 1) (src + 1) n text := by
  intro i j hij hj hlen he
  have hnext := h (i + 1) (j + 1) (Nat.succ_lt_succ hij) (Nat.succ_lt_succ hj)
    (by rw [List.length_cons]; omega)
  rw [Nat.add_comm i, Nat.add_comm j, ← Nat.add_assoc, ← Nat.add_assoc] at hnext
  have hsame := hnext he
  rwa [Nat.add_comm 1, Nat.add_comm 1, List.getD_cons_succ, List.getD_cons_succ] at hsame

/-- A byte of a string. -/
theorem Holds.char_add (h : Holds m src text) {j : Nat} (hj : j ≤ text.length) :
    char m (src + j) = text.getD j 0 := by
  induction text generalizing src j with
  | nil =>
    obtain rfl := Nat.le_zero.mp hj
    exact h
  | cons b text ih =>
    cases j with
    | zero => exact h.1
    | succ j =>
      have hrest := ih h.2 (Nat.le_of_succ_le_succ hj)
      rwa [Nat.add_assoc, Nat.add_comm 1] at hrest

/-- A text that stands in memory as far as it is read is read if it is not disturbed. -/
theorem readsText_of_undisturbed
    (hm : ∀ j < n, j ≤ text.length → char m (src + j) = text.getD j 0)
    (h : Undisturbed dest src n text) : ReadsText n m dest src text := by
  induction n generalizing m dest src text with
  | zero => trivial
  | succ n ih =>
    have hfirst := hm 0 (Nat.succ_pos n) (Nat.zero_le _)
    cases text with
    | nil => exact hfirst
    | cons b text =>
      refine ⟨hfirst, ih (fun j hj hlen => ?_) h.tail⟩
      have hj' : j + 1 < n + 1 := Nat.succ_lt_succ hj
      have hlen' : j + 1 ≤ (b :: text).length := Nat.succ_le_succ hlen
      have hbyte := hm (j + 1) hj' hlen'
      have hover := h 0 (j + 1) (Nat.succ_pos j) hj' hlen'
      rw [Nat.add_comm j, ← Nat.add_assoc] at hbyte hover
      by_cases he : u32 dest = u32 (src + 1 + j)
      · rw [char, ← he, Function.update_self]
        have hsame := hover he
        rwa [Nat.add_comm 1, List.getD_cons_succ] at hsame
      · rw [char, Function.update_of_ne (Ne.symm he)]
        rwa [Nat.add_comm 1, List.getD_cons_succ] at hbyte

/-- What is read at a step, where the text before it is already copied. -/
theorem ReadsText.char_eq (h : ReadsText n m dest src text) {j : Nat} (hj : j < n)
    (hlen : j ≤ text.length) :
    char (storeFrom m dest (text.take j)) (src + j) = text.getD j 0 := by
  induction n generalizing m dest src text j with
  | zero => exact absurd hj (Nat.not_lt_zero j)
  | succ n ih =>
    cases text with
    | nil =>
      obtain rfl := Nat.le_zero.mp hlen
      exact h
    | cons b text =>
      cases j with
      | zero => exact h.1
      | succ j =>
        have hrest := ih h.2 (Nat.lt_of_succ_lt_succ hj) (Nat.le_of_succ_le_succ hlen)
        rwa [Nat.add_assoc, Nat.add_comm 1] at hrest

theorem ReadsText.undisturbed (h : ReadsText n m dest src text) (hn : n < 2 ^ 32) :
    Undisturbed dest src n text := by
  intro i j hij hj hlen he
  have hread := h.char_eq hj hlen
  have htake : (text.take j).length = j := List.length_take_of_le hlen
  have hwritten := @char_storeFrom m dest (text.take j) (by omega) i (htake.symm ▸ hij)
  have hplace : char (storeFrom m dest (text.take j)) (src + j) =
      char (storeFrom m dest (text.take j)) (dest + i) :=
    congrArg (storeFrom m dest (text.take j)) he.symm
  rw [hplace, hwritten, List.getElem_take] at hread
  rw [← hread]
  exact List.getD_eq_getElem _ _ (Nat.lt_of_lt_of_le hij hlen)

/-- A round of the first loop that copies a byte of the string. -/
theorem strncpy_copy {b : UInt8} (h : char m src = b) (hb : b ≠ 0) :
    strncpy m dest src (n + 1) =
      strncpy (Function.update m (u32 dest) b) (dest + 1) (src + 1) n := by
  rw [strncpy, strncpyFrom, h]
  simp only [if_pos hb]
  rfl

/-- The round that copies the NUL does not count it. -/
theorem strncpy_nul (h : char m src = 0) :
    strncpy m dest src (n + 1) =
      padFrom (n + 1) (Function.update m (u32 dest) 0) (dest + 1) := by
  have hzero : ¬ ((0 : UInt8) ≠ 0) := not_not.mpr rfl
  rw [strncpy, strncpyFrom, h]
  simp only [if_neg hzero]

/-- The first `n` bytes of a text that is not shorter; else the text, its NUL and NULs for all
of the rest. -/
def stored (text : List UInt8) (n : Nat) : List UInt8 :=
  if n ≤ text.length then text.take n else text ++ 0 :: List.replicate (n - text.length) 0

theorem stored_cons (b : UInt8) (text : List UInt8) (n : Nat) :
    stored (b :: text) (n + 1) = b :: stored text n := by
  rw [stored, stored, List.length_cons, Nat.add_sub_add_right]
  by_cases hn : n ≤ text.length
  · rw [if_pos hn, if_pos (Nat.succ_le_succ hn), List.take_succ_cons]
  · rw [if_neg hn, if_neg fun hle => hn (Nat.le_of_succ_le_succ hle), List.cons_append]

/-- **What `strncpy` stores.** -/
theorem strncpy_eq (hreads : ReadsText n m dest src text) (h0 : 0 ∉ text) :
    strncpy m dest src n = storeFrom m dest (stored text n) := by
  induction n generalizing m dest src text with
  | zero =>
    rw [stored, if_pos (Nat.zero_le _), List.take_zero]
    rfl
  | succ n ih =>
    cases text with
    | nil =>
      rw [strncpy_nul hreads, padFrom_eq]
      rfl
    | cons b text =>
      obtain ⟨hb, hrest⟩ := not_or.mp (mt List.mem_cons.mpr h0)
      rw [strncpy_copy hreads.1 (Ne.symm hb), ih hreads.2 hrest, stored_cons, storeFrom]

/-- Nothing is written but the window and the byte behind it. -/
theorem strncpy_frame (h : ∀ i ≤ n, a ≠ u32 (dest + i)) : strncpy m dest src n a = m a := by
  induction n generalizing m dest src with
  | zero => rfl
  | succ n ih =>
    have hfirst : a ≠ u32 dest := h 0 (Nat.zero_le _)
    have hrest : ∀ i ≤ n, a ≠ u32 (dest + 1 + i) := by
      intro i hi
      rw [Nat.add_assoc, Nat.add_comm 1]
      exact h (i + 1) (Nat.succ_le_succ hi)
    by_cases hb : char m src = 0
    · rw [strncpy_nul hb, padFrom_eq, storeFrom_frame, Function.update_of_ne hfirst]
      intro i hi
      rw [List.length_replicate] at hi
      exact hrest i (Nat.le_of_lt_succ hi)
    · rw [strncpy_copy rfl hb, ih hrest, Function.update_of_ne hfirst]

/-- The first byte is written once. -/
theorem char_strncpy_dest (hn : n + 1 < 2 ^ 32) :
    char (strncpy m dest src (n + 1)) dest = char m src := by
  have hkept : ∀ i ≤ n, u32 dest ≠ u32 (dest + 1 + i) := by
    intro i hi
    rw [Nat.add_assoc, Nat.add_comm 1]
    exact @u32_add_ne dest 0 (i + 1) (Nat.succ_pos i) (by omega)
  by_cases hb : char m src = 0
  · rw [strncpy_nul hb, padFrom_eq, char, storeFrom_frame, Function.update_self, hb]
    intro i hi
    rw [List.length_replicate] at hi
    exact hkept i (Nat.le_of_lt_succ hi)
  · rw [strncpy_copy rfl hb, char, strncpy_frame hkept, Function.update_self]

/-! ## The window -/

theorem length_padded (text : List UInt8) (n : Nat) : (padded text n).length = n := by
  rw [padded, List.length_append, List.length_take, List.length_replicate]
  omega

theorem padded_cons (b : UInt8) (text : List UInt8) (n : Nat) :
    padded (b :: text) (n + 1) = b :: padded text n := by
  rw [padded, padded, List.length_cons, Nat.add_sub_add_right, List.take_succ_cons,
    List.cons_append]

/-- A string that is shorter than the window is padded by one NUL too many. -/
theorem stored_eq (text : List UInt8) (n : Nat) :
    stored text n = if n ≤ text.length then padded text n else padded text n ++ [0] := by
  rw [stored, padded]
  by_cases hn : n ≤ text.length
  · rw [if_pos hn, if_pos hn, Nat.sub_eq_zero_of_le hn, List.replicate_zero, List.append_nil]
  · rw [if_neg hn, if_neg hn, List.take_of_length_le (Nat.le_of_not_le hn), List.append_assoc,
      ← List.replicate_succ', List.replicate_succ]

/-- What stands in the window was read. -/
theorem readsText_of_written (hn : n < 2 ^ 32) (h0 : 0 ∉ text)
    (h : ∀ i < n, char (strncpy m dest src n) (dest + i) = (padded text n).getD i 0) :
    ReadsText n m dest src text := by
  induction n generalizing m dest src text with
  | zero => trivial
  | succ n ih =>
    have hfirst : char m src = (padded text (n + 1)).getD 0 0 := by
      rw [← char_strncpy_dest hn]
      exact h 0 (Nat.succ_pos n)
    cases text with
    | nil => exact hfirst
    | cons b text =>
      obtain ⟨hb, hrest⟩ := not_or.mp (mt List.mem_cons.mpr h0)
      rw [padded_cons, List.getD_cons_zero] at hfirst
      refine ⟨hfirst, ih (Nat.lt_of_succ_lt hn) hrest fun i hi => ?_⟩
      have hnext := h (i + 1) (Nat.succ_lt_succ hi)
      rw [padded_cons, List.getD_cons_succ, strncpy_copy hfirst (Ne.symm hb)] at hnext
      rwa [Nat.add_assoc, Nat.add_comm 1]

/-- Where the string is read as it stands, the window alone is written if and only if the
string fills it or the byte behind it is NUL already. -/
theorem writesWindow_of_readsText (hreads : ReadsText n m dest src text) (h0 : 0 ∉ text)
    (hn : n < 2 ^ 32) : WritesWindow m (strncpy m dest src n) dest (padded text n) ↔
      n ≤ text.length ∨ char m (dest + n) = 0 := by
  have hlen := length_padded text n
  have hwindow := writesWindow_storeFrom m dest (Nat.le_of_lt (hlen.symm ▸ hn))
  rw [strncpy_eq hreads h0, stored_eq]
  by_cases hfull : n ≤ text.length
  · rw [if_pos hfull]
    exact iff_of_true hwindow (.inl hfull)
  have hbehind : ∀ i < (padded text n).length, u32 (dest + n) ≠ u32 (dest + i) :=
    fun i hi => (u32_add_ne (hlen ▸ hi) hn).symm
  have hkept : storeFrom m dest (padded text n) (u32 (dest + n)) = char m (dest + n) :=
    hwindow.frame _ hbehind
  rw [if_neg hfull, or_iff_right hfull, storeFrom_append, hlen, storeFrom, storeFrom]
  constructor
  · intro h
    have hsame := h.frame _ hbehind
    rw [Function.update_self] at hsame
    exact hsame.symm
  · intro hnul
    rw [← hnul, ← hkept, Function.update_eq_self]
    exact hwindow

/-- **`strncpy` writes its window and nothing else** if and only if the string is not disturbed
while it is read, and fills the window or has a NUL behind the window already. -/
theorem strncpy_window_iff (hm : Holds m src text) (h0 : 0 ∉ text) (hn : n < 2 ^ 32)
    (dest : Nat) : WritesWindow m (strncpy m dest src n) dest (padded text n) ↔
      Undisturbed dest src n text ∧ (n ≤ text.length ∨ char m (dest + n) = 0) := by
  have hlen := length_padded text n
  constructor
  · intro h
    have hreads : ReadsText n m dest src text := by
      refine readsText_of_written hn h0 fun i hi => ?_
      rw [h.written i (hlen.symm ▸ hi)]
      exact (List.getD_eq_getElem _ _ _).symm
    exact ⟨hreads.undisturbed hn, (writesWindow_of_readsText hreads h0 hn).mp h⟩
  · rintro ⟨hsame, hend⟩
    have hreads := readsText_of_undisturbed (fun j _ hj => hm.char_add hj) hsame
    exact (writesWindow_of_readsText hreads h0 hn).mpr hend

/-- `ab` into two bytes. -/
theorem strncpy_window_iff_full :
    WritesWindow (place (ascii ['a', 'b'])) (strncpy (place (ascii ['a', 'b'])) 8 0 2) 8
      (padded (ascii ['a', 'b']) 2) := by
  have hm : Holds (place (ascii ['a', 'b'])) 0 (ascii ['a', 'b']) := holds_place (by decide)
  have hapart : Undisturbed 8 0 2 (ascii ['a', 'b']) := by
    refine undisturbed_of_apart fun i hi j hj => ?_
    have hlen : (ascii ['a', 'b']).length = 2 := rfl
    unfold u32
    omega
  exact (strncpy_window_iff hm (by decide) (by decide) 8).mpr ⟨hapart, .inl (by decide)⟩

/-- `a` into the two bytes from address 2 on, in front of a `z`. -/
theorem not_writesWindow_short :
    Holds (place [97, 0, 98, 99, 122]) 0 [97] ∧
      (∀ i < 2, ∀ j ≤ [97].length, u32 (2 + i) ≠ u32 (0 + j)) ∧
      ¬ WritesWindow (place [97, 0, 98, 99, 122]) (strncpy (place [97, 0, 98, 99, 122]) 2 0 2) 2
        (padded [97] 2) := by
  have hletter : char (place [97, 0, 98, 99, 122]) 0 = 97 := by decide
  have hnul : char (place [97, 0, 98, 99, 122]) 1 = 0 := by decide
  refine ⟨⟨hletter, hnul⟩, by decide, fun h => ?_⟩
  exact absurd (h.frame 4 (by decide)) (by decide)

end SynapseKernel.Str
