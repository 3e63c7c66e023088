import SynapseKernel.Lib.Blocks
import SynapseKernel.Str.Compare
import SynapseKernel.Str.Strcpy

/-! # Copying between two places of memory (lib/string.c, lib/mem.c)

`strcpy` and `strcat` with both strings in memory. The bytes are copied upwards without a
length, so that a copy which starts inside the string that it reads runs behind a NUL that it
has overwritten itself and never ends (`strcpy_ends_iff`, `strcat_ends_iff`). In every other
case it is the copy of a string that is kept elsewhere. `strchr` is `strstr` for the string of
one character, `memcmp` compares as `strcmp` does and goes on behind a NUL. -/
namespace SynapseKernel.Str
open SynapseKernel.Word SynapseKernel.ByteMemory SynapseKernel.Blocks

namespace InMemory

/-- `while ((*d++ = *src++) != '\0');`, `none` if it goes on. -/
def copyFrom : Nat → Mem → Nat → Nat → Option Mem
  | 0, _, _, _ => none
  | fuel + 1, m, d, src =>
    let c := char m src
    let m := Function.update m (u32 d) c
    if c ≠ 0 then copyFrom fuel m (d + 1) (src + 1) else some m

/-- `dest` is returned. -/
def strcpy (m : Mem) (dest src : Nat) : Option Mem := copyFrom loopFuel m dest src

/-- `while (*d) d++;`. -/
def endFrom (m : Mem) : Nat → Nat → Option Nat
  | 0, _ => none
  | fuel + 1, d => if char m d ≠ 0 then endFrom m fuel (d + 1) else some d

/-- `dest` is returned. -/
def strcat (m : Mem) (dest src : Nat) : Option Mem :=
  (endFrom m loopFuel dest).bind fun d => copyFrom loopFuel m d src

end InMemory

variable {m m' : Mem} {p d src dest fuel : Nat} {a b : List UInt8} {s t : CString}

/-! ## One byte after the other -/

theorem char_update (m : Mem) (d p : Nat) (c : UInt8) :
    char (Function.update m (u32 d) c) p = if u32 p = u32 d then c else char m p := by
  rw [char, Function.update_apply]
  rfl

/-- A byte that is written outside of a string. -/
theorem Holds.update (h : Holds m p a) (hp : p + a.length < 2 ^ 32) {x : Nat} (hx : x < 2 ^ 32)
    (hout : x < p ∨ p + a.length < x) (c : UInt8) :
    Holds (Function.update m (u32 x) c) p a := by
  refine h.congr hp fun y hlo hhi => ?_
  rw [u32_of_lt hx]
  exact Function.update_of_ne (by omega) ..

/-- A string that goes on with another. -/
theorem Holds.extend (h : Holds m p a) (h' : Holds m' (p + a.length) b)
    (hp : p + a.length < 2 ^ 32) (hm : ∀ x, p ≤ x → x < p + a.length → m' x = m x) :
    Holds m' p (a ++ b) := by
  induction a generalizing p with
  | nil => exact h'
  | cons c a ih =>
    rw [List.length_cons] at h' hp hm
    refine ⟨?_, ih h.2 ?_ (by omega) fun x hlo hhi => hm x (by omega) (by omega)⟩
    · rw [char, u32_of_lt (by omega), hm p (Nat.le_refl p) (by omega), ← h.1, char,
        u32_of_lt (by omega)]
    · rwa [Nat.add_assoc, Nat.add_comm 1]

/-- No byte of the source is overwritten before it is read: the copy is that of the string. -/
theorem copyFrom_eq (hs : Holds m src a) (h0 : 0 ∉ a) (hsrc : src + a.length < 2 ^ 32)
    (hd : d + a.length < 2 ^ 32) (hout : d ≤ src ∨ src + a.length < d)
    (hfuel : a.length < fuel) :
    InMemory.copyFrom fuel m d src = some (strcpyFrom m d a) := by
  induction a generalizing m d src fuel with
  | nil =>
    obtain ⟨fuel, rfl⟩ := Nat.exists_eq_succ_of_ne_zero (Nat.ne_of_gt hfuel)
    have hnul : char m src = 0 := hs
    simp only [InMemory.copyFrom, hnul, ne_eq, not_true, if_false]
    rfl
  | cons c a ih =>
    obtain ⟨fuel, rfl⟩ := Nat.exists_eq_succ_of_ne_zero (Nat.ne_zero_of_lt hfuel)
    obtain ⟨hc, h0⟩ := cons_notMem_nul h0
    rw [List.length_cons] at hsrc hd hout hfuel
    have hrest := hs.2.update (by omega) (show d < 2 ^ 32 by omega) (by omega) c
    have hcopy := ih hrest h0 (by omega) (show d + 1 + a.length < 2 ^ 32 by omega) (by omega)
      (Nat.lt_of_succ_lt_succ hfuel)
    simp only [InMemory.copyFrom, hs.1, ne_eq, hc, not_false_eq_true, if_true]
    exact hcopy

/-- Between the two cursors there is no NUL, and what is written is none: the loop goes on. -/
theorem copyFrom_chases (hlt : src < d) (hne : ∀ x, src ≤ x → x < d → char m x ≠ 0) :
    InMemory.copyFrom fuel m d src = none := by
  induction fuel generalizing m d src with
  | zero => rfl
  | succ fuel ih =>
    have hc := hne src (Nat.le_refl src) hlt
    simp only [InMemory.copyFrom, ne_eq, hc, not_false_eq_true, if_true]
    refine ih (Nat.succ_lt_succ hlt) fun x hlo hhi => ?_
    rw [char_update]
    split
    · exact hc
    · rename_i hout
      have hne' : x ≠ d := fun he => hout (congrArg u32 he)
      exact hne x (by omega) (by omega)

/-- The bytes of a string are not NUL. -/
theorem Holds.ne_nul (h : Holds m p a) (h0 : 0 ∉ a) {x : Nat} (hlo : p ≤ x)
    (hhi : x < p + a.length) : char m x ≠ 0 := by
  induction a generalizing p with
  | nil => exact absurd hhi (Nat.not_lt.mpr hlo)
  | cons c a ih =>
    obtain ⟨hc, h0⟩ := cons_notMem_nul h0
    rw [List.length_cons] at hhi
    by_cases hx : x = p
    · rw [hx, h.1]
      exact hc
    · exact ih h.2 h0 (by omega) (by omega)

theorem endFrom_eq (h : Holds m p a) (h0 : 0 ∉ a) (hfuel : a.length < fuel) :
    InMemory.endFrom m fuel p = some (p + a.length) := by
  induction a generalizing p fuel with
  | nil =>
    obtain ⟨fuel, rfl⟩ := Nat.exists_eq_succ_of_ne_zero (Nat.ne_of_gt hfuel)
    exact if_neg (not_not.mpr h)
  | cons c a ih =>
    obtain ⟨fuel, rfl⟩ := Nat.exists_eq_succ_of_ne_zero (Nat.ne_zero_of_lt hfuel)
    obtain ⟨hc, h0⟩ := cons_notMem_nul h0
    have hchar : char m p ≠ 0 := by rwa [h.1]
    rw [InMemory.endFrom, if_pos hchar, ih h.2 h0 (Nat.lt_of_succ_lt_succ hfuel), List.length_cons,
      Nat.add_assoc, Nat.add_comm 1]

/-! ## Whole strings -/

/-- **When `strcpy` ends**: exactly if the copy does not start behind the first byte of the
string and not behind its NUL either. It is then the copy of the string as it was. -/
theorem strcpy_ends_iff (hs : Holds m src s.bytes) (hsrc : src + s.bytes.length < 2 ^ 32)
    (hdest : dest + s.bytes.length < 2 ^ 32) :
    InMemory.strcpy m dest src =
      if src < dest ∧ dest ≤ src + s.bytes.length then none else some (strcpy m dest s) := by
  by_cases hinside : src < dest ∧ dest ≤ src + s.bytes.length
  · rw [if_pos hinside]
    refine copyFrom_chases hinside.1 fun x hlo hhi => ?_
    exact hs.ne_nul s.noNul hlo (Nat.lt_of_lt_of_le hhi hinside.2)
  · rw [if_neg hinside]
    exact copyFrom_eq hs s.noNul hsrc hdest (by omega) (hs.length_lt s.noNul)

/-- `ab` is copied down by one byte, and not up. -/
theorem strcpy_ends_iff_letters :
    InMemory.strcpy (place [120, 97, 98]) 0 1 =
        some (strcpy (place [120, 97, 98]) 0 ⟨ascii ['a', 'b'], by decide⟩) ∧
      InMemory.strcpy (place [120, 97, 98]) 2 1 = none := by
  have hnul : char (place [120, 97, 98]) 3 = 0 := by decide
  have hs : Holds (place [120, 97, 98]) 1 (ascii ['a', 'b']) := ⟨by decide, by decide, hnul⟩
  have hcopy := fun dest hdest => @strcpy_ends_iff (place [120, 97, 98]) 1 dest
    ⟨ascii ['a', 'b'], by decide⟩ hs (by decide) hdest
  exact ⟨hcopy 0 (by decide), hcopy 2 (by decide)⟩

/-- Two strings in memory end at the same NUL or share no byte. -/
theorem Holds.same_nul (ht : Holds m dest t.bytes) (hs : Holds m src s.bytes)
    (hlt : src < dest + t.bytes.length) (hle : dest + t.bytes.length ≤ src + s.bytes.length) :
    src + s.bytes.length = dest + t.bytes.length := by
  by_contra hne
  exact hs.ne_nul s.noNul (Nat.le_of_lt hlt) (by omega) ht.nul

/-- **When `strcat` ends**: exactly if what it appends is empty or does not end where the
destination ends. It has then appended the string as it was, and written nowhere else. -/
theorem strcat_ends_iff (ht : Holds m dest t.bytes) (hs : Holds m src s.bytes)
    (hsrc : src + s.bytes.length < 2 ^ 32)
    (hdest : dest + t.bytes.length + s.bytes.length < 2 ^ 32) :
    (InMemory.strcat m dest src = none ↔
      s.bytes ≠ [] ∧ src + s.bytes.length = dest + t.bytes.length) ∧
    ∀ m', InMemory.strcat m dest src = some m' → Holds m' dest (t.bytes ++ s.bytes) ∧
      ∀ x, x < dest + t.bytes.length ∨ dest + t.bytes.length + s.bytes.length < x →
        m' x = m x := by
  have hend := endFrom_eq ht t.noNul (ht.length_lt t.noNul)
  have hcopy : InMemory.strcat m dest src = InMemory.strcpy m (dest + t.bytes.length) src := by
    rw [InMemory.strcat, hend]
    rfl
  have hlen : s.bytes ≠ [] ↔ 0 < s.bytes.length := List.length_pos_iff.symm
  rw [hcopy, strcpy_ends_iff hs hsrc hdest, hlen]
  by_cases hinside : src < dest + t.bytes.length ∧
      dest + t.bytes.length ≤ src + s.bytes.length
  · have hsame := ht.same_nul hs hinside.1 hinside.2
    rw [if_pos hinside]
    refine ⟨iff_of_true rfl ⟨by omega, hsame⟩, fun m' hm' => ?_⟩
    exact absurd hm'.symm (Option.some_ne_none m')
  · rw [if_neg hinside]
    refine ⟨iff_of_false (Option.some_ne_none _) (by omega), fun m' hm' => ?_⟩
    obtain rfl := Option.some.inj hm'
    have hframe : ∀ x, x < dest + t.bytes.length ∨ dest + t.bytes.length + s.bytes.length < x →
        strcpy m (dest + t.bytes.length) s x = m x := fun x hx => strcpy_frame hdest hx
    refine ⟨ht.extend (holds_strcpy hdest) (by omega) fun x _ hhi => ?_, hframe⟩
    exact hframe x (.inl hhi)

/-- `ab` in front of `c`: they are put together, and `ab` is not appended to itself. -/
theorem strcat_ends_iff_letters :
    (∃ m', InMemory.strcat (place [97, 98, 0, 99]) 0 3 = some m' ∧
      Holds m' 0 (ascii ['a', 'b'] ++ ascii ['c'])) ∧
    InMemory.strcat (place [97, 98, 0, 99]) 0 0 = none := by
  have hnul : char (place [97, 98, 0, 99]) 2 = 0 ∧ char (place [97, 98, 0, 99]) 4 = 0 := by decide
  have hfirst : Holds (place [97, 98, 0, 99]) 0 (ascii ['a', 'b']) :=
    ⟨by decide, by decide, hnul.1⟩
  have hsecond : Holds (place [97, 98, 0, 99]) 3 (ascii ['c']) := ⟨by decide, hnul.2⟩
  refine ⟨?_, ?_⟩
  · obtain ⟨hiff, hends⟩ := @strcat_ends_iff (place [97, 98, 0, 99]) 3 0
      ⟨ascii ['c'], by decide⟩ ⟨ascii ['a', 'b'], by decide⟩ hfirst hsecond (by decide) (by decide)
    have hsome := mt hiff.mp (by decide)
    obtain ⟨m', hm'⟩ := Option.ne_none_iff_exists'.mp hsome
    exact ⟨m', hm', (hends m' hm').1⟩
  · exact (@strcat_ends_iff (place [97, 98, 0, 99]) 0 0
      ⟨ascii ['a', 'b'], by decide⟩ ⟨ascii ['a', 'b'], by decide⟩ hfirst hfirst (by decide)
      (by decide)).1.mpr ⟨by decide, rfl⟩

/-! ## Searching a string, and comparing bytes -/

namespace InMemory

/-- The loop of `strchr`; `none` if it goes on. -/
def strchrFrom (m : Mem) (c : UInt8) : Nat → Nat → Option (Option Nat)
  | 0, _ => none
  | fuel + 1, str =>
    if char m str ≠ 0 then
      if char m str = c then some (some str) else strchrFrom m c fuel (str + 1)
    else some none

/-- The `int` that is looked for is cut down to a `char`. -/
def strchr (m : Mem) (str c : Nat) : Option (Option Nat) :=
  strchrFrom m (UInt8.ofNat c) loopFuel str

/-- `while (n--)` of `memcmp`. -/
def memcmp (m : Mem) : Nat → Nat → Nat → Int
  | _, _, 0 => 0
  | s1, s2, n + 1 =>
    if char m s1 ≠ char m s2 then (char m s1).toNat - (char m s2).toNat
    else memcmp m (s1 + 1) (s2 + 1) n

end InMemory

/-- Looking for a character is looking for the string of it. -/
theorem strchrFrom_eq (m : Mem) (c : UInt8) (fuel p : Nat) :
    InMemory.strchrFrom m c fuel p = strstrFrom m [c] fuel p := by
  induction fuel generalizing p with
  | zero => rfl
  | succ fuel ih =>
    have hstart : startsWith m p [c] = true ↔ char m p = c := by
      rw [startsWith, startsWith, Bool.and_true, beq_iff_eq]
    simp only [InMemory.strchrFrom, strstrFrom, hstart, ih, ne_eq, ite_not]

theorem strchrFrom_nul (h : Holds m p a) (h0 : 0 ∉ a) (hfuel : a.length < fuel) :
    InMemory.strchrFrom m 0 fuel p = some none := by
  induction a generalizing p fuel with
  | nil =>
    obtain ⟨fuel, rfl⟩ := Nat.exists_eq_succ_of_ne_zero (Nat.ne_of_gt hfuel)
    exact if_neg (not_not.mpr h)
  | cons b a ih =>
    obtain ⟨fuel, rfl⟩ := Nat.exists_eq_succ_of_ne_zero (Nat.ne_zero_of_lt hfuel)
    obtain ⟨hb, h0⟩ := cons_notMem_nul h0
    have hchar : char m p ≠ 0 := by rwa [h.1]
    rw [InMemory.strchrFrom, if_pos hchar, if_neg hchar]
    exact ih h.2 h0 (Nat.lt_of_succ_lt_succ hfuel)

/-- **`strchr` finds the first place of a character** of the string, and returns `NULL` for
every other one. The NUL at the end is none of the string. -/
theorem strchr_finds_first (hs : Holds m p s.bytes) (k : Nat) :
    (InMemory.strchr m p k = some none ↔ UInt8.ofNat k ∉ s.bytes) ∧
    ∀ pre rest, FirstAt [UInt8.ofNat k] s.bytes pre rest →
      InMemory.strchr m p k = some (some (p + pre.length)) := by
  by_cases hk : UInt8.ofNat k = 0
  · have hnull : InMemory.strchr m p k = some none := by
      rw [InMemory.strchr, hk]
      exact strchrFrom_nul hs s.noNul (hs.length_lt s.noNul)
    rw [hnull, hk]
    refine ⟨iff_of_true rfl s.noNul, fun pre rest hf => absurd ?_ s.noNul⟩
    rw [hf.1]
    exact List.mem_append_right pre List.mem_cons_self
  · have hneedle : 0 ∉ [UInt8.ofNat k] := fun hmem => hk (List.mem_singleton.mp hmem).symm
    have hfound : InMemory.strchr m p k = strstr m p [UInt8.ofNat k] := by
      rw [InMemory.strchr, strchrFrom_eq, strstr, if_neg (List.cons_ne_nil _ _)]
    rw [hfound]
    refine ⟨?_, fun pre rest hf => ?_⟩
    · rw [hs.strstr_eq_none_iff s.noNul hneedle (List.cons_ne_nil _ _), List.singleton_infix_iff]
    · exact hs.strstr_first s.noNul hneedle (List.cons_ne_nil _ _) hf

theorem slice_succ (f : Nat → UInt8) (p n : Nat) :
    slice f p (n + 1) = f p :: slice f (p + 1) n := by
  have hfirst : slice f p 1 = [f p] := rfl
  rw [Nat.add_comm n, slice_append, hfirst, List.singleton_append]

theorem Compares.cons {r : Int} (h : Compares r a b) (c : UInt8) :
    Compares r (c :: a) (c :: b) := by
  obtain ⟨hzero, hneg, hpos⟩ := h
  refine ⟨?_, ?_, ?_⟩
  · rw [hzero, List.cons_inj_right]
  · rw [hneg, List.cons_lt_cons_self]
  · rw [hpos, List.cons_lt_cons_self]

/-- The first bytes decide. -/
theorem compares_heads {c c' : UInt8} (hne : c ≠ c') (a b : List UInt8) :
    Compares (c.toNat - c'.toNat) (c :: a) (c' :: b) := by
  have hnum : c.toNat ≠ c'.toNat := fun he => hne (UInt8.toNat_inj.mp he)
  have hlt : c < c' ↔ c.toNat < c'.toNat := UInt8.lt_iff_toNat_lt
  have hgt : c' < c ↔ c'.toNat < c.toNat := UInt8.lt_iff_toNat_lt
  refine ⟨iff_of_false (by omega) fun he => hne (List.cons.inj he).1, ?_, ?_⟩
  · rw [List.cons_lt_cons_iff, or_iff_left fun he => hne he.1, hlt]
    omega
  · rw [List.cons_lt_cons_iff, or_iff_left fun he => hne he.1.symm, hgt]
    omega

/-- **`memcmp` decides the order of two blocks** of any length, as `strcmp` that of two
strings, and whatever stands in them. -/
theorem memcmp_lexicographic (m : Mem) (p q n : Nat) :
    Compares (InMemory.memcmp m p q n) (slice (char m) p n) (slice (char m) q n) := by
  induction n generalizing p q with
  | zero =>
    refine ⟨iff_of_true rfl rfl, iff_of_false ?_ (List.not_lt_nil _),
      iff_of_false ?_ (List.not_lt_nil _)⟩
    · exact Int.lt_irrefl 0
    · exact Int.lt_irrefl 0
  | succ n ih =>
    rw [slice_succ, slice_succ, InMemory.memcmp]
    by_cases hsame : char m p = char m q
    · rw [if_neg (not_not.mpr hsame), hsame]
      exact (ih (p + 1) (q + 1)).cons _
    · rw [if_pos hsame]
      exact compares_heads hsame _ _

end SynapseKernel.Str
