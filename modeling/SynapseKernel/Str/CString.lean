/-! # Strings of bytes (lib/string.c)

A string is what stands before its terminating NUL, so no byte of it is NUL. -/
namespace SynapseKernel.Str

structure CString where
  bytes : List UInt8
  noNul : 0 ∉ bytes
deriving DecidableEq

/-- The loop of `strcmp`; a string that is used up goes on with its NUL. -/
def strcmpFrom : List UInt8 → List UInt8 → Int
  | [], [] => 0
  | [], b :: _ => 0 - b.toNat
  | a :: _, [] => a.toNat - 0
  | a :: s1, b :: s2 => if a = b then strcmpFrom s1 s2 else a.toNat - b.toNat

def strcmp (s1 s2 : CString) : Int := strcmpFrom s1.bytes s2.bytes

theorem toNat_ne_zero {a : UInt8} {l : List UInt8} (h : 0 ∉ a :: l) : (a.toNat : Int) ≠ 0 := by
  intro ha
  have hzero : a = 0 := UInt8.toNat_inj.mp (Int.ofNat.inj ha)
  exact h (hzero ▸ List.mem_cons_self)

theorem strcmpFrom_eq_zero {s1 s2 : List UInt8} (h1 : 0 ∉ s1) (h2 : 0 ∉ s2) :
    strcmpFrom s1 s2 = 0 ↔ s1 = s2 := by
  induction s1 generalizing s2 with
  | nil =>
    cases s2 with
    | nil => exact ⟨fun _ => rfl, fun _ => rfl⟩
    | cons b s2 =>
      refine ⟨fun he => absurd ?_ (toNat_ne_zero h2), fun he => nomatch he⟩
      rw [strcmpFrom] at he
      omega
  | cons a s1 ih =>
    cases s2 with
    | nil =>
      refine ⟨fun he => absurd ?_ (toNat_ne_zero h1), fun he => nomatch he⟩
      rw [strcmpFrom] at he
      omega
    | cons b s2 =>
      rw [strcmpFrom]
      by_cases hab : a = b
      · rw [if_pos hab, hab, List.cons.injEq, and_iff_right rfl]
        exact ih (fun hm => h1 (List.mem_cons_of_mem _ hm)) fun hm => h2 (List.mem_cons_of_mem _ hm)
      · rw [if_neg hab]
        refine ⟨fun he => absurd ?_ hab, fun he => absurd (List.cons.inj he).1 hab⟩
        have heq : (a.toNat : Int) = b.toNat := by omega
        exact UInt8.toNat_inj.mp (Int.ofNat.inj heq)

/-- **`strcmp` is `0` for equal strings only.** -/
theorem strcmp_eq_zero (s1 s2 : CString) : strcmp s1 s2 = 0 ↔ s1 = s2 := by
  rw [strcmp, strcmpFrom_eq_zero s1.noNul s2.noNul, CString.mk.injEq]

/-- The loop of `strncmp`. -/
def strncmpFrom : List UInt8 → List UInt8 → Nat → Int
  | _, _, 0 => 0
  | [], [], _ + 1 => 0
  | [], b :: _, _ + 1 => 0 - b.toNat
  | a :: _, [], _ + 1 => a.toNat - 0
  | a :: s1, b :: s2, n + 1 => if a = b then strncmpFrom s1 s2 n else a.toNat - b.toNat

def strncmp (s1 s2 : CString) (n : Nat) : Int := strncmpFrom s1.bytes s2.bytes n

theorem strncmpFrom_eq_zero {s1 s2 : List UInt8} (h2 : 0 ∉ s2) :
    strncmpFrom s1 s2 s2.length = 0 ↔ s2 <+: s1 := by
  induction s2 generalizing s1 with
  | nil => exact iff_of_true (by rw [List.length_nil, strncmpFrom]) (List.nil_prefix)
  | cons b s2 ih =>
    cases s1 with
    | nil =>
      refine iff_of_false (fun he => toNat_ne_zero h2 ?_) (fun hp => ?_)
      · rw [List.length_cons, strncmpFrom] at he
        omega
      · exact absurd (List.prefix_nil.mp hp) (List.cons_ne_nil _ _)
    | cons a s1 =>
      rw [List.length_cons, strncmpFrom, List.cons_prefix_cons]
      by_cases hab : a = b
      · rw [if_pos hab, hab, and_iff_right rfl]
        exact ih fun hm => h2 (List.mem_cons_of_mem _ hm)
      · rw [if_neg hab]
        refine iff_of_false (fun he => hab ?_) (fun hp => hab hp.1.symm)
        have heq : (a.toNat : Int) = b.toNat := by omega
        exact UInt8.toNat_inj.mp (Int.ofNat.inj heq)

/-- **`strncmp` over the length of a string** is `0` for a prefix only. -/
theorem strncmp_eq_zero (s1 s2 : CString) :
    strncmp s1 s2 s2.bytes.length = 0 ↔ s2.bytes <+: s1.bytes := strncmpFrom_eq_zero s2.noNul

end SynapseKernel.Str
