import SynapseKernel.Proc.MmapLoop

/-! # `munmap` undoes `mmap`

Where a range has its tables and none of its pages is mapped, `munmap` after `mmap`
restores the bitmap, the counter and the entries: a round frees its frame twice, and
the second time the bit is clear already. -/
namespace SynapseKernel.Paging
open SynapseKernel.Word SynapseKernel.PageEntry

/-- The bitmap, the counter, the directory and the entries of all tables are the same. -/
structure SamePaging (s s' : State) : Prop where
  marks : ∀ f < s.totalFrames, marked s' f = marked s f
  used : s'.usedFrames = s.usedFrames
  dirs : ∀ i < pageDirEntries, dirEntry s' i = dirEntry s i
  entries : ∀ a < 2 ^ 32, ¬ (dirEntry s (dirIdx a) &&& pagePresent = 0) →
    pageEntry s' a = pageEntry s a

theorem SamePaging.refl (s : State) : SamePaging s s :=
  ⟨fun _ _ => rfl, rfl, fun _ _ => rfl, fun _ _ _ => rfl⟩

variable {s s₁ s₂ : State} {d addr base length prot flags fd offset n : Nat}
  {tbl : Nat → Option Nat} {own own₁ own₂ : Use → Option Nat}

/-- Every page of the range has a table and no entry. -/
def RangeVacant (own : Use → Option Nat) (s : State) (base n : Nat) : Prop :=
  ∀ r < n, own (.table (pageNumber base r / 1024)) ≠ none ∧ entryWord own s (pageNumber base r) = 0

/-- Addresses in the range speak for its pages. -/
theorem UserInv.rangeVacant (h : UserInv s d own) (hwrap : base + length ≤ 2 ^ 32)
    (hdirs : ∀ a, base ≤ a → a < base + length → ¬ (dirEntry s (dirIdx a) &&& pagePresent = 0))
    (hempty : ∀ a, base ≤ a → a < base + length → pageEntry s a = 0) :
    RangeVacant own s base (pagesOf length) := by
  intro r hr
  have hin : r * 4096 < length := by
    rw [pagesOf, u32] at hr
    simp only [pageSize] at hr
    omega
  have haddr : pageAddr base r = base + r * 4096 := u32_of_lt (by simp only [pageSize]; omega)
  have hdir := hdirs (pageAddr base r) (by omega) (by omega)
  have ha := pageAddr_lt base r
  rw [dirIdx_eq, h.absent_iff (by omega)] at hdir
  refine ⟨hdir, ?_⟩
  have hentry := hempty (pageAddr base r) (by omega) (by omega)
  rw [h.pageEntry_eq ha hdir] at hentry
  exact hentry

theorem RangeVacant.lacking (h : RangeVacant own s base n) : lackingTables own base 0 n = ∅ := by
  refine Finset.eq_empty_of_forall_notMem fun k hk => ?_
  obtain ⟨⟨p, ⟨r, -, hr, rfl⟩, rfl⟩, hnone⟩ := mem_lackingTables.mp hk
  exact (h r hr).1 hnone

/-- No table is made, and what is mapped is unmapped: each frame has the owner it had. -/
theorem RangeVacant.own_eq (hv : RangeVacant own s base n) (h : UserInv s d own)
    (hnone : ∀ p, own (.page p) = none)
    (hm : Mapped s s₁ d own own₁ (RoundPages base 0 n) n)
    (hu : Unmapped s₁ s₂ d own₁ own₂ (RoundPages base 0 n) n) : own₂ = own := by
  funext u
  cases u with
  | null => rw [hu.inv.null, h.null]
  | directory => rw [hu.inv.directory, h.directory]
  | bitmap => rw [hu.inv.bitmap, h.bitmap]
  | table i =>
    rw [hu.tables i]
    cases ht : own (.table i) with
    | some t => exact hm.kept i t ht
    | none =>
      by_contra hne
      rcases (hm.tables i).mp hne with hold | ⟨p, ⟨r, -, hr, rfl⟩, rfl⟩
      · exact hold ht
      · exact (hv r hr).1 ht
  | page p =>
    rw [hnone p]
    by_contra hne
    obtain ⟨hne₁, hno⟩ := (hu.pages p).mp hne
    exact ((hm.pages p).mp hne₁).elim (fun hold => hold (hnone p)) hno

/-- Mapping a vacant range and unmapping it leaves everything as it was. -/
theorem RangeVacant.samePaging (hv : RangeVacant own s base n) (h : UserInv s d own)
    (hh : HandedOut s s own) (hused : s.usedFrames < 2 ^ 32) (hnone : ∀ p, own (.page p) = none)
    (hm : Mapped s s₁ d own own₁ (RoundPages base 0 n) n)
    (hu : Unmapped s₁ s₂ d own₁ own₂ (RoundPages base 0 n) n) : SamePaging s s₂ := by
  have hdirs : ∀ i < 1024, frameWord s₂.mem d i = frameWord s.mem d i := by
    intro i hi
    rw [hu.dirs i hi]
    refine hm.dirs i hi fun ht p ⟨r, _, hr, hrp⟩ hpi => ?_
    rw [← hpi, ← hrp] at ht
    exact (hv r hr).1 ht
  have hhand := hu.handed _ (hm.handed _ hh)
  obtain rfl := hv.own_eq h hnone hm hu
  refine ⟨fun f hf => ?_, ?_, fun i hi => ?_, fun a ha hdir => ?_⟩
  · rw [h.total] at hf
    exact Bool.eq_iff_iff.mpr ((hhand.marks f hf).trans (hh.marks f hf).symm)
  · rw [hu.used _ (hm.taken.used hused), u32_of_lt hused]
  · rw [dirEntry_eq hu.inv.pageDir, dirEntry_eq h.pageDir, hdirs i hi]
  · rw [dirIdx_eq, h.absent_iff (by omega)] at hdir
    rw [hu.inv.pageEntry_eq ha hdir, h.pageEntry_eq ha hdir]
    have hp : a / 4096 < 2 ^ 20 := by omega
    by_cases hr : RoundPages base 0 n (a / 4096)
    · rw [hu.gone _ hp hr]
      obtain ⟨r, -, hr, hrp⟩ := hr
      rw [← hrp, (hv r hr).2]
    · rw [hu.entries _ hp hr, hm.entries _ hp hr]

/-- **`munmap` undoes `mmap`.** Where all directory entries for the range are present and
all its page entries are 0, unmapping what `mmap` mapped restores the bitmap, the counter
and every entry. -/
theorem munmap_undoes_mmap (h : PagingReady s d tbl) (hused : s.usedFrames < 2 ^ 32)
    (hwrap : mmapBase addr + length ≤ 2 ^ 32)
    (hdirs : ∀ a, mmapBase addr ≤ a → a < mmapBase addr + length →
      ¬ (dirEntry s (dirIdx a) &&& pagePresent = 0))
    (hempty : ∀ a, mmapBase addr ≤ a → a < mmapBase addr + length → pageEntry s a = 0)
    (hmap : (mmap s addr length prot flags fd offset).1 ≠ 0) :
    SamePaging s (munmap (mmap s addr length prot flags fd offset).2
      (mmap s addr length prot flags fd offset).1 length).2 := by
  obtain ⟨hinv, hh⟩ := h.inv
  have hv := hinv.rangeVacant hwrap hdirs hempty
  have hn := pagesOf_lt length
  have hlack := hv.lacking
  rw [← Nat.zero_add (pagesOf length)] at hlack
  by_cases hleft : pagesOf length ≤ framesLeft s
  · obtain ⟨s₁, own₁, hloop, hm⟩ := @UserInv.mmapFrom _ _ (mmapBase addr) prot _ hinv
      (pagesOf length) 0 (Nat.le_of_lt hn) (fun _ _ _ => rfl)
      (by rw [hlack, Finset.card_empty]; exact hleft)
    rw [hlack, Finset.card_empty, Nat.add_zero, Nat.zero_add] at hm
    obtain ⟨own₂, hu⟩ := hm.inv.munmapFrom (pagesOf length) 0 (Nat.le_of_lt hn)
      fun r _ hr => (hm.pages _).mpr (.inr ⟨r, Nat.zero_le r, by omega, rfl⟩)
    rw [Nat.zero_add] at hu
    rw [mmap_of_loop hloop]
    exact hv.samePaging hinv hh hused (fun _ => rfl) hm hu
  · obtain ⟨s', own', done, hloop, -, -, hdone, -⟩ := @UserInv.mmapFrom_short _ _ (mmapBase addr)
      prot _ hinv (pagesOf length) 0 (Nat.le_of_lt hn) (fun _ _ _ => rfl)
      (by rw [hlack, Finset.card_empty]; exact Nat.lt_of_not_le hleft)
    rw [mmap_of_loop hloop] at hmap
    cases done with
    | true =>
      have hle := hdone.mp rfl
      omega
    | false => exact absurd rfl hmap

/-! ## A page at `0x80000000` -/

/-- A fresh directory with a table for `0x80000000`, in frame 1. -/
def tablePaging : State := withTable freshPaging 257 1 512 7

def tableOwners : Use → Option Nat :=
  Function.update (readyOwners 257 fun _ => none) (.table 512) (some 1)

theorem userInv_tablePaging : UserInv tablePaging 257 tableOwners := by
  refine freshDirectory_freshPaging.ready.inv.1.withTable (by decide) (by decide) rfl (by decide) ?_
  rw [marked_freshPaging]
  decide

theorem entryWord_tablePaging (p : Nat) : entryWord tableOwners tablePaging p = 0 := by
  have hclear : marked freshPaging 1 = false := by
    rw [marked_freshPaging]
    decide
  have hnew := freshDirectory_freshPaging.ready.inv.1.entryWord_withTable (i := 512) (by decide) rfl
    (by decide) hclear 7 p
  refine hnew.trans (entryWord_none ?_)
  simp only [readyOwners, ite_self]

theorem lowestClear_tablePaging : LowestClear tablePaging 2 := by
  have hmark : ∀ g < 32768, marked tablePaging g =
      (decide (g = 1) || decide (g = 0 ∨ g = 256 ∨ g = 257)) := by
    intro g hg
    rw [tablePaging, marked_withTable rfl (by decide) (by decide) (by decide) hg,
      marked_freshPaging]
  refine ⟨by decide, ?_, fun j hj => ?_⟩
  · rw [hmark 2 (by decide)]
    decide
  · rw [hmark j (by omega), ← Bool.decide_or]
    exact decide_eq_true (by omega)

theorem munmap_undoes_mmap_page :
    SamePaging tablePaging (munmap (mmap tablePaging 0 4096 3 0 0 0).2
      (mmap tablePaging 0 4096 3 0 0 0).1 4096).2 := by
  have hinv := userInv_tablePaging
  have hbase : mmapBase 0 = 0x80000000 := rfl
  have htable : ∀ a, mmapBase 0 ≤ a → a < mmapBase 0 + 4096 →
      a < 2 ^ 32 ∧ tableOwners (.table (a / 4096 / 1024)) ≠ none := by
    intro a hlow hhigh
    rw [hbase] at hlow hhigh
    have hidx : a / 4096 / 1024 = 512 := by omega
    rw [hidx, tableOwners, Function.update_self]
    exact ⟨by omega, Option.some_ne_none 1⟩
  refine munmap_undoes_mmap hinv.ready (by decide) (by decide) (fun a hlow hhigh => ?_)
    (fun a hlow hhigh => ?_) ?_
  · obtain ⟨ha, ht⟩ := htable a hlow hhigh
    rw [dirIdx_eq, hinv.absent_iff (by omega)]
    exact ht
  · obtain ⟨ha, ht⟩ := htable a hlow hhigh
    rw [hinv.pageEntry_eq ha ht, entryWord_tablePaging]
  · have hpages : pagesOf 4096 = 1 := by decide
    have hloop : (mmapFrom (mmapBase 0) 3 (pagesOf 4096) 0 tablePaging).1 = true := by
      rw [hpages, mmapFrom, lowestClear_tablePaging.allocFrame]
      rfl
    rw [mmap_of_loop rfl, if_pos hloop]
    exact mmapBase_ne_zero 0

end SynapseKernel.Paging
