import Mathlib.Algebra.BigOperators.Group.List.Basic
import SynapseKernel.Proc.MmapLoop
import SynapseKernel.Proc.UserUnmap

/-! # Ranges of user memory

`mmap(NULL, ...)` does not look for a free range: it returns `0x80000000` every time.
A run of such requests and of `munmap` keeps the ranges apart and loses no frame as
long as each request meets no other range and enough frames (`RoomFor`). -/
namespace SynapseKernel.Paging
open SynapseKernel.Word SynapseKernel.ByteMemory SynapseKernel.Bitmap SynapseKernel.PageEntry
open SynapseKernel.Runs

/-- A range that `mmap` returned. -/
structure Mapping where
  addr : Nat
  length : Nat
deriving DecidableEq, Repr

def Mapping.Covers (r : Mapping) (a : Nat) : Prop := r.addr ≤ a ∧ a < r.addr + r.length

def Mapping.pages (r : Mapping) : Nat := r.length / pageSize

inductive RangeOp
  | mmap (length prot flags fd offset : Nat)
  | munmap (range : Mapping)

/-- The state, and beside it the ranges returned and not unmapped since. -/
def rangeStep (x : State × List Mapping) : RangeOp → State × List Mapping
  | .mmap length prot flags fd offset =>
    let (base, s) := mmap x.1 0 length prot flags fd offset
    (s, if base = 0 then x.2 else ⟨base, length⟩ :: x.2)
  | .munmap range => ((munmap x.1 range.addr range.length).2, x.2.erase range)

/-- Lengths are whole pages and do not wrap, and what is unmapped is one of the ranges. -/
def Lawful (x : State × List Mapping) : RangeOp → Prop
  | .mmap length _ _ _ _ => length % pageSize = 0 ∧ mmapBase 0 + length ≤ 2 ^ 32
  | .munmap range => range ∈ x.2

instance (s : State) (f : Nat) : Decidable (HoldsStructure s f) :=
  inferInstanceAs (Decidable (_ ∨ ∃ i < pageDirEntries, _ ∧ _))

/-- The frames taken since `s₀` that hold no paging structure. -/
def userFrames (s₀ s : State) : Finset Nat :=
  (Finset.range s.totalFrames).filter fun f =>
    marked s f = true ∧ marked s₀ f = false ∧ ¬ HoldsStructure s f

/-- The ranges do not meet, there are as many frames for user data as they have pages,
and each of these frames is behind an address of a range. -/
structure RangesOk (s₀ : State) (x : State × List Mapping) : Prop where
  disjoint : x.2.Pairwise fun r r' => ∀ a, r.Covers a → ¬ r'.Covers a
  count : (userFrames s₀ x.1).card = (x.2.map Mapping.pages).sum
  held : ∀ f ∈ userFrames s₀ x.1, ∃ r ∈ x.2, ∃ a, r.Covers a ∧
    getPhysicalAddr x.1 a / pageSize = f

/-- An `mmap` that succeeds leaves the translations in the ranges as they are. -/
def Undisturbed (x : State × List Mapping) : RangeOp → Prop
  | .mmap length prot flags fd offset =>
    (mmap x.1 0 length prot flags fd offset).1 ≠ 0 → ∀ r ∈ x.2, ∀ a, r.Covers a →
      getPhysicalAddr (mmap x.1 0 length prot flags fd offset).2 a = getPhysicalAddr x.1 a
  | .munmap _ => True

/-- How many tables are missing for the first `pages` pages from `base` on. -/
def tablesMissing (s : State) (base pages : Nat) : Nat :=
  (((Finset.range pages).image fun i => dirIdx (pageAddr base i)).filter fun k =>
    dirEntry s k &&& pagePresent = 0).card

/-- Nothing is asked for, or there is no frame at all, or no other range has a page and
there are frames for all pages and for the tables they need. -/
def RoomFor (x : State × List Mapping) : RangeOp → Prop
  | .mmap length _ _ _ _ => length = 0 ∨ framesLeft x.1 = 0 ∨
    ((∀ r ∈ x.2, r.length = 0) ∧
      pagesOf length + tablesMissing x.1 (mmapBase 0) (pagesOf length) ≤ framesLeft x.1)
  | .munmap _ => True

variable {s₀ s s' : State} {d f t addr prot : Nat} {own : Use → Option Nat} {u : Use}
  {tbl : Nat → Option Nat}

/-! ## The pages from `0x80000000` on -/

/-- The page at `0x80000000`. -/
abbrev firstPage : Nat := 2 ^ 19

theorem roundPages_firstPage {n p : Nat} (hn : n ≤ 2 ^ 19) :
    RoundPages 0x80000000 0 (0 + n) p ↔ firstPage ≤ p ∧ p < firstPage + n := by
  have hpage : ∀ i < 2 ^ 19, pageNumber 0x80000000 i = firstPage + i := by
    intro i hi
    rw [pageNumber_eq]
    simp only [firstPage]
    omega
  constructor
  · rintro ⟨k, -, hk, rfl⟩
    rw [hpage k (by omega)]
    omega
  · rintro ⟨hlow, hhigh⟩
    refine ⟨p - firstPage, Nat.zero_le _, by omega, ?_⟩
    rw [hpage _ (by omega)]
    omega

/-! ## What the condition says -/

theorem UserInv.tablesMissing_eq (h : UserInv s d own) (base n : Nat) :
    tablesMissing s base n = (lackingTables own base 0 n).card := by
  refine congrArg Finset.card (Finset.ext fun k => ?_)
  rw [mem_lackingTables, Finset.mem_filter, Finset.mem_image]
  have hdir : ∀ i, dirIdx (pageAddr base i) = pageNumber base i / 1024 := fun i => dirIdx_eq _
  have hlt : ∀ i, pageNumber base i / 1024 < 1024 := by
    intro i
    have hpage := pageNumber_lt base i
    omega
  constructor
  · rintro ⟨⟨i, hi, rfl⟩, habsent⟩
    rw [hdir] at habsent ⊢
    exact ⟨⟨_, ⟨i, Nat.zero_le i, Finset.mem_range.mp hi, rfl⟩, rfl⟩,
      (h.absent_iff (hlt i)).mp habsent⟩
  · rintro ⟨⟨p, ⟨i, -, hi, rfl⟩, rfl⟩, hnone⟩
    exact ⟨⟨i, Finset.mem_range.mpr hi, hdir i⟩, (h.absent_iff (hlt i)).mpr hnone⟩

theorem pagesOf_eq {length : Nat} (hl : length % 4096 = 0) (hle : length ≤ 2 ^ 31) :
    pagesOf length = length / 4096 := by
  have hlt : length + pageSize - 1 < 2 ^ 32 := by
    simp only [pageSize]
    omega
  rw [pagesOf, u32_of_lt hlt]
  simp only [pageSize]
  omega

/-! ## The frames of the users -/

theorem UserInv.holdsStructure_iff (h : UserInv s d own) :
    HoldsStructure s f ↔ f = d ∨ ∃ i < 1024, own (.table i) = some f := by
  have hdir : s.kernelPageDir / pageSize = d := by
    rw [h.pageDir, Nat.mul_div_cancel d (by decide)]
  rw [HoldsStructure, hdir]
  refine or_congr_right (exists_congr fun i => and_congr_right fun hi => ?_)
  have hd := h.dirs i hi
  rw [h.absent_iff hi, dirEntry_eq h.pageDir, tableOf, land_page (frameWord_lt _ _ _),
    Nat.mul_div_cancel _ (by decide)]
  cases ht : own (.table i) with
  | none => exact iff_of_false (fun hno => hno.1 rfl) (Option.some_ne_none f).symm
  | some t =>
    rw [ht] at hd
    have hframe : frameWord s.mem d i / 4096 = t := hd.1
    rw [hframe, Option.some.injEq]
    exact and_iff_right (Option.some_ne_none t)

/-- The frames for user data are those of the pages. -/
theorem UserInv.mem_userFrames (h : UserInv s d own) (hh : HandedOut s₀ s own)
    (h₀ : PagingReady s₀ d tbl) : f ∈ userFrames s₀ s ↔ ∃ p, own (.page p) = some f := by
  rw [userFrames, Finset.mem_filter, Finset.mem_range, h.total, h.holdsStructure_iff]
  constructor
  · rintro ⟨hlt, hm, hm₀, hstruct⟩
    obtain ⟨u, hu⟩ := ((hh.marks f hlt).mp hm).resolve_left (by
      rw [hm₀]
      exact Bool.false_ne_true)
    have hreserved : ∀ g, marked s₀ g = true → f ≠ g := by
      rintro g hg rfl
      rw [hm₀] at hg
      cases hg
    cases u with
    | null => exact absurd (Option.some.inj (hu.symm.trans h.null)) (hreserved 0 h₀.reserved.1)
    | directory =>
      exact absurd (.inl (Option.some.inj (hu.symm.trans h.directory))) hstruct
    | bitmap =>
      exact absurd (Option.some.inj (hu.symm.trans h.bitmap)) (hreserved 256 h₀.reserved.2)
    | table i => exact absurd (.inr ⟨i, h.low i f hu, hu⟩) hstruct
    | page p => exact ⟨p, hu⟩
  · rintro ⟨p, hp⟩
    obtain ⟨hlt, hm⟩ := h.owns.inUse _ _ hp
    refine ⟨hlt, hm, hh.fresh p f hp, ?_⟩
    rintro (rfl | ⟨i, -, hi⟩)
    · exact h.owns.ne hp h.directory (by simp) rfl
    · exact h.owns.ne hp hi (by simp) rfl

/-- With the users' pages in a row the frames are as many as the pages. -/
theorem UserInv.card_userFrames (h : UserInv s d own) (hh : HandedOut s₀ s own)
    (h₀ : PagingReady s₀ d tbl) {n : Nat}
    (hpages : ∀ p, own (.page p) ≠ none ↔ firstPage ≤ p ∧ p < firstPage + n) :
    (userFrames s₀ s).card = n := by
  have himage : userFrames s₀ s =
      (Finset.Ico firstPage (firstPage + n)).image fun p => (own (.page p)).getD 0 := by
    ext f
    rw [h.mem_userFrames hh h₀, Finset.mem_image]
    constructor
    · rintro ⟨p, hp⟩
      refine ⟨p, Finset.mem_Ico.mpr ((hpages p).mp ?_), ?_⟩
      · rw [hp]
        exact Option.some_ne_none f
      · rw [hp, Option.getD_some]
    · rintro ⟨p, hp, rfl⟩
      obtain ⟨g, hg⟩ := Option.ne_none_iff_exists'.mp ((hpages p).mpr (Finset.mem_Ico.mp hp))
      exact ⟨p, by rw [hg, Option.getD_some]⟩
  rw [himage, Finset.card_image_of_injOn, Nat.card_Ico, Nat.add_sub_cancel_left]
  intro p hp q hq heq
  obtain ⟨f, hf⟩ := Option.ne_none_iff_exists'.mp ((hpages p).mpr (Finset.mem_Ico.mp hp))
  obtain ⟨g, hg⟩ := Option.ne_none_iff_exists'.mp ((hpages q).mpr (Finset.mem_Ico.mp hq))
  simp only [hf, hg, Option.getD_some] at heq
  exact Use.page.inj (h.owns.injective _ _ f hf (heq ▸ hg))

/-! ## Runs -/

variable {x : State × List Mapping} {n : Nat}

structure RangesInv (s₀ : State) (d : Nat) (x : State × List Mapping) (own : Use → Option Nat)
    (n : Nat) : Prop where
  inv : UserInv x.1 d own
  handed : HandedOut s₀ x.1 own
  pages : ∀ p, own (.page p) ≠ none ↔ firstPage ≤ p ∧ p < firstPage + n
  le : n ≤ 2 ^ 19
  ranges : ∀ r ∈ x.2, r.addr = 0x80000000 ∧ r.length % 4096 = 0
  single : x.2.Pairwise fun r r' => r.length = 0 ∨ r'.length = 0
  total : (x.2.map Mapping.pages).sum = n

/-- Of ranges of which one at most has a page, each has none or all. -/
theorem pages_of_single {l : List Mapping} (hs : l.Pairwise fun r r' => r.length = 0 ∨ r'.length = 0)
    {r : Mapping} (hr : r ∈ l) : r.pages = 0 ∨ r.pages = (l.map Mapping.pages).sum := by
  have hzero : ∀ r : Mapping, r.length = 0 → r.pages = 0 := by
    intro r h0
    rw [Mapping.pages, h0, Nat.zero_div]
  induction l with
  | nil => cases hr
  | cons a l ih =>
    obtain ⟨ha, hl⟩ := List.pairwise_cons.mp hs
    rw [List.map_cons, List.sum_cons]
    rcases List.mem_cons.mp hr with rfl | hr
    · by_cases h0 : r.length = 0
      · exact .inl (hzero r h0)
      · have hrest : (l.map Mapping.pages).sum = 0 := by
          refine List.sum_eq_zero fun k hk => ?_
          obtain ⟨b, hb, rfl⟩ := List.mem_map.mp hk
          exact hzero b ((ha b hb).resolve_left h0)
        rw [hrest]
        exact .inr rfl
    · rcases ha r hr with h0 | h0
      · rw [hzero a h0, Nat.zero_add]
        exact ih hl hr
      · exact .inl (hzero r h0)

theorem RangesInv.ok (h : RangesInv s₀ d x own n) (h₀ : PagingReady s₀ d tbl) : RangesOk s₀ x := by
  refine ⟨h.single.imp fun {r r'} hrr a hr hr' => ?_, ?_, fun f hf => ?_⟩
  · rcases hrr with h0 | h0
    · have := hr.2
      have := hr.1
      omega
    · have := hr'.2
      have := hr'.1
      omega
  · rw [h.inv.card_userFrames h.handed h₀ h.pages, h.total]
  · obtain ⟨p, hp⟩ := (h.inv.mem_userFrames h.handed h₀).mp hf
    obtain ⟨hlow, hhigh⟩ := (h.pages p).mp (by
      rw [hp]
      exact Option.some_ne_none f)
    have hpos : 0 < (x.2.map Mapping.pages).sum := by
      rw [h.total]
      omega
    obtain ⟨k, hk, hk0⟩ : ∃ k ∈ x.2.map Mapping.pages, k ≠ 0 := by
      by_contra hno
      rw [List.sum_eq_zero fun k hk => not_not.mp fun h0 => hno ⟨k, hk, h0⟩] at hpos
      exact absurd hpos (Nat.lt_irrefl 0)
    obtain ⟨r, hr, rfl⟩ := List.mem_map.mp hk
    have hall := (pages_of_single h.single hr).resolve_left hk0
    obtain ⟨haddr, hlength⟩ := h.ranges r hr
    rw [h.total, Mapping.pages] at hall
    have hle := h.le
    simp only [firstPage, pageSize] at hlow hhigh hall
    have ha : p * 4096 < 2 ^ 32 := by omega
    have hpage : p * 4096 / 4096 = p := Nat.mul_div_cancel p (by decide)
    refine ⟨r, hr, p * 4096, ⟨?_, ?_⟩, ?_⟩
    · rw [haddr]
      omega
    · rw [haddr]
      omega
    · rw [h.inv.getPhysicalAddr ha (by rw [hpage]; exact hp), Nat.mul_mod_left, Nat.add_zero]
      exact Nat.mul_div_cancel f (by decide)

/-- A range without pages, or without a frame for its first page, changes nothing. -/
theorem mmapFrom_nothing (h : pagesOf t = 0 ∨ framesLeft s = 0) :
    mmapFrom 0x80000000 prot (pagesOf t) 0 s = (decide (pagesOf t = 0), s) := by
  rcases h with h0 | hfull
  · rw [h0]
    rfl
  · exact mmapFrom_full hfull _ _ _ _

theorem rangeStep_mmap {length flags fd offset : Nat} {loop : Bool × State} {live : List Mapping}
    (h : mmapFrom 0x80000000 prot (pagesOf length) 0 s = loop) :
    rangeStep (s, live) (.mmap length prot flags fd offset) =
      if loop.1 then (loop.2, ⟨0x80000000, length⟩ :: live) else (loop.2, live) := by
  simp only [rangeStep, @mmap_of_loop s 0 length prot flags fd offset _ h]
  cases loop.1 <;> rfl

/-- Where nothing is asked for, or there is no frame, everything stays. -/
theorem RangesInv.mmap_nothing {live : List Mapping} (h : RangesInv s₀ d (s, live) own n)
    {length flags fd offset : Nat} (hmod : length % 4096 = 0)
    (hpages : pagesOf length = length / 4096) (hno : pagesOf length = 0 ∨ framesLeft s = 0) :
    (∃ own' n', RangesInv s₀ d (rangeStep (s, live) (.mmap length prot flags fd offset)) own' n') ∧
      Undisturbed (s, live) (.mmap length prot flags fd offset) := by
  have hloop := @mmapFrom_nothing s length prot hno
  have hmap := @mmap_of_loop s 0 length prot flags fd offset _ hloop
  rw [rangeStep_mmap hloop]
  by_cases h0 : pagesOf length = 0
  · have hlength : length = 0 := by omega
    simp only [h0, decide_true, if_true]
    refine ⟨⟨own, n, h.inv, h.handed, h.pages, h.le,
      List.forall_mem_cons.mpr ⟨⟨rfl, hmod⟩, h.ranges⟩,
      List.pairwise_cons.mpr ⟨fun _ _ => .inl hlength, h.single⟩, ?_⟩, fun _ r _ a _ => ?_⟩
    · rw [List.map_cons, List.sum_cons, Mapping.pages, hlength, Nat.zero_div, Nat.zero_add]
      exact h.total
    · simp only [hmap, h0, decide_true, if_true]
  · simp only [h0, decide_false, Bool.false_eq_true, if_false]
    refine ⟨⟨own, n, h⟩, fun hne => absurd ?_ hne⟩
    simp only [hmap, h0, decide_false, Bool.false_eq_true, if_false]

/-- Where no other range has a page and there are frames, all pages are mapped. -/
theorem RangesInv.mmap_mapped {live : List Mapping} (h : RangesInv s₀ d (s, live) own n)
    {length flags fd offset : Nat} (hmod : length % 4096 = 0) (hle : length ≤ 2 ^ 31)
    (hpages : pagesOf length = length / 4096) (hempty : ∀ r ∈ live, r.length = 0)
    (hleft : pagesOf length + tablesMissing s 0x80000000 (pagesOf length) ≤ framesLeft s) :
    (∃ own' n', RangesInv s₀ d (rangeStep (s, live) (.mmap length prot flags fd offset)) own' n') ∧
      Undisturbed (s, live) (.mmap length prot flags fd offset) := by
  have hzero : n = 0 := by
    rw [← h.total]
    refine List.sum_eq_zero fun k hk => ?_
    obtain ⟨r, hr, rfl⟩ := List.mem_map.mp hk
    rw [Mapping.pages, hempty r hr, Nat.zero_div]
  have hin : pagesOf length ≤ 2 ^ 19 := by omega
  have hnone : ∀ p, own (.page p) = none := by
    intro p
    by_contra hne
    have := (h.pages p).mp hne
    omega
  rw [h.inv.tablesMissing_eq, ← Nat.zero_add (pagesOf length)] at hleft
  obtain ⟨s', own', hloop, hmapped⟩ := h.inv.mmapFrom (pagesOf length) 0 (by omega)
    (fun _ _ _ => hnone _) (by rw [Nat.zero_add] at hleft ⊢; exact hleft)
  rw [rangeStep_mmap hloop, if_pos rfl]
  refine ⟨⟨own', pagesOf length, ?_⟩, fun _ r hr a ha => ?_⟩
  · refine ⟨hmapped.inv, hmapped.handed _ h.handed, fun p => ?_, hin,
      List.forall_mem_cons.mpr ⟨⟨rfl, hmod⟩, h.ranges⟩,
      List.pairwise_cons.mpr ⟨fun r hr => .inr (hempty r hr), h.single⟩, ?_⟩
    · rw [hmapped.pages p, roundPages_firstPage hin, or_iff_right (not_not_intro (hnone p))]
    · rw [List.map_cons, List.sum_cons, h.total, hzero, hpages]
      rfl
  · have := hempty r hr
    have := ha.1
    have := ha.2
    omega

theorem RangesInv.mmap (h : RangesInv s₀ d x own n) {length flags fd offset : Nat}
    (hl : Lawful x (.mmap length prot flags fd offset))
    (hroom : RoomFor x (.mmap length prot flags fd offset)) :
    (∃ own' n', RangesInv s₀ d (rangeStep x (.mmap length prot flags fd offset)) own' n') ∧
      Undisturbed x (.mmap length prot flags fd offset) := by
  obtain ⟨s, live⟩ := x
  obtain ⟨hmod, hwrap⟩ : length % 4096 = 0 ∧ mmapBase 0 + length ≤ 2 ^ 32 := hl
  have hle : length ≤ 2 ^ 31 := by
    simp only [mmapBase, if_true] at hwrap
    omega
  have hpages := pagesOf_eq hmod hle
  rcases hroom with h0 | hfull | ⟨hempty, hleft⟩
  · exact h.mmap_nothing hmod hpages (.inl (by omega))
  · exact h.mmap_nothing hmod hpages (.inr hfull)
  · rw [mmapBase, if_pos rfl] at hleft
    exact h.mmap_mapped hmod hle hpages hempty hleft

theorem RangesInv.munmap (h : RangesInv s₀ d x own n) {range : Mapping} (hr : range ∈ x.2) :
    ∃ own' n', RangesInv s₀ d (rangeStep x (.munmap range)) own' n' := by
  obtain ⟨s, live⟩ := x
  obtain ⟨haddr, hmod⟩ := h.ranges range hr
  have hperm := List.perm_cons_erase hr
  have htotal := (hperm.map Mapping.pages).sum_nat
  have hpart := pages_of_single h.single hr
  rw [List.map_cons, List.sum_cons, h.total] at htotal
  rw [h.total] at hpart
  have hrest : ((live.erase range).map Mapping.pages).sum = n - range.pages :=
    (Nat.sub_eq_of_eq_add' htotal).symm
  have hle := h.le
  have hlength : range.length ≤ 2 ^ 31 := by
    have hpages : range.pages = range.length / 4096 := rfl
    omega
  have hpages : pagesOf range.length = range.pages := pagesOf_eq hmod hlength
  have hin : range.pages ≤ 2 ^ 19 := by omega
  have hmapped : ∀ r, 0 ≤ r → r < 0 + range.pages →
      own (.page (pageNumber 0x80000000 r)) ≠ none := by
    intro r h0 hr
    have hround := (roundPages_firstPage hin).mp ⟨r, h0, hr, rfl⟩
    exact (h.pages _).mpr (by omega)
  obtain ⟨own', hunmapped⟩ := h.inv.munmapFrom range.pages 0 (by omega) hmapped
  have hstep : rangeStep (s, live) (.munmap range) =
      (munmapFrom 0x80000000 range.pages 0 s, live.erase range) := by
    rw [rangeStep, munmap, haddr, hpages]
  refine ⟨own', n - range.pages, ?_⟩
  rw [hstep]
  refine ⟨hunmapped.inv, hunmapped.handed _ h.handed, fun p => ?_, by omega,
    fun r hr' => h.ranges r (List.mem_of_mem_erase hr'), h.single.sublist List.erase_sublist,
    hrest⟩
  rw [hunmapped.pages p, h.pages p, roundPages_firstPage hin]
  omega

/-- **Ranges of user memory.** From any state in which the paging structures are in
order, in every run of `mmap(NULL, ...)` with whole pages and of `munmap` of ranges it
returned, in which every request finds room: the ranges never meet, a request leaves
the translations in the others alone, and no frame is lost. -/
theorem rangesOk_of_roomFor (h₀ : PagingReady s₀ d tbl) (ops : List RangeOp)
    (hlawful : Guarded rangeStep Lawful (s₀, []) ops)
    (hroom : Guarded rangeStep RoomFor (s₀, []) ops) :
    Always rangeStep (RangesOk s₀) (s₀, []) ops ∧
      Guarded rangeStep Undisturbed (s₀, []) ops := by
  have hinit : ∃ own n, RangesInv s₀ d (s₀, []) own n := by
    obtain ⟨hinv, hh⟩ := h₀.inv
    refine ⟨_, 0, hinv, hh, fun p => ?_, Nat.zero_le _, fun r hr => ?_, .nil, rfl⟩
    · refine iff_of_false (fun hne => hne rfl) ?_
      omega
    · cases hr
  have hstep : ∀ x op, (∃ own n, RangesInv s₀ d x own n) → Lawful x op ∧ RoomFor x op →
      ∃ own n, RangesInv s₀ d (rangeStep x op) own n := by
    rintro x op ⟨own, n, h⟩ ⟨hl, hr⟩
    cases op with
    | mmap length prot flags fd offset => exact (h.mmap hl hr).1
    | munmap range => exact h.munmap hl
  refine ⟨(hlawful.and hroom).always (fun x => ∃ own n, RangesInv s₀ d x own n)
    (fun _ ⟨_, _, h⟩ => h.ok h₀) hstep hinit, ?_⟩
  refine (hlawful.and hroom).imp (fun x => ∃ own n, RangesInv s₀ d x own n) hstep ?_ hinit
  rintro x op ⟨own, n, h⟩ ⟨hl, hr⟩
  cases op with
  | mmap length prot flags fd offset => exact (h.mmap hl hr).2
  | munmap range => trivial

/-! ## The second range -/

theorem lowestClear_freshPaging : LowestClear freshPaging 1 ∧
    LowestClear (takeFrame freshPaging 1) 2 := by
  refine ⟨⟨by decide, ?_, fun j hj => ?_⟩, ⟨by decide, ?_, fun j hj => ?_⟩⟩
  · rw [marked_freshPaging]
    decide
  · rw [marked_freshPaging]
    exact decide_eq_true (by omega)
  · rw [marked_takeFrame, marked_freshPaging]
    decide
  · rw [marked_takeFrame, marked_freshPaging, ← Bool.decide_or]
    exact decide_eq_true (by omega)

/-- With a page, and a range of length 0 after it. -/
theorem rangesOk_of_roomFor_one :
    Always rangeStep (RangesOk freshPaging) (freshPaging, []) [.mmap 4096 3 0 0 0, .mmap 0 3 0 0 0] ∧
      Guarded rangeStep Undisturbed (freshPaging, [])
        [.mmap 4096 3 0 0 0, .mmap 0 3 0 0 0] := by
  have hone : pagesOf 4096 = 1 := by decide
  have hframes : 2 ≤ framesLeft freshPaging := by
    have hsub : ({1, 2} : Finset Nat) ⊆ clearFrames freshPaging := by
      intro f hf
      rw [Finset.mem_insert, Finset.mem_singleton] at hf
      rw [mem_clearFrames, marked_freshPaging]
      exact ⟨by simp only [freshPaging]; omega, decide_eq_false (by omega)⟩
    exact Finset.card_le_card hsub
  have htables : tablesMissing freshPaging (mmapBase 0) (pagesOf 4096) ≤ 1 := by
    rw [tablesMissing, hone]
    refine Nat.le_trans (Finset.card_filter_le _ _) (Finset.card_image_le.trans ?_)
    rw [Finset.card_range]
  refine rangesOk_of_roomFor freshDirectory_freshPaging.ready _
    ⟨⟨by decide, by decide⟩, ⟨by decide, by decide⟩, trivial⟩
    ⟨.inr (.inr ⟨fun r hr => absurd hr List.not_mem_nil, ?_⟩), .inl rfl, trivial⟩
  rw [hone] at htables ⊢
  exact Nat.le_trans (Nat.add_le_add_left htables 1) hframes

theorem mmap_one (hf : LowestClear s f) (h0 : f ≠ 0) (hlt : f < 32768) (live : List Mapping) :
    rangeStep (s, live) (.mmap 4096 prot 0 0 0) =
      (mapPage (takeFrame s f) 0x80000000 (f * 4096) (pageFlags prot),
        ⟨0x80000000, 4096⟩ :: live) := by
  have hphys : u32 (f * pageSize) = f * 4096 := u32_of_lt (by simp only [pageSize]; omega)
  have hpage : pageAddr 0x80000000 0 = 0x80000000 := by decide
  have hloop : mmapFrom 0x80000000 prot (pagesOf 4096) 0 s =
      (true, mapPage (takeFrame s f) 0x80000000 (f * 4096) (pageFlags prot)) := by
    have hone : pagesOf 4096 = 1 := by decide
    rw [hone, mmapFrom, hf.allocFrame]
    simp only [if_neg h0, hphys, hpage, mmapFrom]
  have hmap := @mmap_of_loop s 0 4096 prot 0 0 0 _ hloop
  simp only [rangeStep, hmap, if_true]
  rfl

/-- Two pages in a row are both mapped at `0x80000000`. -/
theorem not_rangesOk_two :
    ¬ Always rangeStep (RangesOk freshPaging) (freshPaging, [])
      [.mmap 4096 3 0 0 0, .mmap 4096 3 0 0 0] := by
  obtain ⟨hinv, -⟩ := freshDirectory_freshPaging.ready.inv
  obtain ⟨hf, hc⟩ := lowestClear_freshPaging
  obtain ⟨hinv', hmark⟩ := @UserInv.mapPage_new _ 257 1 2 0x80000000 (pageFlags 3) _ hinv (by decide)
    (pageFlags_lt 3) rfl hf hc
  set s := mapPage (takeFrame freshPaging 1) 0x80000000 (1 * 4096) (pageFlags 3)
  have hthird : LowestClear s 3 := by
    refine ⟨?_, ?_, fun j hj => ?_⟩
    · rw [hinv'.total]
      decide
    · rw [hmark 3 (by decide), marked_freshPaging]
      decide
    · rw [hmark j (by omega), marked_freshPaging, ← Bool.decide_or, ← Bool.decide_or]
      exact decide_eq_true (by omega)
  intro h
  have hlast : RangesOk freshPaging
      (rangeStep (rangeStep (freshPaging, []) (.mmap 4096 3 0 0 0)) (.mmap 4096 3 0 0 0)) := h.2.2
  rw [mmap_one hf (by decide) (by decide), mmap_one hthird (by decide) (by decide)] at hlast
  have hcovers : Mapping.Covers ⟨0x80000000, 4096⟩ 0x80000000 := ⟨by decide, by decide⟩
  exact (List.pairwise_cons.mp hlast.disjoint).1 _ List.mem_cons_self _ hcovers hcovers

end SynapseKernel.Paging
