import SynapseKernel.Proc.MmapRanges
import SynapseKernel.Proc.MmapUndo

/-! # What `mmap` leaves behind when it fails

When `alloc_frame` finds no frame `mmap` returns `NULL` and keeps the frames it took.
So a failure leaves no trace only if there was no frame to take. The states are those in
which the paging structures are in frames of their own (`PagingApart`); unlike in
`PagingReady` frame 0 may be clear, and then the first frame taken is 0, which `mmap`
takes for a failure. -/
namespace SynapseKernel.Paging
open SynapseKernel.PageEntry SynapseKernel.FirstFit

/-- As `PagingReady`, with frame 0 marked or not. -/
structure PagingApart (s : State) (d : Nat) (tbl : Nat → Option Nat) : Prop where
  pageDir : s.kernelPageDir = d * 4096
  frameBitmap : s.frameBitmap = 0x100000
  total : s.totalFrames = 32768
  bitmap : marked s 256 = true
  directory : d ≠ 0 ∧ d ≠ 256 ∧ d < 32768 ∧ marked s d = true
  dirs : ∀ i < 1024, Encodes (dirEntry s i) (tbl i)
  tables : ∀ i < 1024, ∀ t, tbl i = some t →
    t ≠ 0 ∧ t ≠ 256 ∧ t ≠ d ∧ t < 32768 ∧ marked s t = true
  injective : ∀ i < 1024, ∀ j < 1024, ∀ t, tbl i = some t → tbl j = some t → i = j

/-- A failed `mmap` changes nothing. -/
def FailsClean (s : State) (addr length prot flags fd offset : Nat) : Prop :=
  (mmap s addr length prot flags fd offset).1 = 0 →
    SamePaging s (mmap s addr length prot flags fd offset).2

/-- There is nothing to map, no frame to take, or a frame for every page. -/
def FramesSuffice (s : State) (addr length : Nat) : Prop :=
  pagesOf length = 0 ∨ framesLeft s = 0 ∨ (marked s 0 = true ∧
    pagesOf length + tablesMissing s (mmapBase addr) (pagesOf length - 1) ≤ framesLeft s)

variable {s s' : State} {d addr length prot flags fd offset k : Nat} {tbl : Nat → Option Nat}

theorem PagingApart.ready (h : PagingApart s d tbl) (h0 : marked s 0 = true) :
    PagingReady s d tbl :=
  ⟨h.pageDir, h.frameBitmap, h.total, ⟨h0, h.bitmap⟩, h.directory, h.dirs, h.tables, h.injective⟩

theorem PagingReady.apart_structures (h : PagingReady s d tbl) : PagingApart s d tbl :=
  ⟨h.pageDir, h.frameBitmap, h.total, h.reserved.2, h.directory, h.dirs, h.tables, h.injective⟩

/-! ## How `mmap` ends -/

theorem mmap_no_pages (h0 : pagesOf length = 0) :
    mmap s addr length prot flags fd offset = (mmapBase addr, s) := by
  rw [mmap, h0]
  rfl

/-- Frame 0 is taken for a failure. -/
theorem PagingApart.mmap_frame_zero (h : PagingApart s d tbl) (h0 : marked s 0 = false)
    (hpages : pagesOf length ≠ 0) :
    mmap s addr length prot flags fd offset = (0, takeFrame s 0) := by
  have hzero : LowestClear s 0 := ⟨by rw [h.total]; decide, h0, fun j hj => absurd hj (by omega)⟩
  obtain ⟨n, hn⟩ := Nat.exists_eq_succ_of_ne_zero hpages
  have hloop : mmapFrom (mmapBase addr) prot (pagesOf length) 0 s = (false, takeFrame s 0) := by
    rw [hn, mmapFrom, hzero.allocFrame]
    rfl
  rw [mmap_of_loop hloop]
  rfl

/-- With frames for all pages and tables every page is mapped. -/
theorem PagingReady.mmap_enough (h : PagingReady s d tbl)
    (hleft : pagesOf length + tablesMissing s (mmapBase addr) (pagesOf length) ≤ framesLeft s) :
    ∃ s' own', mmap s addr length prot flags fd offset = (mmapBase addr, s') ∧
      Mapped s s' d (readyOwners d tbl) own' (RoundPages (mmapBase addr) 0 (pagesOf length))
        (pagesOf length + tablesMissing s (mmapBase addr) (pagesOf length)) := by
  obtain ⟨hinv, -⟩ := h.inv
  have hcount := hinv.tablesMissing_eq (mmapBase addr) (pagesOf length)
  rw [← Nat.zero_add (pagesOf length)] at hcount
  obtain ⟨s', own', hloop, hmapped⟩ := @UserInv.mmapFrom _ _ (mmapBase addr) prot _ hinv
    (pagesOf length) 0 (Nat.le_of_lt (pagesOf_lt length)) (fun _ _ _ => rfl)
    (by rw [← hcount, Nat.zero_add]; exact hleft)
  rw [← hcount, Nat.zero_add] at hmapped
  refine ⟨s', own', ?_, hmapped⟩
  rw [mmap_of_loop hloop]
  rfl

/-- With fewer frames they are all gone. `mmap` succeeds if only the table of the last page
is missing, and that page is then not mapped. -/
theorem PagingReady.mmap_short (h : PagingReady s d tbl)
    (hleft : framesLeft s <
      pagesOf length + tablesMissing s (mmapBase addr) (pagesOf length)) :
    ∃ s' own' done, mmap s addr length prot flags fd offset =
        (if done = true then mmapBase addr else 0, s') ∧
      UserInv s' d own' ∧ framesLeft s' = 0 ∧
      (done = true ↔ pagesOf length +
        tablesMissing s (mmapBase addr) (pagesOf length - 1) ≤ framesLeft s) ∧
      (done = true →
        own' (.table (pageNumber (mmapBase addr) (pagesOf length - 1) / 1024)) = none) := by
  obtain ⟨hinv, -⟩ := h.inv
  have hcount := hinv.tablesMissing_eq (mmapBase addr)
  obtain ⟨s', own', done, hloop, hinv', hfull, hdone, htable⟩ :=
    @UserInv.mmapFrom_short _ _ (mmapBase addr) prot _ hinv (pagesOf length) 0
      (Nat.le_of_lt (pagesOf_lt length)) (fun _ _ _ => rfl)
      (by rw [Nat.zero_add, ← hcount]; exact hleft)
  rw [Nat.zero_add] at hdone htable
  rw [← hcount] at hdone
  refine ⟨s', own', done, ?_, hinv', hfull, hdone, htable⟩
  rw [mmap_of_loop hloop]
  cases done <;> rfl

theorem tablesMissing_le (s : State) (base n : Nat) :
    tablesMissing s base (n - 1) ≤ tablesMissing s base n := by
  refine Finset.card_le_card (Finset.filter_subset_filter _ (Finset.image_subset_image ?_))
  exact Finset.range_mono (Nat.sub_le _ _)

theorem PagingReady.mmap_null_iff (h : PagingReady s d tbl) :
    (mmap s addr length prot flags fd offset).1 = 0 ↔ framesLeft s <
      pagesOf length + tablesMissing s (mmapBase addr) (pagesOf length - 1) := by
  have hle := tablesMissing_le s (mmapBase addr) (pagesOf length)
  by_cases hall : pagesOf length + tablesMissing s (mmapBase addr) (pagesOf length) ≤ framesLeft s
  · obtain ⟨s', own', hmap, -⟩ :=
      @PagingReady.mmap_enough _ _ addr length prot flags fd offset _ h hall
    rw [hmap]
    exact iff_of_false (mmapBase_ne_zero addr) (by omega)
  · obtain ⟨s', own', done, hmap, -, -, hdone, -⟩ :=
      @PagingReady.mmap_short _ _ addr length prot flags fd offset _ h (Nat.lt_of_not_le hall)
    rw [hmap, ← Nat.not_le, ← hdone]
    cases done with
    | true => exact iff_of_false (mmapBase_ne_zero addr) (not_not_intro rfl)
    | false => exact iff_of_true rfl Bool.false_ne_true

/-! ## Failures -/

theorem SamePaging.framesLeft_eq (h : SamePaging s s') (htotal : s'.totalFrames = s.totalFrames) :
    framesLeft s' = framesLeft s := by
  rw [framesLeft, framesLeft]
  refine congrArg Finset.card (Finset.ext fun f => ?_)
  rw [mem_clearFrames, mem_clearFrames, htotal]
  exact and_congr_right fun hf => by rw [h.marks f hf]

theorem mmap_none_left (hfull : framesLeft s = 0) :
    (mmap s addr length prot flags fd offset).2 = s := by
  rw [mmap_of_loop (mmapFrom_full hfull _ _ _ _)]
  split <;> rfl

/-- A call that runs out of frames does not give back those it took. -/
theorem PagingReady.mmap_keeps_frames (h : PagingReady s d tbl) (hleft : framesLeft s ≠ 0)
    (hnull : (mmap s addr length prot flags fd offset).1 = 0) :
    ¬ SamePaging s (mmap s addr length prot flags fd offset).2 := by
  have hlt := h.mmap_null_iff.mp hnull
  have hle := tablesMissing_le s (mmapBase addr) (pagesOf length)
  obtain ⟨s', own', done, hmap, hinv', hfull, -⟩ :=
    @PagingReady.mmap_short _ _ addr length prot flags fd offset _ h (by omega)
  rw [hmap]
  intro hsame
  rw [← hsame.framesLeft_eq (hinv'.total.trans h.total.symm)] at hleft
  exact hleft hfull

/-- **When a failed `mmap` leaves no trace.** It does so if and only if it does not fail
or there was no frame to take. -/
theorem failsClean_iff (h : PagingApart s d tbl) (addr length prot flags fd offset : Nat) :
    FailsClean s addr length prot flags fd offset ↔ FramesSuffice s addr length := by
  by_cases hpages : pagesOf length = 0
  · refine iff_of_true (fun hnull => ?_) (.inl hpages)
    rw [mmap_no_pages hpages] at hnull
    exact absurd hnull (mmapBase_ne_zero addr)
  by_cases hfull : framesLeft s = 0
  · refine iff_of_true (fun _ => ?_) (.inr (.inl hfull))
    rw [mmap_none_left hfull]
    exact .refl s
  rw [FramesSuffice, or_iff_right hpages, or_iff_right hfull]
  cases h0 : marked s 0 with
  | false =>
    refine iff_of_false (fun hclean => ?_) fun hno => Bool.false_ne_true hno.1
    have hmap := @PagingApart.mmap_frame_zero _ _ addr length prot flags fd offset _ h h0 hpages
    rw [FailsClean, hmap] at hclean
    have hmark := (hclean rfl).marks 0 (by rw [h.total]; decide)
    rw [marked_takeFrame, h0] at hmark
    cases hmark
  | true =>
    have hready := h.ready h0
    rw [and_iff_right rfl, ← Nat.not_lt, ← @PagingReady.mmap_null_iff _ _ addr length prot flags fd
      offset _ hready]
    exact ⟨fun hclean hnull => hready.mmap_keeps_frames hfull hnull (hclean hnull),
      fun hno hnull => absurd hnull hno⟩

theorem failsClean_iff_page : FailsClean freshPaging 0 4096 3 0 0 0 ↔
    FramesSuffice freshPaging 0 4096 :=
  failsClean_iff freshDirectory_freshPaging.ready.apart_structures 0 4096 3 0 0 0

/-- A request for 256 MiB takes all of the 128 MiB there are and returns `NULL`. -/
theorem not_failsClean_large : ¬ FailsClean freshPaging 0 0x10000000 3 0 0 0 := by
  have hready := freshDirectory_freshPaging.ready
  have hleft : framesLeft freshPaging ≠ 0 := by
    have hpos := lowestClear_freshPaging.1.taken.le
    omega
  have hle : framesLeft freshPaging ≤ 32768 :=
    (Finset.card_filter_le _ _).trans (Finset.card_range 32768).le
  have hpages : pagesOf 0x10000000 = 65536 := by decide
  have hnull : (mmap freshPaging 0 0x10000000 3 0 0 0).1 = 0 :=
    hready.mmap_null_iff.mpr (by rw [hpages]; omega)
  exact fun hclean => hready.mmap_keeps_frames hleft hnull (hclean hnull)

end SynapseKernel.Paging
