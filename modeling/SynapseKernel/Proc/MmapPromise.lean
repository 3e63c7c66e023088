import SynapseKernel.Proc.MmapFailure

/-! # What a successful `mmap` maps

The bytes of `[r, r + length)` are `r + k` in 32 bits, as the pointers are. A range that
does not begin with its page may end one page behind the last that is mapped (the spill),
a length within a page of `2 ^ 32` rounds up to no page at all, and the table of the last
page may be missing for want of a frame. -/
namespace SynapseKernel.Paging
open SynapseKernel.Word SynapseKernel.ByteMemory SynapseKernel.PageEntry SynapseKernel.FirstFit

/-- Directory and table entry of `a` are present. -/
def Translates (s : State) (a : Nat) : Prop :=
  ¬ (dirEntry s (dirIdx a) &&& pagePresent = 0) ∧ ¬ (pageEntry s a &&& pagePresent = 0)

/-- Between `s` and `s'` frame `f` was allocated. -/
def AllocatedSince (s s' : State) (f : Nat) : Prop :=
  f < s.totalFrames ∧ marked s f = false ∧ marked s' f = true

def MappedAnew (s s' : State) (a : Nat) : Prop :=
  Translates s' a ∧ AllocatedSince s s' (getPhysicalAddr s' a / pageSize)

/-- If `mmap` returns an address, every byte of the range is behind it. -/
def PromiseKept (s : State) (addr length prot flags fd offset : Nat) : Prop :=
  (mmap s addr length prot flags fd offset).1 ≠ 0 → ∀ k < length,
    MappedAnew s (mmap s addr length prot flags fd offset).2
      (u32 ((mmap s addr length prot flags fd offset).1 + k))

/-- The page behind the last was there before, and is mapped to one of the frames that the
call takes: these are the lowest clear frames. -/
def SpillTaken (s : State) (base pages : Nat) : Prop :=
  Translates s (pageAddr base pages) ∧
    getPhysicalAddr s (pageAddr base pages) / pageSize < s.totalFrames ∧
    marked s (getPhysicalAddr s (pageAddr base pages) / pageSize) = false ∧
    clearBelow s (getPhysicalAddr s (pageAddr base pages) / pageSize) <
      pages + tablesMissing s base pages

/-- There are pages to map, and the call fails, or there are frames for all pages and tables
and no byte is behind the last page, unless the spill is taken. -/
def RangeFits (s : State) (addr length : Nat) : Prop :=
  pagesOf length ≠ 0 ∧ (marked s 0 = false ∨
    framesLeft s < pagesOf length + tablesMissing s (mmapBase addr) (pagesOf length - 1) ∨
    (pagesOf length + tablesMissing s (mmapBase addr) (pagesOf length) ≤ framesLeft s ∧
      (mmapBase addr % pageSize + (length - 1) % pageSize < pageSize ∨
        SpillTaken s (mmapBase addr) (pagesOf length))))

variable {s s' : State} {d a b addr base length prot flags fd offset k p : Nat}
  {tbl : Nat → Option Nat} {own own' : Use → Option Nat} {new : Nat → Prop}

/-! ## Translations and entries -/

theorem UserInv.translates_iff (h : UserInv s d own) (ha : a < 2 ^ 32) :
    Translates s a ↔ entryWord own s (a / 4096) % 2 = 1 := by
  rw [Translates, dirIdx_eq, h.absent_iff (by omega)]
  cases ht : own (.table (a / 4096 / 1024)) with
  | none =>
    rw [entryWord_none ht]
    exact iff_of_false (fun hno => hno.1 rfl) (by decide)
  | some t =>
    have hne : own (.table (a / 4096 / 1024)) ≠ none := by
      rw [ht]
      exact Option.some_ne_none t
    rw [h.pageEntry_eq ha hne, land_present]
    refine ⟨fun hp => Nat.mod_two_ne_zero.mp hp.2, fun hodd => ⟨Option.some_ne_none t, ?_⟩⟩
    rw [hodd]
    decide

theorem UserInv.frame_eq (h : UserInv s d own) (ha : a < 2 ^ 32) (ht : Translates s a) :
    Paging.getPhysicalAddr s a / pageSize = entryWord own s (a / 4096) / 4096 := by
  have hodd := (h.translates_iff ha).mp ht
  rw [Translates, dirIdx_eq, h.absent_iff (by omega)] at ht
  obtain ⟨t, htable⟩ := Option.ne_none_iff_exists'.mp ht.1
  rw [entryWord_some htable] at hodd ⊢
  rw [(h.hasTable ha htable).getPhysicalAddr_present ⟨rfl, hodd⟩]
  simp only [pageSize]
  omega

/-- What an address translates to is decided by the entry of its page. -/
theorem UserInv.mappedAnew_iff (h : UserInv s' d own) (ha : a < 2 ^ 32) : MappedAnew s s' a ↔
    entryWord own s' (a / 4096) % 2 = 1 ∧
      AllocatedSince s s' (entryWord own s' (a / 4096) / 4096) := by
  rw [MappedAnew]
  constructor
  · rintro ⟨ht, hf⟩
    rw [h.frame_eq ha ht] at hf
    exact ⟨(h.translates_iff ha).mp ht, hf⟩
  · rintro ⟨hodd, hf⟩
    have ht := (h.translates_iff ha).mpr hodd
    rw [← h.frame_eq ha ht] at hf
    exact ⟨ht, hf⟩

/-- The frames taken are the lowest clear ones. -/
theorem Taken.allocatedSince_iff (h : Taken s s' k) (f : Nat) : AllocatedSince s s' f ↔
    f < s.totalFrames ∧ marked s f = false ∧ clearBelow s f < k := by
  refine and_congr_right fun hf => and_congr_right fun hclear => ?_
  have hlow : marked s' f = false ↔ marked s f = false ∧ k ≤ clearBelow s f :=
    h.lowest f hf
  rw [← Bool.not_eq_false, hlow, hclear]
  simp only [true_and, not_le]

/-- A page that is mapped has a frame that was clear. -/
theorem Mapped.mappedAnew (hm : Mapped s s' d own own' new k) (hh : HandedOut s s own)
    (htotal : s.totalFrames = 32768) (ha : a < 2 ^ 32) (hp : new (a / 4096)) :
    MappedAnew s s' a := by
  obtain ⟨f, hf⟩ := Option.ne_none_iff_exists'.mp ((hm.pages _).mpr (.inr hp))
  obtain ⟨t, ht, hframe, hodd⟩ := hm.inv.entries (a / 4096) (by omega) f hf
  have hin := hm.inv.owns.inUse _ _ hf
  rw [hm.inv.mappedAnew_iff ha, entryWord_some ht, hframe]
  exact ⟨hodd, htotal ▸ hin.1, (hm.handed s hh).fresh _ f hf, hin.2⟩

/-- Any other page translates as before, to a frame that may be among those taken. -/
theorem Mapped.mappedAnew_other (hm : Mapped s s' d own own' new k) (h : UserInv s d own)
    (ha : a < 2 ^ 32) (hb : b < 2 ^ 32) (hab : a / 4096 = b / 4096) (hp : ¬ new (a / 4096)) :
    MappedAnew s s' a ↔ Translates s b ∧
      Paging.getPhysicalAddr s b / pageSize < s.totalFrames ∧
      marked s (Paging.getPhysicalAddr s b / pageSize) = false ∧
      clearBelow s (Paging.getPhysicalAddr s b / pageSize) < k := by
  rw [hm.inv.mappedAnew_iff ha, hm.entries _ (by omega) hp, hm.taken.allocatedSince_iff, hab]
  constructor
  · rintro ⟨hodd, hf⟩
    have ht := (h.translates_iff hb).mpr hodd
    rw [← h.frame_eq hb ht] at hf
    exact ⟨ht, hf⟩
  · rintro ⟨ht, hf⟩
    rw [h.frame_eq hb ht] at hf
    exact ⟨(h.translates_iff hb).mp ht, hf⟩

/-! ## The range and its pages -/

theorem byte_page (base k : Nat) :
    u32 (base + k) / 4096 = pageNumber base ((base % 4096 + k) / 4096) := by
  rw [pageNumber_eq, u32]
  omega

/-- A length that does not round up to nothing. -/
theorem pagesOf_of_ne_zero (hlen : length < 2 ^ 32) (hpages : pagesOf length ≠ 0) :
    pagesOf length = (length + 4095) / 4096 := by
  rw [pagesOf, u32] at hpages ⊢
  simp only [pageSize] at hpages ⊢
  omega

theorem not_roundPages_spill (base length : Nat) :
    ¬ RoundPages base 0 (pagesOf length) (pageNumber base (pagesOf length)) := by
  rintro ⟨r, -, hr, he⟩
  have hlt := pagesOf_lt length
  exact pageNumber_ne hr (by omega) he.symm

/-- Where all pages are mapped only the spill may be missing. -/
theorem PagingReady.promiseKept_enough (h : PagingReady s d tbl) (hpos : 1 ≤ length)
    (hlen : length < 2 ^ 32) (hpages : pagesOf length ≠ 0)
    (hleft : pagesOf length + tablesMissing s (mmapBase addr) (pagesOf length) ≤ framesLeft s) :
    PromiseKept s addr length prot flags fd offset ↔
      (mmapBase addr % pageSize + (length - 1) % pageSize < pageSize ∨
        SpillTaken s (mmapBase addr) (pagesOf length)) := by
  obtain ⟨hinv, hh⟩ := h.inv
  obtain ⟨s', own', hmap, hm⟩ :=
    @PagingReady.mmap_enough _ _ addr length prot flags fd offset _ h hleft
  have hcount := pagesOf_of_ne_zero hlen hpages
  have hspill : ∀ k, (mmapBase addr % 4096 + k) / 4096 = pagesOf length →
      (MappedAnew s s' (u32 (mmapBase addr + k)) ↔
        SpillTaken s (mmapBase addr) (pagesOf length)) := by
    intro k hk
    have hpage := byte_page (mmapBase addr) k
    rw [hk] at hpage
    refine hm.mappedAnew_other hinv (u32_lt _) (pageAddr_lt _ _) hpage ?_
    rw [hpage]
    exact not_roundPages_spill _ _
  rw [PromiseKept, hmap]
  simp only [pageSize]
  constructor
  · intro hall
    by_cases hfit : mmapBase addr % 4096 + (length - 1) % 4096 < 4096
    · exact .inl hfit
    · refine .inr ((hspill (length - 1) (by omega)).mp ?_)
      exact hall (mmapBase_ne_zero addr) _ (by omega)
  · intro hor _ k hk
    by_cases hin : (mmapBase addr % 4096 + k) / 4096 < pagesOf length
    · refine hm.mappedAnew hh h.total (u32_lt _) ?_
      rw [byte_page]
      exact ⟨_, Nat.zero_le _, hin, rfl⟩
    · refine (hspill k (by omega)).mpr (hor.resolve_left ?_)
      omega

/-- Without its table the last page is not mapped. -/
theorem PagingReady.not_promiseKept_short (h : PagingReady s d tbl) (hlen : length < 2 ^ 32)
    (hpages : pagesOf length ≠ 0)
    (hle : pagesOf length + tablesMissing s (mmapBase addr) (pagesOf length - 1) ≤ framesLeft s)
    (hleft : framesLeft s <
      pagesOf length + tablesMissing s (mmapBase addr) (pagesOf length)) :
    ¬ PromiseKept s addr length prot flags fd offset := by
  obtain ⟨s', own', done, hmap, hinv', -, hdone, htable⟩ :=
    @PagingReady.mmap_short _ _ addr length prot flags fd offset _ h hleft
  obtain rfl := hdone.mpr hle
  have hcount := pagesOf_of_ne_zero hlen hpages
  intro hall
  rw [PromiseKept, hmap] at hall
  have hlast := hall (mmapBase_ne_zero addr) ((pagesOf length - 1) * pageSize)
    (by simp only [pageSize]; omega)
  have hodd := ((hinv'.mappedAnew_iff (u32_lt _)).mp hlast).1
  have hzero : entryWord own' s' (pageNumber (mmapBase addr) (pagesOf length - 1)) = 0 :=
    entryWord_none (htable rfl)
  rw [pageNumber, pageAddr] at hzero
  simp only [if_true] at hodd
  rw [hzero] at hodd
  cases hodd

/-- Nothing is allocated for a length that rounds up to no page. -/
theorem not_promiseKept_no_pages (hpos : 1 ≤ length) (hpages : pagesOf length = 0) :
    ¬ PromiseKept s addr length prot flags fd offset := by
  intro hall
  rw [PromiseKept, mmap_no_pages hpages] at hall
  obtain ⟨-, -, hclear, hmark⟩ := hall (mmapBase_ne_zero addr) 0 hpos
  rw [hclear] at hmark
  cases hmark

/-- **When `mmap` maps what it promises.** For a range of at least one byte every byte is
mapped anew whenever an address is returned, if and only if the range fits. -/
theorem promiseKept_iff (h : PagingApart s d tbl) (hpos : 1 ≤ length) (hlen : length < 2 ^ 32)
    (addr prot flags fd offset : Nat) :
    PromiseKept s addr length prot flags fd offset ↔ RangeFits s addr length := by
  by_cases hpages : pagesOf length = 0
  · exact iff_of_false (not_promiseKept_no_pages hpos hpages) fun hfit => hfit.1 hpages
  rw [RangeFits, and_iff_right hpages]
  cases h0 : marked s 0 with
  | false =>
    refine iff_of_true (fun hne => absurd ?_ hne) (.inl rfl)
    rw [@PagingApart.mmap_frame_zero _ _ addr length prot flags fd offset _ h h0 hpages]
  | true =>
    have hready := h.ready h0
    rw [or_iff_right (by decide)]
    by_cases hnull : framesLeft s <
        pagesOf length + tablesMissing s (mmapBase addr) (pagesOf length - 1)
    · exact iff_of_true (fun hne => absurd (hready.mmap_null_iff.mpr hnull) hne) (.inl hnull)
    rw [or_iff_right hnull]
    by_cases hleft : pagesOf length + tablesMissing s (mmapBase addr) (pagesOf length) ≤
        framesLeft s
    · rw [and_iff_right hleft]
      exact hready.promiseKept_enough hpos hlen hpages hleft
    · refine iff_of_false ?_ fun hfit => hleft hfit.1
      exact hready.not_promiseKept_short hlen hpages (Nat.le_of_not_lt hnull)
        (Nat.lt_of_not_le hleft)

theorem promiseKept_iff_page :
    PromiseKept freshPaging 0 4096 3 0 0 0 ↔ RangeFits freshPaging 0 4096 :=
  promiseKept_iff freshDirectory_freshPaging.ready.apart_structures (by decide) (by decide)
    0 3 0 0 0

/-- A request for all but one of the `2 ^ 32` bytes returns `0x80000000` and maps nothing. -/
theorem not_promiseKept_wrap : ¬ PromiseKept freshPaging 0 0xFFFFFFFF 3 0 0 0 :=
  not_promiseKept_no_pages (by decide) (by decide)

end SynapseKernel.Paging
