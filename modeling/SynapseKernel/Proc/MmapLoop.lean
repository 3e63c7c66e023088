import Mathlib.Order.Interval.Finset.Nat
import SynapseKernel.Lib.FirstFit
import SynapseKernel.Mm.UserPages
import SynapseKernel.Proc.Mmap

/-! # The loops of `mmap` and `munmap`

What one round of either loop changes and what it leaves alone, for any base address,
and from it what the whole loop does. With frames for all pages and for the tables they
need every page is mapped; with fewer all frames are gone when the loop stops. -/
namespace SynapseKernel.Paging
open SynapseKernel.Word SynapseKernel.ByteMemory SynapseKernel.Bitmap SynapseKernel.PageEntry
open SynapseKernel.FirstFit

/-- The page of round `i`. -/
def pageNumber (base i : Nat) : Nat := pageAddr base i / 4096

/-- The pages of the rounds `i` to `j - 1`. -/
def RoundPages (base i j p : Nat) : Prop := ∃ k, i ≤ k ∧ k < j ∧ pageNumber base k = p

/-- How many frames below `f` are clear. -/
def clearBelow (s : State) (f : Nat) : Nat := Nat.count (fun g => marked s g = false) f

/-- `alloc_frame` took `k` frames. -/
structure Taken (s s' : State) (k : Nat) : Prop where
  total : s'.totalFrames = s.totalFrames
  le : k ≤ framesLeft s
  lowest : WithoutFirst (fun g => marked s g = false) (fun g => marked s' g = false) k
    s.totalFrames
  used : s.usedFrames < 2 ^ 32 → s'.usedFrames = u32 (s.usedFrames + k)

/-- The entry of page `p`, 0 where there is no table. -/
def entryWord (own : Use → Option Nat) (s : State) (p : Nat) : Nat :=
  match own (.table (p / 1024)) with
  | none => 0
  | some t => frameWord s.mem t (p % 1024)

/-- The pages `new` get frames and, where they have none, tables: `k` frames in all. -/
structure Mapped (s s' : State) (d : Nat) (own own' : Use → Option Nat) (new : Nat → Prop)
    (k : Nat) : Prop where
  inv : UserInv s' d own'
  handed : ∀ s₀, HandedOut s₀ s own → HandedOut s₀ s' own'
  taken : Taken s s' k
  pages : ∀ p, own' (.page p) ≠ none ↔ own (.page p) ≠ none ∨ new p
  tables : ∀ i, own' (.table i) ≠ none ↔ own (.table i) ≠ none ∨ ∃ p, new p ∧ p / 1024 = i
  kept : ∀ i t, own (.table i) = some t → own' (.table i) = some t
  dirs : ∀ i < 1024, (own (.table i) = none → ∀ p, new p → p / 1024 ≠ i) →
    frameWord s'.mem d i = frameWord s.mem d i
  entries : ∀ p < 2 ^ 20, ¬ new p → entryWord own' s' p = entryWord own s p

/-- The pages `old` give their frames back, `k` in all. -/
structure Unmapped (s s' : State) (d : Nat) (own own' : Use → Option Nat) (old : Nat → Prop)
    (k : Nat) : Prop where
  inv : UserInv s' d own'
  handed : ∀ s₀, HandedOut s₀ s own → HandedOut s₀ s' own'
  pages : ∀ p, own' (.page p) ≠ none ↔ own (.page p) ≠ none ∧ ¬ old p
  tables : ∀ i, own' (.table i) = own (.table i)
  dirs : ∀ i < 1024, frameWord s'.mem d i = frameWord s.mem d i
  gone : ∀ p < 2 ^ 20, old p → entryWord own' s' p = 0
  entries : ∀ p < 2 ^ 20, ¬ old p → entryWord own' s' p = entryWord own s p
  used : ∀ x, s.usedFrames = u32 (x + k) → s'.usedFrames = u32 x

/-- The frames page `p` needs: its own, and one for its table if that is missing. -/
def pageNeed (own : Use → Option Nat) (p : Nat) : Nat :=
  if own (.table (p / 1024)) = none then 2 else 1

/-- The directories that the rounds `i` to `j - 1` need and that have no table. -/
def lackingTables (own : Use → Option Nat) (base i j : Nat) : Finset Nat :=
  ((Finset.Ico i j).image fun k => pageNumber base k / 1024).filter fun k => own (.table k) = none

variable {s₀ s s' s'' : State} {d f t addr base prot i j k n p q : Nat}
  {own own' own'' : Use → Option Nat}

/-! ## The pages of the rounds -/

theorem pageNumber_eq (base i : Nat) : pageNumber base i = (base / 4096 + i) % 2 ^ 20 := by
  rw [pageNumber, pageAddr, u32]
  simp only [pageSize]
  omega

theorem pageNumber_lt (base i : Nat) : pageNumber base i < 2 ^ 20 := by
  rw [pageNumber_eq]
  exact Nat.mod_lt _ (by decide)

/-- Fewer than `2 ^ 20` pages in a row are different. -/
theorem pageNumber_inj (hij : i < j + 2 ^ 20) (hji : j < i + 2 ^ 20)
    (h : pageNumber base i = pageNumber base j) : i = j := by
  rw [pageNumber_eq, pageNumber_eq] at h
  omega

theorem pagesOf_lt (length : Nat) : pagesOf length < 2 ^ 20 := by
  rw [pagesOf, u32]
  simp only [pageSize]
  omega

theorem RoundPages.none : ¬ RoundPages base i i p := by
  rintro ⟨k, hik, hk, -⟩
  omega

theorem roundPages_succ (hij : i < j) :
    RoundPages base i j p ↔ p = pageNumber base i ∨ RoundPages base (i + 1) j p := by
  constructor
  · rintro ⟨k, hik, hkj, rfl⟩
    by_cases hki : k = i
    · exact .inl (by rw [hki])
    · exact .inr ⟨k, by omega, hkj, rfl⟩
  · rintro (rfl | ⟨k, hik, hkj, hp⟩)
    · exact ⟨i, Nat.le_refl i, hij, rfl⟩
    · exact ⟨k, by omega, hkj, hp⟩

/-! ## Taking frames -/

theorem framesLeft_eq (s : State) : framesLeft s = clearBelow s s.totalFrames := by
  rw [framesLeft, clearFrames, clearBelow, Nat.count_eq_card_filter_range]

theorem Taken.left (h : Taken s s' k) : framesLeft s' + k = framesLeft s := by
  have hcount : clearBelow s' s.totalFrames = clearBelow s s.totalFrames - k :=
    h.lowest.count (Nat.le_refl _)
  have hle := h.le
  rw [framesLeft_eq] at hle
  rw [framesLeft_eq s', h.total, hcount, framesLeft_eq]
  exact Nat.sub_add_cancel hle

theorem Taken.refl (s : State) : Taken s s 0 :=
  ⟨rfl, Nat.zero_le _, .none fun _ _ => Iff.rfl, fun hu => (u32_of_lt hu).symm⟩

theorem Taken.trans (h : Taken s s' j) (h' : Taken s' s'' k) : Taken s s'' (j + k) := by
  have hleft := h.left
  have hle := h'.le
  have hlowest := h'.lowest
  rw [h.total] at hlowest
  refine ⟨h'.total.trans h.total, by omega, h.lowest.trans hlowest, fun hu => ?_⟩
  have hu' := h.used hu
  rw [h'.used (hu' ▸ u32_lt _), hu', u32, u32, u32]
  omega

/-- `alloc_frame` takes the lowest clear frame. -/
theorem LowestClear.taken (hf : LowestClear s f) : Taken s (takeFrame s f) 1 := by
  refine ⟨rfl, Finset.card_pos.mpr ⟨f, mem_clearFrames.mpr ⟨hf.1, hf.2.1⟩⟩, ?_, fun _ => rfl⟩
  refine .lowest hf.2.1 (fun j hj hclear => ?_) fun g _ => ?_
  · rw [hf.2.2 j hj] at hclear
    cases hclear
  · rw [marked_takeFrame, Bool.or_eq_false_iff, decide_eq_false_iff_not]

/-- The mark of a frame and the counter are all that `Taken` looks at. -/
theorem Taken.congr (h : Taken s s' k) (htotal : s''.totalFrames = s'.totalFrames)
    (hused : s''.usedFrames = s'.usedFrames)
    (hmark : ∀ g < s'.totalFrames, marked s'' g = marked s' g) : Taken s s'' k := by
  refine ⟨htotal.trans h.total, h.le, fun g hg => ?_, fun hu => hused.trans (h.used hu)⟩
  show marked s'' g = false ↔ _
  rw [hmark g (h.total ▸ hg)]
  exact h.lowest g hg

/-! ## Entries -/

theorem entryWord_none (h : own (.table (p / 1024)) = none) : entryWord own s p = 0 := by
  rw [entryWord, h]

theorem entryWord_some (h : own (.table (p / 1024)) = some t) :
    entryWord own s p = frameWord s.mem t (p % 1024) := by
  rw [entryWord, h]

/-- Only the tables and their words matter. -/
theorem entryWord_congr (htable : own' (.table (p / 1024)) = own (.table (p / 1024)))
    (hword : ∀ t, own (.table (p / 1024)) = some t →
      frameWord s'.mem t (p % 1024) = frameWord s.mem t (p % 1024)) :
    entryWord own' s' p = entryWord own s p := by
  cases ht : own (.table (p / 1024)) with
  | none => rw [entryWord_none ht, entryWord_none (htable.trans ht)]
  | some t => rw [entryWord_some ht, entryWord_some (htable.trans ht), hword t ht]

theorem UserInv.pageEntry_eq (h : UserInv s d own) (ha : addr < 2 ^ 32)
    (ht : own (.table (addr / 4096 / 1024)) ≠ none) :
    pageEntry s addr = entryWord own s (addr / 4096) := by
  obtain ⟨t, ht⟩ := Option.ne_none_iff_exists'.mp ht
  rw [(h.hasTable ha ht).pageEntry, entryWord_some ht]

theorem entryWord_update_page (u : Option Nat) :
    entryWord (Function.update own (.page q) u) s p = entryWord own s p :=
  entryWord_congr (Function.update_of_ne (by simp) _ _) fun _ _ => rfl

theorem UserInv.entryWord_takeFrame (h : UserInv s d own) (hf : f < 32768) (p : Nat) :
    entryWord own (Paging.takeFrame s f) p = entryWord own s p :=
  entryWord_congr rfl fun _ ht =>
    frameWord_takeFrame h.frameBitmap hf (h.table_ne ht).2 (Nat.mod_lt _ (by decide))

theorem UserInv.entryWord_withPage (h : UserInv s d own) (ht : own (.table (p / 1024)) = some t)
    (hqp : q ≠ p) (pa flags : Nat) :
    entryWord own (Paging.withPage s t (p % 1024) pa flags) q = entryWord own s q :=
  entryWord_congr rfl fun _ ht' => frameWord_otherPage h.owns hqp ht ht'

/-- A new table is all zeroes, and no other table changes. -/
theorem UserInv.entryWord_withTable (h : UserInv s d own) (hi : i < 1024)
    (hnone : own (.table i) = none) (ht : t < 32768) (hclear : marked s t = false) (flags p : Nat) :
    entryWord (Function.update own (.table i) (some t)) (Paging.withTable s d t i flags) p =
      entryWord own s p := by
  have hfree := h.not_owned hclear
  have hidx : p % 1024 < 1024 := Nat.mod_lt _ (by decide)
  by_cases hp : p / 1024 = i
  · have htd : d ≠ t := fun he => hfree .directory (he ▸ h.directory)
    have hnew : Function.update own (.table i) (some t) (.table (p / 1024)) = some t := by
      rw [hp, Function.update_self]
    rw [entryWord_some hnew, entryWord_none (hp ▸ hnone), Paging.withTable,
      frameWord_setFrameWord_ne hi hidx (.inl htd), frameWord_fill hidx]
  · rw [← h.entryWord_takeFrame ht]
    refine entryWord_congr (Function.update_of_ne (by simp [hp]) _ _) fun u hu => ?_
    exact frameWord_withTable hi (fun he => hfree _ (he ▸ hu)) (.inl (h.table_ne hu).1) hidx

/-! ## Mapping one page -/

theorem update_some_ne_none {u v : Use} :
    Function.update own u (some f) v ≠ none ↔ own v ≠ none ∨ v = u := by
  by_cases hv : v = u
  · rw [hv, Function.update_self]
    exact iff_of_true (Option.some_ne_none f) (.inr rfl)
  · rw [Function.update_of_ne hv, or_iff_left hv]

theorem pageFlags_lt (prot : Nat) : pageFlags prot < 4096 := by
  unfold pageFlags
  simp only [pagePresent, pageWritable, pageUser]
  split <;> split <;> decide

/-- The page at `addr` gets a frame where there is a table for it. -/
theorem UserInv.mapped_table (h : UserInv s d own) (prot : Nat) (ha : addr < 2 ^ 32)
    (hnone : own (.page (addr / 4096)) = none) (hf : LowestClear s f)
    (ht : own (.table (addr / 4096 / 1024)) = some t) :
    Mapped s (mapPage (Paging.takeFrame s f) addr (f * 4096) (pageFlags prot)) d own
      (Function.update own (.page (addr / 4096)) (some f)) (· = addr / 4096)
      (pageNeed own (addr / 4096)) := by
  obtain ⟨hinv, hmark⟩ := h.mapPage_table ha (pageFlags_lt prot) ht hf
  have hlt := hf.lt h
  have h' := h.takeFrame hlt
  have htne := h.table_ne ht
  have hone : pageNeed own (addr / 4096) = 1 := if_neg (by rw [ht]; exact Option.some_ne_none t)
  rw [(h'.hasTable ha ht).mapPage] at hinv hmark ⊢
  refine ⟨hinv, fun s₀ hh => hh.give hnone hmark (hh.clear_start hlt hf.2.1), ?_, fun q => ?_,
    fun i => ?_, fun i t hi => (Function.update_of_ne (by simp) _ _).trans hi, fun i hi _ => ?_,
    fun q _ hq => ?_⟩
  · rw [hone]
    refine hf.taken.congr rfl rfl fun g hg => ?_
    rw [marked_takeFrame]
    exact hmark g (h'.total ▸ hg)
  · rw [update_some_ne_none, Use.page.injEq]
  · rw [Function.update_of_ne (by simp)]
    refine ⟨.inl, fun hor => hor.elim id ?_⟩
    rintro ⟨p, rfl, rfl⟩
    rw [ht]
    exact Option.some_ne_none t
  · rw [Paging.withPage, frameWord_setFrameWord_ne (by omega) hi (.inl htne.1),
      frameWord_takeFrame h.frameBitmap hlt h.dir_ne hi]
  · rw [entryWord_update_page, h'.entryWord_withPage ht hq, h.entryWord_takeFrame hlt]

/-- It gets a table, too, where there is none. -/
theorem UserInv.mapped_new (h : UserInv s d own) (prot : Nat) (ha : addr < 2 ^ 32)
    (hnone : own (.page (addr / 4096)) = none) (hf : LowestClear s f)
    (ht : own (.table (addr / 4096 / 1024)) = none) (hc : LowestClear (Paging.takeFrame s f) t) :
    Mapped s (mapPage (Paging.takeFrame s f) addr (f * 4096) (pageFlags prot)) d own
      (Function.update (Function.update own (.table (addr / 4096 / 1024)) (some t))
        (.page (addr / 4096)) (some f)) (· = addr / 4096) (pageNeed own (addr / 4096)) := by
  obtain ⟨hinv, hmark⟩ := h.mapPage_new ha (pageFlags_lt prot) ht hf hc
  have hlt := hf.lt h
  have h' := h.takeFrame hlt
  have htlt := hc.lt h'
  have htd : t ≠ d := fun he => h'.not_owned hc.2.1 .directory (he ▸ h.directory)
  have hi : addr / 4096 / 1024 < 1024 := by omega
  have h'' := h'.withTable hi (pageFlags_lt prot) ht htlt hc.2.1
  have htnew : Function.update own (.table (addr / 4096 / 1024)) (some t)
      (.table (addr / 4096 / 1024)) = some t := Function.update_self _ _ _
  have htwo : pageNeed own (addr / 4096) = 1 + 1 := if_pos ht
  rw [(h'.noTable ha ht).mapPage hc (hc.ne_zero h') htlt,
    (h''.hasTable ha htnew).setPageEntry] at hinv hmark ⊢
  refine ⟨hinv, fun s₀ hh => ?_, ?_, fun q => ?_, fun i => ?_, fun i u hu => ?_,
    fun i hilt hi' => ?_, fun q _ hq => ?_⟩
  · have hclear : marked s t = false := by
      have hm := hc.2.1
      rw [marked_takeFrame, Bool.or_eq_false_iff] at hm
      exact hm.2
    refine hh.give_both hnone ht (fun g hg => ?_) (hh.clear_start hlt hf.2.1)
      (hh.clear_start htlt hclear)
    rw [hmark g hg]
  · rw [htwo]
    refine (hf.taken.trans hc.taken).congr rfl rfl fun g hg => ?_
    rw [marked_takeFrame, marked_takeFrame]
    exact hmark g (h'.total ▸ hg)
  · rw [update_some_ne_none, Use.page.injEq, Function.update_of_ne (by simp)]
  · rw [Function.update_of_ne (by simp), update_some_ne_none, Use.table.injEq]
    refine or_congr_right ?_
    rw [exists_eq_left, eq_comm]
  · have hne : i ≠ addr / 4096 / 1024 := by
      rintro rfl
      rw [ht] at hu
      cases hu
    rw [Function.update_of_ne (by simp), Function.update_of_ne (by simp [hne]), hu]
  · have hne : i ≠ addr / 4096 / 1024 := by
      rintro rfl
      exact hi' ht _ rfl rfl
    rw [Paging.withPage, frameWord_setFrameWord_ne (by omega) hilt (.inl htd),
      frameWord_withTable hi (Ne.symm htd) (.inr hne) hilt,
      frameWord_takeFrame h'.frameBitmap htlt h.dir_ne hilt,
      frameWord_takeFrame h.frameBitmap hlt h.dir_ne hilt]
  · rw [entryWord_update_page, h''.entryWord_withPage htnew hq,
      h'.entryWord_withTable hi ht htlt hc.2.1, h.entryWord_takeFrame hlt]

/-- A round gives its page a frame, and a table if it has none. -/
theorem UserInv.mapped_round (h : UserInv s d own)
    (hnone : own (.page (pageNumber base i)) = none)
    (hneed : pageNeed own (pageNumber base i) ≤ framesLeft s) :
    ∃ s' own', (∀ n, mmapFrom base prot (n + 1) i s = mmapFrom base prot n (i + 1) s') ∧
      Mapped s s' d own own' (· = pageNumber base i) (pageNeed own (pageNumber base i)) := by
  have hpos : 0 < framesLeft s := by
    rw [pageNeed] at hneed
    split at hneed <;> omega
  obtain ⟨f, hf⟩ := exists_lowestClear hpos
  have hf0 := hf.ne_zero h
  have hphys : u32 (f * pageSize) = f * 4096 := by
    have hlt := hf.lt h
    refine u32_of_lt ?_
    simp only [pageSize]
    omega
  have hstep : ∀ n, mmapFrom base prot (n + 1) i s = mmapFrom base prot n (i + 1)
      (mapPage (Paging.takeFrame s f) (pageAddr base i) (f * 4096) (pageFlags prot)) := by
    intro n
    rw [mmapFrom, hf.allocFrame]
    simp only [if_neg hf0, hphys]
  have ha := pageAddr_lt base i
  cases ht : own (.table (pageNumber base i / 1024)) with
  | some t => exact ⟨_, _, hstep, h.mapped_table prot ha hnone hf ht⟩
  | none =>
    have htwo : pageNeed own (pageNumber base i) = 2 := if_pos ht
    have hleft := hf.taken.left
    obtain ⟨t, hc⟩ := @exists_lowestClear (Paging.takeFrame s f) (by omega)
    exact ⟨_, _, hstep, h.mapped_new prot ha hnone hf ht hc⟩

/-! ## The loop of `mmap` -/

theorem mem_lackingTables : k ∈ lackingTables own base i j ↔
    (∃ p, RoundPages base i j p ∧ p / 1024 = k) ∧ own (.table k) = none := by
  rw [lackingTables, Finset.mem_filter, Finset.mem_image]
  refine and_congr_left fun _ => ?_
  constructor
  · rintro ⟨r, hr, rfl⟩
    obtain ⟨hir, hrj⟩ := Finset.mem_Ico.mp hr
    exact ⟨_, ⟨r, hir, hrj, rfl⟩, rfl⟩
  · rintro ⟨p, ⟨r, hir, hrj, rfl⟩, rfl⟩
    exact ⟨r, Finset.mem_Ico.mpr ⟨hir, hrj⟩, rfl⟩

theorem lackingTables_self : lackingTables own base i i = ∅ := by
  rw [lackingTables, Finset.Ico_self, Finset.image_empty, Finset.filter_empty]

/-- What is missing for a round and those after it is what the round needs and what is
missing once its page is mapped. -/
theorem Mapped.lacking (h : Mapped s s' d own own' (· = pageNumber base i) k) (hij : i < j) :
    pageNeed own (pageNumber base i) + (lackingTables own' base (i + 1) j).card =
      1 + (lackingTables own base i j).card := by
  have herase : lackingTables own' base (i + 1) j =
      (lackingTables own base i j).erase (pageNumber base i / 1024) := by
    ext m
    have hm := not_congr (h.tables m)
    rw [Ne, not_not, not_or, not_not] at hm
    rw [Finset.mem_erase, mem_lackingTables, mem_lackingTables, hm]
    constructor
    · rintro ⟨⟨p, hp, rfl⟩, hnone, hne⟩
      refine ⟨fun he => hne ⟨_, rfl, he.symm⟩, ⟨p, ?_, rfl⟩, hnone⟩
      exact (roundPages_succ hij).mpr (.inr hp)
    · rintro ⟨hne, ⟨p, hp, rfl⟩, hnone⟩
      refine ⟨⟨p, ((roundPages_succ hij).mp hp).resolve_left ?_, rfl⟩, hnone, ?_⟩
      · rintro rfl
        exact hne rfl
      · rintro ⟨q, rfl, hq⟩
        exact hne hq.symm
  rw [herase, pageNeed]
  by_cases hnone : own (.table (pageNumber base i / 1024)) = none
  · have hmem : pageNumber base i / 1024 ∈ lackingTables own base i j :=
      mem_lackingTables.mpr ⟨⟨_, (roundPages_succ hij).mpr (.inl rfl), rfl⟩, hnone⟩
    have hcard := Finset.card_erase_add_one hmem
    rw [if_pos hnone]
    omega
  · rw [if_neg hnone, Finset.erase_eq_of_notMem]
    exact fun hmem => hnone (mem_lackingTables.mp hmem).2

theorem pageNeed_le (hij : i < j) :
    pageNeed own (pageNumber base i) ≤ 1 + (lackingTables own base i j).card := by
  rw [pageNeed]
  split
  · next hnone =>
    have hpos := Finset.card_pos.mpr ⟨_, mem_lackingTables.mpr
      ⟨⟨_, (@roundPages_succ base i j _ hij).mpr (.inl rfl), rfl⟩, hnone⟩⟩
    omega
  · omega

/-- No page at all. -/
theorem UserInv.mapped_none (h : UserInv s d own) : Mapped s s d own own (fun _ => False) 0 := by
  refine ⟨h, fun s₀ hh => hh, .refl s, fun p => (or_iff_left id).symm, fun i => ?_,
    fun _ _ ht => ht, fun _ _ _ => rfl, fun _ _ _ => rfl⟩
  rw [or_iff_left]
  rintro ⟨p, hp, -⟩
  exact hp

/-- Some pages, and then some more. -/
theorem Mapped.trans {new new' : Nat → Prop} (h : Mapped s s' d own own' new j)
    (h' : Mapped s' s'' d own' own'' new' k) :
    Mapped s s'' d own own'' (fun p => new p ∨ new' p) (j + k) := by
  refine ⟨h'.inv, fun s₀ hh => h'.handed s₀ (h.handed s₀ hh), h.taken.trans h'.taken, fun p => ?_,
    fun i => ?_, fun i t ht => h'.kept i t (h.kept i t ht), fun i hi hold => ?_,
    fun p hp hno => ?_⟩
  · rw [h'.pages p, h.pages p, or_assoc]
  · rw [h'.tables i, h.tables i, or_assoc]
    refine or_congr_right ⟨?_, ?_⟩
    · rintro (⟨p, hp, hpi⟩ | ⟨p, hp, hpi⟩)
      · exact ⟨p, .inl hp, hpi⟩
      · exact ⟨p, .inr hp, hpi⟩
    · rintro ⟨p, hp | hp, hpi⟩
      · exact .inl ⟨p, hp, hpi⟩
      · exact .inr ⟨p, hp, hpi⟩
  · have hold' : own' (.table i) = none → ∀ p, new' p → p / 1024 ≠ i := by
      intro hnone p hp
      have hne := mt (h.tables i).mpr (not_not_intro hnone)
      exact hold (not_not.mp fun hno => hne (.inl hno)) p (.inr hp)
    rw [h'.dirs i hi hold', h.dirs i hi fun hnone p hp => hold hnone p (.inl hp)]
  · rw [not_or] at hno
    rw [h'.entries p hp hno.2, h.entries p hp hno.1]

theorem Mapped.congr {new new' : Nat → Prop} (h : Mapped s s' d own own' new k)
    (hnew : ∀ p, new p ↔ new' p) : Mapped s s' d own own' new' k :=
  (funext fun p => propext (hnew p) : new = new') ▸ h

/-- The pages of the later rounds are other pages. -/
theorem pageNumber_ne (hij : i < j) (hji : j < i + 2 ^ 20) : pageNumber base j ≠ pageNumber base i :=
  fun he => absurd (pageNumber_inj (by omega) (by omega) he) (by omega)

/-- The page of a later round has no owner yet when this round is over. -/
theorem Mapped.later (h : Mapped s s' d own own' (· = pageNumber base i) k)
    (hnone : ∀ r, i ≤ r → r < i + (n + 1) → own (.page (pageNumber base r)) = none)
    (hn : n + 1 ≤ 2 ^ 20) (r : Nat) (hir : i + 1 ≤ r) (hr : r < i + 1 + n) :
    own' (.page (pageNumber base r)) = none := by
  by_contra hne
  rcases (h.pages _).mp hne with hold | hnew
  · exact hold (hnone r (by omega) (by omega))
  · exact pageNumber_ne (by omega) (by omega) hnew

/-- **The loop of `mmap`** gives every page a frame when there are enough. -/
theorem UserInv.mmapFrom (h : UserInv s d own) (n i : Nat) (hn : n ≤ 2 ^ 20)
    (hnone : ∀ r, i ≤ r → r < i + n → own (.page (pageNumber base r)) = none)
    (hleft : n + (lackingTables own base i (i + n)).card ≤ framesLeft s) :
    ∃ s' own', Paging.mmapFrom base prot n i s = (true, s') ∧
      Mapped s s' d own own' (RoundPages base i (i + n))
        (n + (lackingTables own base i (i + n)).card) := by
  induction n generalizing s own i with
  | zero =>
    refine ⟨s, own, rfl, ?_⟩
    rw [Nat.add_zero, lackingTables_self, Finset.card_empty]
    exact h.mapped_none.congr fun p => (iff_false_intro RoundPages.none).symm
  | succ n ih =>
    have hij : i < i + (n + 1) := by omega
    have hneed := @pageNeed_le base i _ own hij
    obtain ⟨s₁, own₁, hstep, hround⟩ := @UserInv.mapped_round _ _ base prot i _ h
      (hnone i (Nat.le_refl i) hij) (Nat.le_trans hneed (by omega))
    have hleft₁ := hround.taken.left
    have hlack := hround.lacking hij
    have hend : i + 1 + n = i + (n + 1) := by omega
    obtain ⟨s', own', hloop, hrest⟩ := ih hround.inv (i + 1) (by omega) (hround.later hnone hn)
      (by rw [hend]; omega)
    refine ⟨s', own', (hstep n).trans hloop, ?_⟩
    rw [hend] at hrest
    have hall := (hround.trans hrest).congr fun p => (roundPages_succ hij).symm
    have hcount : pageNeed own (pageNumber base i) +
        (n + (lackingTables own₁ base (i + 1) (i + (n + 1))).card) =
          n + 1 + (lackingTables own base i (i + (n + 1))).card := by
      omega
    exact hcount ▸ hall

/-! ## Too few frames -/

theorem allocFrame_full (hfull : framesLeft s = 0) : allocFrame s = (0, s) := by
  rcases allocFrame_cases s with ⟨f, hf, -⟩ | ⟨-, he⟩
  · have hle := hf.taken.le
    omega
  · exact he

theorem mapPage_full (hno : NoTable s d addr) (hfull : framesLeft s = 0) (pa flags : Nat) :
    mapPage s addr pa flags = s := by
  rw [mapPage, if_pos hno.absent, createPageTable, allocFrame_full hfull]
  rfl

theorem mmapFrom_full (hfull : framesLeft s = 0) (base prot n i : Nat) :
    mmapFrom base prot n i s = (decide (n = 0), s) := by
  cases n with
  | zero => rfl
  | succ n =>
    rw [mmapFrom, allocFrame_full hfull]
    rfl

/-- A round that finds too few frames takes what there is: the last frame goes to the page,
and `map_page` gives up without a table. -/
theorem UserInv.mmapFrom_stuck (h : UserInv s d own)
    (hneed : framesLeft s < pageNeed own (pageNumber base i)) :
    ∃ s', UserInv s' d own ∧ framesLeft s' = 0 ∧
      (framesLeft s = 1 → own (.table (pageNumber base i / 1024)) = none) ∧
      ∀ n, Paging.mmapFrom base prot (n + 1) i s = (decide (n = 0 ∧ framesLeft s = 1), s') := by
  by_cases hfull : framesLeft s = 0
  · refine ⟨s, h, hfull, by omega, fun n => ?_⟩
    rw [mmapFrom_full hfull, hfull]
    simp
  · have ht : own (.table (pageNumber base i / 1024)) = none := by
      by_contra hne
      rw [pageNeed, if_neg hne] at hneed
      omega
    rw [pageNeed, if_pos ht] at hneed
    have hone : framesLeft s = 1 := by omega
    obtain ⟨f, hf⟩ := exists_lowestClear (Nat.pos_of_ne_zero hfull)
    have hf0 := hf.ne_zero h
    have h' := h.takeFrame (hf.lt h)
    have hfull' : framesLeft (Paging.takeFrame s f) = 0 := by
      have hleft := hf.taken.left
      omega
    refine ⟨_, h', hfull', fun _ => ht, fun n => ?_⟩
    rw [Paging.mmapFrom, hf.allocFrame]
    simp only [if_neg hf0, hone, and_true]
    rw [mapPage_full (h'.noTable (pageAddr_lt base i) ht) hfull', mmapFrom_full hfull']

/-- With too few frames the loop takes them all. It still ends well when only the table
of the last page is missing. -/
theorem UserInv.mmapFrom_short (h : UserInv s d own) (n i : Nat) (hn : n ≤ 2 ^ 20)
    (hnone : ∀ r, i ≤ r → r < i + n → own (.page (pageNumber base r)) = none)
    (hleft : framesLeft s < n + (lackingTables own base i (i + n)).card) :
    ∃ s' own' done, Paging.mmapFrom base prot n i s = (done, s') ∧ UserInv s' d own' ∧
      framesLeft s' = 0 ∧
      (done = true ↔ n + (lackingTables own base i (i + n - 1)).card ≤ framesLeft s) ∧
      (done = true → own' (.table (pageNumber base (i + n - 1) / 1024)) = none) := by
  induction n generalizing s own i with
  | zero =>
    rw [Nat.add_zero, lackingTables_self, Finset.card_empty] at hleft
    omega
  | succ n ih =>
    have hij : i < i + (n + 1) := by omega
    have hlast : i + (n + 1) - 1 = i + n := by omega
    rw [hlast]
    by_cases hneed : pageNeed own (pageNumber base i) ≤ framesLeft s
    · obtain ⟨s₁, own₁, hstep, hround⟩ := @UserInv.mapped_round _ _ base prot i _ h
        (hnone i (Nat.le_refl i) hij) hneed
      have hleft₁ := hround.taken.left
      have hlack := hround.lacking hij
      have hend : i + 1 + n = i + (n + 1) := by omega
      obtain ⟨s', own', done, hloop, hinv, hfull, hdone, htable⟩ := ih hround.inv (i + 1) (by omega)
        (hround.later hnone hn) (by rw [hend]; omega)
      have hlast' : i + 1 + n - 1 = i + n := by omega
      rw [hlast'] at hdone htable
      refine ⟨s', own', done, (hstep n).trans hloop, hinv, hfull, hdone.trans ?_, htable⟩
      -- there is a round left, or nothing would be missing
      have hpos : i < i + n := by
        by_contra hle
        have hzero : i + (n + 1) = i + 1 := by omega
        rw [hzero, lackingTables_self, Finset.card_empty] at hlack
        rw [hzero] at hleft
        omega
      have hlack' := hround.lacking hpos
      omega
    · obtain ⟨s', hinv, hfull, htable, hloop⟩ := @UserInv.mmapFrom_stuck _ _ base prot i _ h
        (Nat.lt_of_not_le hneed)
      refine ⟨s', own, _, hloop n, hinv, hfull, ?_, fun hdone => ?_⟩
      · rw [decide_eq_true_iff]
        constructor
        · rintro ⟨rfl, hone⟩
          have hempty : lackingTables own base i (i + 0) = ∅ := lackingTables_self
          rw [hempty, Finset.card_empty, hone]
        · intro hle
          have htwo : pageNeed own (pageNumber base i) ≤ 2 := by
            rw [pageNeed]
            split <;> omega
          omega
      · obtain ⟨rfl, hone⟩ := of_decide_eq_true hdone
        exact htable hone

/-! ## The loop of `munmap` -/

theorem UserInv.munmapPage_eq (h : UserInv s d own) (ha : addr < 2 ^ 32)
    (ht : own (.table (addr / 4096 / 1024)) = some t) (hf : own (.page (addr / 4096)) = some f) :
    munmapPage s addr = Paging.withoutPage s t (addr / 4096 % 1024) f := by
  obtain ⟨t', ht', he⟩ := h.entries (addr / 4096) (by omega) f hf
  obtain rfl := Option.some.inj (ht.symm.trans ht')
  exact (h.hasTable ha ht).munmapPage h.frameBitmap h.total h.dir_ne (h.table_ne ht).2 ha he

/-- The state a round of `munmap` leaves. -/
theorem UserInv.unmapped_page (h : UserInv s d own) (ht : own (.table (p / 1024)) = some t)
    (hf : own (.page p) = some f) : Unmapped s (Paging.withoutPage s t (p % 1024) f) d own
      (Function.update own (.page p) none) (· = p) 1 := by
  have hlt := (h.owns.inUse _ _ hf).1
  have hm := (h.owns.inUse _ _ hf).2
  have htne := h.table_ne ht
  have hidx : p % 1024 < 1024 := Nat.mod_lt _ (by decide)
  refine ⟨h.withoutPage ht hf, fun s₀ hh => hh.drop h hf fun g hg => ?_, fun q => ?_,
    fun i => Function.update_of_ne (by simp) _ _, fun i hi => ?_, fun q _ hq => ?_,
    fun q _ hq => ?_, fun x hx => ?_⟩
  · rw [marked_withoutPage h.frameBitmap hidx htne.2 hg, marked_freeFrame]
    simp only [h.total, hlt, and_true]
  · by_cases hq : q = p
    · rw [hq, Function.update_self]
      exact iff_of_false (fun hno => hno rfl) fun hno => hno.2 rfl
    · rw [Function.update_of_ne (by simp [hq]), and_iff_left hq]
  · rw [Paging.withoutPage, frameWord_setFrameWord_ne hidx hi (.inl htne.1),
      frameWord_freeFrame h.frameBitmap h.total f h.dir_ne hi]
  · rw [hq, entryWord_update_page, entryWord_some ht, Paging.withoutPage, frameWord_setFrameWord]
    rfl
  · rw [entryWord_update_page]
    refine entryWord_congr rfl fun t' ht' => ?_
    rw [Paging.withoutPage, frameWord_otherPage h.owns hq ht ht',
      frameWord_freeFrame h.frameBitmap h.total f (h.table_ne ht').2 (Nat.mod_lt _ (by decide))]
  · have hfree : (Paging.withoutPage s t (p % 1024) f).usedFrames = sub32 s.usedFrames 1 := by
      show (freeFrame s f).usedFrames = _
      rcases freeFrame_cases s f with ⟨hno | hno, -⟩ | ⟨-, -, he⟩
      · rw [h.total] at hno
        omega
      · rw [hm] at hno
        cases hno
      · rw [he]
    rw [hfree, hx, sub32, u32, u32, u32]
    omega

/-- **The loop of `munmap`** takes the frames of the pages back. -/
theorem UserInv.munmapFrom (h : UserInv s d own) (n i : Nat) (hn : n ≤ 2 ^ 20)
    (hmapped : ∀ r, i ≤ r → r < i + n → own (.page (pageNumber base r)) ≠ none) :
    ∃ own', Unmapped s (Paging.munmapFrom base n i s) d own own'
      (RoundPages base i (i + n)) n := by
  induction n generalizing s own i with
  | zero =>
    refine ⟨own, h, fun _ hh => hh, fun p => (and_iff_left RoundPages.none).symm, fun _ => rfl,
      fun _ _ => rfl, fun p _ hp => absurd hp RoundPages.none, fun _ _ _ => rfl, fun _ hx => hx⟩
  | succ n ih =>
    have hij : i < i + (n + 1) := by omega
    have ha := pageAddr_lt base i
    obtain ⟨f, hf⟩ := Option.ne_none_iff_exists'.mp (hmapped i (Nat.le_refl i) hij)
    obtain ⟨t, ht, -⟩ := h.entries (pageNumber base i) (pageNumber_lt base i) f hf
    have hround := h.unmapped_page ht hf
    have hstep : Paging.munmapFrom base (n + 1) i s = Paging.munmapFrom base n (i + 1)
        (Paging.withoutPage s t (pageNumber base i % 1024) f) := by
      rw [Paging.munmapFrom, h.munmapPage_eq ha ht hf]
      rfl
    have hend : i + 1 + n = i + (n + 1) := by omega
    obtain ⟨own', hrest⟩ := ih hround.inv (i + 1) (by omega) fun r hir hr =>
      (hround.pages _).mpr ⟨hmapped r (by omega) (by omega), pageNumber_ne (by omega) (by omega)⟩
    rw [hend] at hrest
    rw [hstep]
    have hpages : ∀ p, ¬ RoundPages base i (i + (n + 1)) p ↔
        p ≠ pageNumber base i ∧ ¬ RoundPages base (i + 1) (i + (n + 1)) p :=
      fun p => (not_congr (roundPages_succ hij)).trans not_or
    refine ⟨own', hrest.inv, fun s₀ hh => hrest.handed s₀ (hround.handed s₀ hh), fun p => ?_,
      fun k => (hrest.tables k).trans (hround.tables k),
      fun k hk => (hrest.dirs k hk).trans (hround.dirs k hk), fun p hp hold => ?_,
      fun p hp hno => ?_, fun x hx => hrest.used x (hround.used (x + n) hx)⟩
    · rw [hrest.pages p, hround.pages p, hpages p, and_assoc]
    · by_cases hlater : RoundPages base (i + 1) (i + (n + 1)) p
      · exact hrest.gone p hp hlater
      · rw [hrest.entries p hp hlater]
        exact hround.gone p hp (((roundPages_succ hij).mp hold).resolve_right hlater)
    · obtain ⟨hne, hlater⟩ := (hpages p).mp hno
      rw [hrest.entries p hp hlater, hround.entries p hp hne]

end SynapseKernel.Paging
