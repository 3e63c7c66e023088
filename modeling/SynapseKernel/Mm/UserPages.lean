import SynapseKernel.Mm.PageMap

/-! # Pages handed to user processes

`PagingReady` is a state whose directory and tables are in frames of their own,
whatever the pages are mapped to. From there on `UserInv` follows the frames that
are handed out: each belongs to a table or to one page of a user, and no frame has
two owners. The entries of all other pages are left open. `HandedOut` says that the
bitmap marks these frames and those it marked at the start. -/
namespace SynapseKernel.Paging
open SynapseKernel.Word SynapseKernel.ByteMemory SynapseKernel.Bitmap SynapseKernel.PageEntry
open SynapseKernel.Ownership

/-- The directory in frame `d` and the tables it names are in frames of their own, apart
from frame 0 and from the bitmap, and all these are marked. -/
structure PagingReady (s : State) (d : Nat) (tbl : Nat → Option Nat) : Prop where
  pageDir : s.kernelPageDir = d * 4096
  frameBitmap : s.frameBitmap = 0x100000
  total : s.totalFrames = 32768
  reserved : marked s 0 = true ∧ marked s 256 = true
  directory : d ≠ 0 ∧ d ≠ 256 ∧ d < 32768 ∧ marked s d = true
  dirs : ∀ i < 1024, Encodes (dirEntry s i) (tbl i)
  tables : ∀ i < 1024, ∀ t, tbl i = some t →
    t ≠ 0 ∧ t ≠ 256 ∧ t ≠ d ∧ t < 32768 ∧ marked s t = true
  injective : ∀ i < 1024, ∀ j < 1024, ∀ t, tbl i = some t → tbl j = some t → i = j

structure UserInv (s : State) (d : Nat) (own : Use → Option Nat) : Prop where
  pageDir : s.kernelPageDir = d * 4096
  frameBitmap : s.frameBitmap = 256 * 4096
  total : s.totalFrames = 32768
  null : own .null = some 0
  directory : own .directory = some d
  bitmap : own .bitmap = some 256
  owns : Owns (InUse s) own
  dirs : ∀ i < 1024, Encodes (frameWord s.mem d i) (own (.table i))
  low : ∀ i t, own (.table i) = some t → i < 1024
  entries : ∀ p < 2 ^ 20, ∀ f, own (.page p) = some f →
    ∃ t, own (.table (p / 1024)) = some t ∧ Encodes (frameWord s.mem t (p % 1024)) (some f)

/-- What was marked since `s₀` belongs to somebody, and no page has an older frame. -/
structure HandedOut (s₀ s : State) (own : Use → Option Nat) : Prop where
  marks : ∀ f < 32768, marked s f = true ↔ marked s₀ f = true ∨ ∃ u, own u = some f
  fresh : ∀ p f, own (.page p) = some f → marked s₀ f = false

theorem FreshDirectory.ready {s : State} {d : Nat} (h : FreshDirectory s d) :
    PagingReady s d fun _ => none := by
  refine ⟨h.pageDir, h.frameBitmap, h.total,
    ⟨(h.inUse 0 (.inl rfl)).2, (h.inUse 256 (.inr (.inr rfl))).2⟩,
    ⟨h.nonzero, h.apart, h.inUse d (.inr (.inl rfl))⟩, fun i hi => ?_, fun i _ t ht => ?_,
    fun i _ j _ t ht => ?_⟩
  · rw [h.zeroed i hi]
    rfl
  · cases ht
  · cases ht

variable {s₀ s s' : State} {d f t addr flags : Nat} {own : Use → Option Nat} {u : Use}
  {tbl : Nat → Option Nat}

/-- The frames that are not marked. -/
def clearFrames (s : State) : Finset Nat :=
  (Finset.range s.totalFrames).filter fun f => marked s f = false

/-- How many frames `alloc_frame` has left. -/
def framesLeft (s : State) : Nat := (clearFrames s).card

/-! ## Reading the structures -/

theorem UserInv.tablesInv (h : UserInv s d own) : TablesInv s d own :=
  ⟨h.pageDir, h.frameBitmap, h.total, h.null, h.directory, h.bitmap, h.owns, h.dirs⟩

theorem TablesInv.userInv (h : TablesInv s d own)
    (hlow : ∀ i t, own (.table i) = some t → i < 1024)
    (hentries : ∀ p < 2 ^ 20, ∀ f, own (.page p) = some f →
      ∃ t, own (.table (p / 1024)) = some t ∧ Encodes (frameWord s.mem t (p % 1024)) (some f)) :
    UserInv s d own :=
  ⟨h.pageDir, h.frameBitmap, h.total, h.null, h.directory, h.bitmap, h.owns, h.dirs, hlow, hentries⟩

theorem UserInv.table_ne (h : UserInv s d own) {i : Nat} (ht : own (.table i) = some t) :
    t ≠ d ∧ t ≠ 256 := h.tablesInv.table_ne ht

theorem UserInv.dir_ne (h : UserInv s d own) : d ≠ 256 := h.tablesInv.dir_ne

theorem UserInv.noTable (h : UserInv s d own) (ha : addr < 2 ^ 32)
    (ht : own (.table (addr / 4096 / 1024)) = none) : NoTable s d addr := h.tablesInv.noTable ha ht

theorem UserInv.hasTable (h : UserInv s d own) (ha : addr < 2 ^ 32)
    (ht : own (.table (addr / 4096 / 1024)) = some t) : HasTable s d addr t :=
  h.tablesInv.hasTable ha ht

theorem UserInv.absent_iff (h : UserInv s d own) {k : Nat} (hk : k < 1024) :
    dirEntry s k &&& pagePresent = 0 ↔ own (.table k) = none := by
  have hd := h.dirs k hk
  rw [dirEntry_eq h.pageDir, land_present]
  cases ht : own (.table k) with
  | none =>
    rw [ht] at hd
    exact iff_of_true hd rfl
  | some t =>
    rw [ht] at hd
    have hodd : frameWord s.mem d k % 2 = 1 := hd.2
    refine iff_of_false ?_ (Option.some_ne_none t)
    rw [hodd]
    decide

theorem UserInv.getPhysicalAddr (h : UserInv s d own) (ha : addr < 2 ^ 32)
    (hf : own (.page (addr / 4096)) = some f) :
    getPhysicalAddr s addr = f * 4096 + addr % 4096 := by
  obtain ⟨t, ht, he⟩ := h.entries (addr / 4096) (by omega) f hf
  exact (h.hasTable ha ht).getPhysicalAddr_present he

/-- A frame that is clear has no owner. -/
theorem UserInv.not_owned (h : UserInv s d own) (hclear : marked s f = false) (u : Use) :
    own u ≠ some f :=
  owns_clear h.owns hclear u

theorem HandedOut.clear_start (h : HandedOut s₀ s own) (hf : f < 32768)
    (hclear : marked s f = false) : marked s₀ f = false := by
  by_contra hm
  have hmark := (h.marks f hf).mpr (.inl (Bool.eq_true_of_not_eq_false hm))
  rw [hclear] at hmark
  cases hmark

/-! ## Starting -/

/-- Who owns what before a page is handed out. -/
def readyOwners (d : Nat) (tbl : Nat → Option Nat) : Use → Option Nat
  | .null => some 0
  | .directory => some d
  | .bitmap => some 256
  | .table i => if i < 1024 then tbl i else none
  | .page _ => none

theorem readyOwners_table {i : Nat} (hi : readyOwners d tbl (.table i) = some f) :
    i < 1024 ∧ tbl i = some f := by
  simp only [readyOwners] at hi
  split at hi
  · next hlt => exact ⟨hlt, hi⟩
  · cases hi

theorem PagingReady.inUse (h : PagingReady s d tbl) (u : Use) (f : Nat)
    (hu : readyOwners d tbl u = some f) : InUse s f := by
  cases u with
  | null => exact Option.some.inj hu ▸ ⟨by decide, h.reserved.1⟩
  | directory => exact Option.some.inj hu ▸ h.directory.2.2
  | bitmap => exact Option.some.inj hu ▸ ⟨by decide, h.reserved.2⟩
  | table i =>
    obtain ⟨hlt, ht⟩ := readyOwners_table hu
    exact (h.tables i hlt f ht).2.2.2
  | page p => cases hu

/-- The frame of a table is the frame of nothing but a table. -/
theorem PagingReady.apart (h : PagingReady s d tbl) {i : Nat} {w : Use} (hw : ∀ j, w ≠ .table j)
    (hi : readyOwners d tbl (.table i) = some f) : readyOwners d tbl w ≠ some f := by
  intro hwf
  obtain ⟨hlt, ht⟩ := readyOwners_table hi
  obtain ⟨h0, h256, hd, -⟩ := h.tables i hlt f ht
  cases w with
  | null => exact h0 (Option.some.inj hwf).symm
  | directory => exact hd (Option.some.inj hwf).symm
  | bitmap => exact h256 (Option.some.inj hwf).symm
  | table j => exact hw j rfl
  | page p => cases hwf

theorem PagingReady.owners_injective (h : PagingReady s d tbl) (u v : Use) (f : Nat)
    (hu : readyOwners d tbl u = some f) (hv : readyOwners d tbl v = some f) : u = v := by
  obtain ⟨hd0, hd256, -⟩ := h.directory
  cases u with
  | table i =>
    cases v with
    | table j =>
      obtain ⟨hi, hti⟩ := readyOwners_table hu
      obtain ⟨hj, htj⟩ := readyOwners_table hv
      rw [h.injective i hi j hj f hti htj]
    | _ => exact absurd hv (h.apart (fun j hj => Use.noConfusion hj) hu)
  | page p => cases hu
  | _ =>
    cases v with
    | table j => exact absurd hu (h.apart (fun i hi => Use.noConfusion hi) hv)
    | page p => cases hv
    | _ =>
      simp only [readyOwners, Option.some.injEq] at hu hv
      first
        | rfl
        | omega

theorem PagingReady.inv (h : PagingReady s d tbl) :
    UserInv s d (readyOwners d tbl) ∧ HandedOut s s (readyOwners d tbl) := by
  refine ⟨⟨h.pageDir, h.frameBitmap, h.total, rfl, rfl, rfl, ⟨h.inUse, h.owners_injective⟩,
    fun i hi => ?_, fun i f hi => (readyOwners_table hi).1, fun p _ f hf => ?_⟩, fun f hf => ?_,
    fun p f hf => ?_⟩
  · have hd := h.dirs i hi
    rw [dirEntry_eq h.pageDir] at hd
    simp only [readyOwners, if_pos hi]
    exact hd
  · cases hf
  · refine ⟨.inl, fun hor => hor.elim id ?_⟩
    rintro ⟨u, hu⟩
    exact (h.inUse u f hu).2
  · cases hf

/-- Whoever owns what, the structures are in order. -/
theorem UserInv.ready (h : UserInv s d own) : PagingReady s d fun i => own (.table i) := by
  have hin := h.owns.inUse
  refine ⟨h.pageDir, h.frameBitmap, h.total, ⟨(hin _ _ h.null).2, (hin _ _ h.bitmap).2⟩,
    ⟨h.owns.ne h.directory h.null (by simp), h.dir_ne, hin _ _ h.directory⟩, fun i hi => ?_,
    fun i _ t ht => ⟨h.owns.ne ht h.null (by simp), (h.table_ne ht).2, (h.table_ne ht).1,
      hin _ _ ht⟩, fun i _ j _ t hi hj => Use.table.inj (h.owns.injective _ _ t hi hj)⟩
  rw [dirEntry_eq h.pageDir]
  exact h.dirs i hi

/-! ## Handing out and taking back -/

theorem HandedOut.give (h : HandedOut s₀ s own) (hnone : own u = none)
    (hmark : ∀ g < 32768, marked s' g = (decide (g = f) || marked s g))
    (hfresh : marked s₀ f = false) : HandedOut s₀ s' (Function.update own u (some f)) := by
  refine ⟨fun g hg => ?_, fun p g hp => ?_⟩
  · rw [hmark g hg, Bool.or_eq_true, decide_eq_true_iff, h.marks g hg]
    constructor
    · rintro (rfl | hm | ⟨v, hv⟩)
      · exact .inr ⟨u, Function.update_self _ _ _⟩
      · exact .inl hm
      · have hvu : v ≠ u := by
          rintro rfl
          rw [hnone] at hv
          cases hv
        exact .inr ⟨v, (Function.update_of_ne hvu _ _).trans hv⟩
    · rintro (hm | ⟨v, hv⟩)
      · exact .inr (.inl hm)
      · by_cases hvu : v = u
        · rw [hvu, Function.update_self] at hv
          exact .inl (Option.some.inj hv).symm
        · rw [Function.update_of_ne hvu] at hv
          exact .inr (.inr ⟨v, hv⟩)
  · by_cases hpu : Use.page p = u
    · rw [hpu, Function.update_self] at hp
      exact Option.some.inj hp ▸ hfresh
    · rw [Function.update_of_ne hpu] at hp
      exact h.fresh p g hp

/-- A page and its table are handed out together. -/
theorem HandedOut.give_both (h : HandedOut s₀ s own) {p i : Nat} (hp : own (.page p) = none)
    (hi : own (.table i) = none)
    (hmark : ∀ g < 32768, marked s' g = (decide (g = t) || (decide (g = f) || marked s g)))
    (hf : marked s₀ f = false) (ht : marked s₀ t = false) :
    HandedOut s₀ s'
      (Function.update (Function.update own (.table i) (some t)) (.page p) (some f)) := by
  have hpage : HandedOut s₀ (takeFrame s f) (Function.update own (.page p) (some f)) :=
    h.give hp (fun g _ => marked_takeFrame s f g) hf
  rw [Function.update_comm (by simp)]
  refine hpage.give ((Function.update_of_ne (by simp) _ _).trans hi) (fun g hg => ?_) ht
  rw [hmark g hg, marked_takeFrame]

theorem HandedOut.drop (h : HandedOut s₀ s own) (hi : UserInv s d own) {p : Nat}
    (hf : own (.page p) = some f)
    (hmark : ∀ g < 32768, marked s' g = (!decide (g = f) && marked s g)) :
    HandedOut s₀ s' (Function.update own (.page p) none) := by
  refine ⟨fun g hg => ?_, fun q g hq => ?_⟩
  · rw [hmark g hg, Bool.and_eq_true, Bool.not_eq_true', decide_eq_false_iff_not, h.marks g hg]
    constructor
    · rintro ⟨hne, hm | ⟨v, hv⟩⟩
      · exact .inl hm
      · have hvp : v ≠ .page p := by
          rintro rfl
          exact hne (Option.some.inj (hv.symm.trans hf))
        exact .inr ⟨v, (Function.update_of_ne hvp _ _).trans hv⟩
    · rintro (hm | ⟨v, hv⟩)
      · refine ⟨?_, .inl hm⟩
        rintro rfl
        rw [h.fresh p g hf] at hm
        cases hm
      · by_cases hvp : v = .page p
        · rw [hvp, Function.update_self] at hv
          cases hv
        · rw [Function.update_of_ne hvp] at hv
          exact ⟨hi.owns.ne hv hf hvp, .inr ⟨v, hv⟩⟩
  · by_cases hqp : q = p
    · rw [hqp, Function.update_self] at hq
      cases hq
    · rw [Function.update_of_ne (by simp [hqp])] at hq
      exact h.fresh q g hq

/-! ## What the operations do -/

/-- A frame that is taken belongs to nobody yet. -/
theorem UserInv.takeFrame (h : UserInv s d own) (hf : f < 32768) :
    UserInv (takeFrame s f) d own := by
  refine (h.tablesInv.takeFrame hf).userInv h.low fun p hp g hg => ?_
  obtain ⟨t, ht, he⟩ := h.entries p hp g hg
  rw [← frameWord_takeFrame h.frameBitmap hf (h.table_ne ht).2 (by omega)] at he
  exact ⟨t, ht, he⟩

/-- A page gets a frame in use that nobody owns. -/
theorem UserInv.withPage (h : UserInv s d own) {p : Nat} (hfl : flags < 4096)
    (ht : own (.table (p / 1024)) = some t) (hf : InUse s f) (hnew : ∀ u, own u ≠ some f) :
    UserInv (withPage s t (p % 1024) (f * 4096) flags) d
      (Function.update own (.page p) (some f)) := by
  refine (h.tablesInv.withPage ht hf hnew _ _).userInv
    (fun i g hi => h.low i g ((Function.update_of_ne (by simp) _ _).symm.trans hi))
    fun q hq g hg => ?_
  rw [Function.update_of_ne (by simp)]
  by_cases hqp : q = p
  · rw [hqp, Function.update_self] at hg
    rw [hqp]
    refine ⟨t, ht, ?_⟩
    rw [← Option.some.inj hg, Paging.withPage, frameWord_setFrameWord]
    exact encodes_frame hf.1 hfl
  · -- another page: another table, or another entry of this one
    rw [Function.update_of_ne (by simp [hqp])] at hg
    obtain ⟨u, hu, he⟩ := h.entries q hq g hg
    refine ⟨u, hu, ?_⟩
    rw [Paging.withPage, frameWord_otherPage h.owns hqp ht hu]
    exact he

/-- A clear frame becomes the table of an absent directory entry. -/
theorem UserInv.withTable (h : UserInv s d own) {i : Nat} (hi : i < 1024) (hfl : flags < 4096)
    (hnone : own (.table i) = none) (ht : t < 32768) (hclear : marked s t = false) :
    UserInv (withTable s d t i flags) d (Function.update own (.table i) (some t)) := by
  refine (h.tablesInv.withTable hi hfl ht hclear).userInv (fun k g hk => ?_) fun p hp g hg => ?_
  · by_cases hki : k = i
    · exact hki ▸ hi
    · rw [Function.update_of_ne (by simp [hki])] at hk
      exact h.low k g hk
  · rw [Function.update_of_ne (by simp)] at hg
    obtain ⟨u, hu, he⟩ := (h.takeFrame ht).entries p hp g hg
    have hpi : p / 1024 ≠ i := by
      intro hpi
      rw [hpi, hnone] at hu
      cases hu
    have hut : u ≠ t := fun heq => h.not_owned hclear _ (heq ▸ hu)
    rw [Function.update_of_ne (by simp [hpi])]
    refine ⟨u, hu, ?_⟩
    rw [frameWord_withTable hi hut (.inl (h.table_ne hu).1) (by omega)]
    exact he

/-- The entry of a page is cleared and its frame freed. -/
theorem UserInv.withoutPage (h : UserInv s d own) {p : Nat}
    (ht : own (.table (p / 1024)) = some t) (hf : own (.page p) = some f) :
    UserInv (withoutPage s t (p % 1024) f) d (Function.update own (.page p) none) := by
  refine (h.tablesInv.withoutPage ht hf).userInv
    (fun i g hi => h.low i g ((Function.update_of_ne (by simp) _ _).symm.trans hi))
    fun q hq g hg => ?_
  have hqp : q ≠ p := by
    rintro rfl
    rw [Function.update_self] at hg
    cases hg
  rw [Function.update_of_ne (by simp [hqp])] at hg
  obtain ⟨u, hu, he⟩ := h.entries q hq g hg
  rw [Function.update_of_ne (by simp)]
  refine ⟨u, hu, ?_⟩
  rw [Paging.withoutPage, frameWord_otherPage h.owns hqp ht hu,
    frameWord_freeFrame h.frameBitmap h.total f (h.table_ne hu).2 (by omega)]
  exact he

/-! ## Mapping one page -/

theorem LowestClear.lt (h : UserInv s d own) (hf : LowestClear s f) : f < 32768 := by
  rw [← h.total]
  exact hf.1

/-- Frame 0 is never clear. -/
theorem LowestClear.ne_zero (h : UserInv s d own) (hf : LowestClear s f) : f ≠ 0 :=
  fun he => h.not_owned hf.2.1 .null (he ▸ h.null)

/-- The page's table is there: the page gets the lowest clear frame. -/
theorem UserInv.mapPage_table (h : UserInv s d own) (ha : addr < 2 ^ 32) (hfl : flags < 4096)
    (ht : own (.table (addr / 4096 / 1024)) = some t) (hf : LowestClear s f) :
    UserInv (mapPage (Paging.takeFrame s f) addr (f * 4096) flags) d
        (Function.update own (.page (addr / 4096)) (some f)) ∧
      ∀ g < 32768, marked (mapPage (Paging.takeFrame s f) addr (f * 4096) flags) g =
        (decide (g = f) || marked s g) := by
  have hlt := hf.lt h
  have h' := h.takeFrame hlt
  have hin : InUse (Paging.takeFrame s f) f := ⟨hlt, by simp⟩
  rw [(h'.hasTable ha ht).mapPage]
  refine ⟨h'.withPage hfl ht hin (h.not_owned hf.2.1), fun g hg => ?_⟩
  rw [marked_withPage h'.frameBitmap _ _ (by omega) (h.table_ne ht).2 hg, marked_takeFrame]

/-- The page's table is missing: it gets the next clear frame. -/
theorem UserInv.mapPage_new (h : UserInv s d own) (ha : addr < 2 ^ 32) (hfl : flags < 4096)
    (hnone : own (.table (addr / 4096 / 1024)) = none) (hf : LowestClear s f)
    (hc : LowestClear (Paging.takeFrame s f) t) :
    UserInv (mapPage (Paging.takeFrame s f) addr (f * 4096) flags) d
        (Function.update (Function.update own (.table (addr / 4096 / 1024)) (some t))
          (.page (addr / 4096)) (some f)) ∧
      ∀ g < 32768, marked (mapPage (Paging.takeFrame s f) addr (f * 4096) flags) g =
        (decide (g = t) || (decide (g = f) || marked s g)) := by
  have hlt := hf.lt h
  have h' := h.takeFrame hlt
  have htlt := hc.lt h'
  have htfree := h'.not_owned hc.2.1
  have ht0 := hc.ne_zero h'
  have ht256 : t ≠ 256 := fun he => htfree .bitmap (he ▸ h.bitmap)
  have hft : f ≠ t := ne_of_lowestClear hc
  have h'' := h'.withTable (i := addr / 4096 / 1024) (by omega) hfl hnone htlt hc.2.1
  have hmark : ∀ g < 32768,
      marked (Paging.withTable (Paging.takeFrame s f) d t (addr / 4096 / 1024) flags) g =
        (decide (g = t) || (decide (g = f) || marked s g)) := by
    intro g hg
    rw [marked_withTable h'.frameBitmap h'.dir_ne (by omega) ht256 hg, marked_takeFrame]
  have hin : InUse (Paging.withTable (Paging.takeFrame s f) d t (addr / 4096 / 1024) flags) f := by
    refine ⟨hlt, ?_⟩
    rw [hmark f hlt, decide_eq_true (rfl : f = f), Bool.true_or, Bool.or_true]
  have hfree : ∀ u, Function.update own (.table (addr / 4096 / 1024)) (some t) u ≠ some f := by
    intro u
    by_cases hu : u = .table (addr / 4096 / 1024)
    · rw [hu, Function.update_self]
      exact fun hte => hft (Option.some.inj hte).symm
    · rw [Function.update_of_ne hu]
      exact h.not_owned hf.2.1 u
  rw [(h'.noTable ha hnone).mapPage hc ht0 htlt,
    (h''.hasTable ha (Function.update_self _ _ _)).setPageEntry]
  refine ⟨h''.withPage hfl (Function.update_self _ _ _) hin hfree, fun g hg => ?_⟩
  rw [marked_withPage h''.frameBitmap _ _ (by omega) ht256 hg, hmark g hg]

/-! ## Counting frames -/

theorem mem_clearFrames : f ∈ clearFrames s ↔ f < s.totalFrames ∧ marked s f = false := by
  rw [clearFrames, Finset.mem_filter, Finset.mem_range]

/-- With a frame left `alloc_frame` finds one. -/
theorem exists_lowestClear (hleft : 0 < framesLeft s) : ∃ f, LowestClear s f := by
  obtain ⟨g, hg⟩ := Finset.card_pos.mp hleft
  obtain ⟨hlt, hclear⟩ := mem_clearFrames.mp hg
  rcases allocFrame_cases s with ⟨f, hf, -⟩ | ⟨hall, -⟩
  · exact ⟨f, hf⟩
  · rw [hall g hlt] at hclear
    cases hclear

end SynapseKernel.Paging
