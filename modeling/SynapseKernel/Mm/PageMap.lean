import SynapseKernel.Lib.Ownership
import SynapseKernel.Mm.PageWalk

/-! # The two-level page table is a flat map of pages

The directory, the page tables, the bitmap and the mapped pages each own a
frame of the allocator, and no frame has two owners (`PageInv`). As long as
that holds, a store to a table cannot reach another table, and a frame given
back cannot still be in use; the translation `get_physical_addr` computes is
then the one of a flat map from pages to frames. -/
namespace SynapseKernel.Paging
open SynapseKernel.Word SynapseKernel.ByteMemory SynapseKernel.Bitmap SynapseKernel.PageEntry
open SynapseKernel.Ownership

/-- What a frame may be used for. -/
inductive Use
  | null
  | directory
  | bitmap
  | table (i : Nat)
  | page (p : Nat)
deriving DecidableEq

/-- A physical frame that the bitmap marks as used. -/
def InUse (s : State) (f : Nat) : Prop := f < 32768 ∧ marked s f = true

/-- The paging structures encode the frames that tables and pages own. -/
structure PageInv (s : State) (d : Nat) (own : Use → Option Nat) : Prop where
  pageDir : s.kernelPageDir = d * 4096
  frameBitmap : s.frameBitmap = 256 * 4096
  total : s.totalFrames = 32768
  null : own .null = some 0
  directory : own .directory = some d
  bitmap : own .bitmap = some 256
  owns : Owns (InUse s) own
  dirs : ∀ i < 1024, Encodes (frameWord s.mem d i) (own (.table i))
  entries : ∀ p < 2 ^ 20, ∀ t, own (.table (p / 1024)) = some t →
    Encodes (frameWord s.mem t (p % 1024)) (own (.page p))
  untabled : ∀ p < 2 ^ 20, own (.table (p / 1024)) = none → own (.page p) = none

/-- What `PageInv` says of the directory, the tables and the owners of frames, whatever
the pages are mapped to. -/
structure TablesInv (s : State) (d : Nat) (own : Use → Option Nat) : Prop where
  pageDir : s.kernelPageDir = d * 4096
  frameBitmap : s.frameBitmap = 256 * 4096
  total : s.totalFrames = 32768
  null : own .null = some 0
  directory : own .directory = some d
  bitmap : own .bitmap = some 256
  owns : Owns (InUse s) own
  dirs : ∀ i < 1024, Encodes (frameWord s.mem d i) (own (.table i))

variable {s : State} {d f t addr flags : Nat} {own : Use → Option Nat}

/-! ## Reading the structures -/

theorem PageInv.tablesInv (h : PageInv s d own) : TablesInv s d own :=
  ⟨h.pageDir, h.frameBitmap, h.total, h.null, h.directory, h.bitmap, h.owns, h.dirs⟩

theorem TablesInv.pageInv (h : TablesInv s d own)
    (hentries : ∀ p < 2 ^ 20, ∀ t, own (.table (p / 1024)) = some t →
      Encodes (frameWord s.mem t (p % 1024)) (own (.page p)))
    (huntabled : ∀ p < 2 ^ 20, own (.table (p / 1024)) = none → own (.page p) = none) :
    PageInv s d own :=
  ⟨h.pageDir, h.frameBitmap, h.total, h.null, h.directory, h.bitmap, h.owns, h.dirs, hentries,
    huntabled⟩

theorem TablesInv.dir_ne (h : TablesInv s d own) : d ≠ 256 :=
  h.owns.ne h.directory h.bitmap (by decide)

theorem TablesInv.table_ne (h : TablesInv s d own) {i : Nat} (ht : own (.table i) = some t) :
    t ≠ d ∧ t ≠ 256 :=
  ⟨h.owns.ne ht h.directory (by simp), h.owns.ne ht h.bitmap (by simp)⟩

theorem TablesInv.noTable (h : TablesInv s d own) (ha : addr < 2 ^ 32)
    (ht : own (.table (addr / 4096 / 1024)) = none) : NoTable s d addr := by
  have hi := h.dirs (addr / 4096 / 1024) (by omega)
  rw [ht] at hi
  exact ⟨h.pageDir, hi⟩

theorem TablesInv.hasTable (h : TablesInv s d own) (ha : addr < 2 ^ 32)
    (ht : own (.table (addr / 4096 / 1024)) = some t) : HasTable s d addr t := by
  have hi := h.dirs (addr / 4096 / 1024) (by omega)
  rw [ht] at hi
  exact ⟨h.pageDir, hi⟩

/-- The physical address of a page's frame, `0` without one. -/
def flatAddr (frame : Option Nat) (addr : Nat) : Nat :=
  match frame with
  | none => 0
  | some f => f * 4096 + addr % 4096

/-- The walk through directory and table finds the page's frame. -/
theorem PageInv.getPhysicalAddr (h : PageInv s d own) (ha : addr < 2 ^ 32) :
    getPhysicalAddr s addr = flatAddr (own (.page (addr / 4096))) addr := by
  cases ht : own (.table (addr / 4096 / 1024)) with
  | none =>
    rw [(h.tablesInv.noTable ha ht).getPhysicalAddr, h.untabled _ (by omega) ht]
    rfl
  | some t =>
    have he := h.entries (addr / 4096) (by omega) t ht
    cases hp : own (.page (addr / 4096)) with
    | none =>
      rw [hp] at he
      exact (h.tablesInv.hasTable ha ht).getPhysicalAddr_absent he
    | some f =>
      rw [hp] at he
      exact (h.tablesInv.hasTable ha ht).getPhysicalAddr_present he

/-- A frame that is clear has no owner. -/
theorem owns_clear (h : Owns (InUse s) own) (hclear : marked s f = false) (u : Use) :
    own u ≠ some f := by
  refine h.not_owned (fun hin => ?_) u
  have hm := hin.2
  rw [hclear] at hm
  cases hm

/-- Once `f` is taken, the next clear frame is another one. -/
theorem ne_of_lowestClear (hc : LowestClear (takeFrame s f) t) : f ≠ t := by
  rintro rfl
  have hm := hc.2.1
  rw [marked_takeFrame] at hm
  simp at hm

/-- A store to the entry of one page is not seen in the entry of another. -/
theorem frameWord_otherPage (h : Owns (InUse s) own) {m : Mem} {p q t' v : Nat} (hqp : q ≠ p)
    (ht : own (.table (p / 1024)) = some t) (ht' : own (.table (q / 1024)) = some t') :
    frameWord (setFrameWord m t (p % 1024) v) t' (q % 1024) = frameWord m t' (q % 1024) := by
  refine frameWord_setFrameWord_ne (by omega) (by omega) ?_
  by_cases hdir : q / 1024 = p / 1024
  · exact .inr (by omega)
  · exact .inl (h.ne ht ht' (by simp; omega))

/-! ## Changing the structures -/

/-- Frames that nobody owns may be taken. -/
theorem TablesInv.takeFrame (h : TablesInv s d own) (hf : f < 32768) :
    TablesInv (takeFrame s f) d own := by
  refine ⟨h.pageDir, h.frameBitmap, h.total, h.null, h.directory, h.bitmap,
    h.owns.mono fun u g hu => ?_, fun i hi => ?_⟩
  · have hg := h.owns.inUse u g hu
    refine ⟨hg.1, ?_⟩
    rw [marked_takeFrame, hg.2, Bool.or_true]
  · rw [frameWord_takeFrame h.frameBitmap hf h.dir_ne hi]
    exact h.dirs i hi

theorem PageInv.takeFrame (h : PageInv s d own) (hf : f < 32768) :
    PageInv (takeFrame s f) d own := by
  refine (h.tablesInv.takeFrame hf).pageInv (fun p hp t ht => ?_) h.untabled
  rw [frameWord_takeFrame h.frameBitmap hf (h.tablesInv.table_ne ht).2 (by omega)]
  exact h.entries p hp t ht

theorem encodes_frame (hf : f < 32768) (hfl : flags < 4096) :
    Encodes (((f * 4096 &&& 0xFFFFF000) ||| flags ||| 1) % 2 ^ 32) (some f) := by
  have hentry := encodes_entry (x := f * 4096) (by omega) hfl
  rw [Nat.mul_div_cancel f (by decide)] at hentry
  exact hentry

/-- A page gets a frame in use that nobody owns. -/
theorem TablesInv.withPage (h : TablesInv s d own) {p : Nat}
    (ht : own (.table (p / 1024)) = some t) (hf : InUse s f) (hnew : ∀ u, own u ≠ some f)
    (pa flags : Nat) :
    TablesInv (withPage s t (p % 1024) pa flags) d (Function.update own (.page p) (some f)) := by
  have htne := h.table_ne ht
  have hgive := h.owns.give hf hnew (u := .page p)
  refine ⟨h.pageDir, h.frameBitmap, h.total, ?_, ?_, ?_, hgive.mono fun u g hu => ?_,
    fun i hi => ?_⟩
  · rw [Function.update_of_ne (by simp), h.null]
  · rw [Function.update_of_ne (by simp), h.directory]
  · rw [Function.update_of_ne (by simp), h.bitmap]
  · have hg := hgive.inUse u g hu
    exact ⟨hg.1, (marked_withPage h.frameBitmap _ _ (by omega) htne.2 hg.1).trans hg.2⟩
  · rw [Function.update_of_ne (by simp), Paging.withPage,
      frameWord_setFrameWord_ne (by omega) hi (.inl htne.1)]
    exact h.dirs i hi

theorem PageInv.setPageEntry (h : PageInv s d own) (ha : addr < 2 ^ 32) (hfl : flags < 4096)
    (ht : own (.table (addr / 4096 / 1024)) = some t) (hf : InUse s f)
    (hnew : ∀ u, own u ≠ some f) :
    PageInv (setPageEntry s addr (f * 4096) flags) d
      (Function.update own (.page (addr / 4096)) (some f)) := by
  rw [(h.tablesInv.hasTable ha ht).setPageEntry]
  refine (h.tablesInv.withPage ht hf hnew _ _).pageInv (fun p hp u hu => ?_) fun p hp hu => ?_
  · rw [Function.update_of_ne (by simp)] at hu
    rw [withPage]
    by_cases hpa : p = addr / 4096
    · rw [hpa, ht] at hu
      obtain rfl := Option.some.inj hu
      rw [hpa, Function.update_self, frameWord_setFrameWord]
      exact encodes_frame hf.1 hfl
    · -- another page: another table, or another entry of this one
      rw [Function.update_of_ne (by simp [hpa]), frameWord_otherPage h.owns hpa ht hu]
      exact h.entries p hp u hu
  · rw [Function.update_of_ne (by simp)] at hu
    by_cases hpa : p = addr / 4096
    · rw [hpa, ht] at hu
      cases hu
    · rw [Function.update_of_ne (by simp [hpa])]
      exact h.untabled p hp hu

/-- The state once `map_page` has made frame `t` the table of directory entry `i`. -/
def withTable (s : State) (d t i flags : Nat) : State :=
  { takeFrame s t with
    mem := setFrameWord (fill (takeFrame s t).mem (t * 4096) 4096 0) d i
      ((t * 4096 &&& 0xFFFFF000) ||| pagePresent ||| flags) }

theorem createPageTable_eq (hc : LowestClear s t) (h0 : t ≠ 0) (ht : t < 32768) :
    createPageTable s =
      (t * 4096, { takeFrame s t with mem := fill (takeFrame s t).mem (t * 4096) 4096 0 }) := by
  have hphys : u32 (t * pageSize) = t * 4096 := u32_of_lt (by simp only [pageSize]; omega)
  simp only [createPageTable, hc.allocFrame, if_neg h0, hphys]

/-- `map_page` makes a table first where there is none. -/
theorem NoTable.mapPage (h : NoTable s d addr) (hc : LowestClear s t) (h0 : t ≠ 0)
    (ht : t < 32768) (pa : Nat) : mapPage s addr pa flags =
      Paging.setPageEntry (withTable s d t (addr / 4096 / 1024) flags) addr pa flags := by
  have hphys : t * 4096 ≠ 0 := by omega
  rw [Paging.mapPage, if_pos h.absent, createPageTable_eq hc h0 ht]
  simp only [if_neg hphys, withTable, h.pageDir, dirIdx_eq, Paging.takeFrame]
  rfl

/-- Making a table marks its frame and no other. -/
theorem marked_withTable (hb : s.frameBitmap = 256 * 4096) (hd : d ≠ 256) {i g : Nat}
    (hi : i < 1024) (ht : t ≠ 256) (hg : g < 32768) :
    marked (withTable s d t i flags) g = (decide (g = t) || marked s g) := by
  rw [← marked_takeFrame, marked, marked]
  simp only [withTable, Paging.takeFrame, hb]
  rw [bit_setFrameWord hg hi hd, bit_fill hg ht]

/-- The directory entry of the new table names its frame. -/
theorem encodes_withTable (ht : t < 32768) (hfl : flags < 4096) (i : Nat) :
    Encodes (frameWord (withTable s d t i flags).mem d i) (some t) := by
  rw [withTable, frameWord_setFrameWord, pagePresent, Nat.lor_assoc, Nat.lor_comm 1 flags,
    ← Nat.lor_assoc]
  exact encodes_frame ht hfl

/-- Making a table changes its own words and one of the directory. -/
theorem frameWord_withTable {i g k : Nat} (hi : i < 1024) (hg : g ≠ t) (hgk : g ≠ d ∨ k ≠ i)
    (hk : k < 1024) :
    frameWord (withTable s d t i flags).mem g k = frameWord (takeFrame s t).mem g k := by
  rw [withTable, frameWord_setFrameWord_ne hi hk (by omega), frameWord_fill_ne hk (Ne.symm hg)]

/-- A clear frame becomes the table of an absent directory entry. -/
theorem TablesInv.withTable (h : TablesInv s d own) {i : Nat} (hi : i < 1024)
    (hfl : flags < 4096) (ht : t < 32768) (hclear : marked s t = false) :
    TablesInv (withTable s d t i flags) d (Function.update own (.table i) (some t)) := by
  have hfree : ∀ u, own u ≠ some t := owns_clear h.owns hclear
  have h' := h.takeFrame ht
  have htd : t ≠ d := fun he => hfree .directory (he ▸ h.directory)
  have ht256 : t ≠ 256 := fun he => hfree .bitmap (he ▸ h.bitmap)
  have hgive := h'.owns.give (u := .table i) (x := t) ⟨ht, by simp⟩ hfree
  refine ⟨h.pageDir, h.frameBitmap, h.total, ?_, ?_, ?_, hgive.mono fun u g hu => ?_,
    fun k hk => ?_⟩
  · rw [Function.update_of_ne (by simp), h.null]
  · rw [Function.update_of_ne (by simp), h.directory]
  · rw [Function.update_of_ne (by simp), h.bitmap]
  · have hg := hgive.inUse u g hu
    refine ⟨hg.1, ?_⟩
    rw [marked_withTable h.frameBitmap h.dir_ne hi ht256 hg.1, ← marked_takeFrame]
    exact hg.2
  · by_cases hki : k = i
    · rw [hki, Function.update_self]
      exact encodes_withTable ht hfl i
    · rw [Function.update_of_ne (by simp [hki]), frameWord_withTable hi (Ne.symm htd) (.inr hki) hk]
      exact h'.dirs k hk

theorem PageInv.withTable (h : PageInv s d own) {i : Nat} (hi : i < 1024) (hfl : flags < 4096)
    (hnone : own (.table i) = none) (ht : t < 32768) (hclear : marked s t = false) :
    PageInv (withTable s d t i flags) d (Function.update own (.table i) (some t)) := by
  have hfree : ∀ u, own u ≠ some t := owns_clear h.owns hclear
  have h' := h.takeFrame ht
  have htd : t ≠ d := fun he => hfree .directory (he ▸ h.directory)
  refine (h.tablesInv.withTable hi hfl ht hclear).pageInv (fun p hp u hu => ?_) fun p hp hu => ?_
  · rw [Function.update_of_ne (by simp)]
    by_cases hpi : p / 1024 = i
    · -- the new table is empty, and so was this part of the map
      rw [hpi, Function.update_self] at hu
      obtain rfl := Option.some.inj hu
      have hpage := h.untabled p hp (by rw [hpi]; exact hnone)
      rw [hpage, Paging.withTable, frameWord_setFrameWord_ne hi (by omega) (.inl (Ne.symm htd)),
        frameWord_fill (by omega)]
      rfl
    · rw [Function.update_of_ne (by simp [hpi])] at hu
      have hut : u ≠ t := fun he => hfree _ (he ▸ hu)
      rw [frameWord_withTable hi hut (.inl (h.tablesInv.table_ne hu).1) (by omega)]
      exact h'.entries p hp u hu
  · rw [Function.update_of_ne (by simp)]
    by_cases hpi : p / 1024 = i
    · rw [hpi, Function.update_self] at hu
      cases hu
    · rw [Function.update_of_ne (by simp [hpi])] at hu
      exact h.untabled p hp hu

/-- Only the freed frame leaves the pool. -/
theorem owns_freeFrame {u : Use} (h : Owns (InUse s) own) (hf : own u = some f) :
    Owns (InUse (freeFrame s f)) (Function.update own u none) := by
  refine h.drop fun g hg hin => ⟨hin.1, ?_⟩
  have hgf : g ≠ f := fun he => hg (by rw [hf, he])
  rw [marked_freeFrame, hin.2]
  simp [hgf]

/-- The entry of a page is cleared and its frame freed. -/
theorem TablesInv.withoutPage (h : TablesInv s d own) {p : Nat}
    (ht : own (.table (p / 1024)) = some t) (hf : own (.page p) = some f) :
    TablesInv (withoutPage s t (p % 1024) f) d (Function.update own (.page p) none) := by
  have htne := h.table_ne ht
  have hdrop := owns_freeFrame h.owns hf
  obtain ⟨hdir, hbitmap, htotal⟩ := freeFrame_fields s f
  refine ⟨hdir.trans h.pageDir, hbitmap.trans h.frameBitmap, htotal.trans h.total,
    ?_, ?_, ?_, hdrop.mono fun u g hu => ?_, fun i hi => ?_⟩
  · rw [Function.update_of_ne (by simp), h.null]
  · rw [Function.update_of_ne (by simp), h.directory]
  · rw [Function.update_of_ne (by simp), h.bitmap]
  · have hg := hdrop.inUse u g hu
    exact ⟨hg.1, (marked_withoutPage h.frameBitmap (by omega) htne.2 hg.1).trans hg.2⟩
  · rw [Function.update_of_ne (by simp), Paging.withoutPage,
      frameWord_setFrameWord_ne (by omega) hi (.inl htne.1),
      frameWord_freeFrame h.frameBitmap h.total f h.dir_ne hi]
    exact h.dirs i hi

theorem PageInv.dropPage (h : PageInv s d own) {p : Nat}
    (ht : own (.table (p / 1024)) = some t) (hf : own (.page p) = some f) :
    PageInv (withoutPage s t (p % 1024) f) d (Function.update own (.page p) none) := by
  refine (h.tablesInv.withoutPage ht hf).pageInv (fun q hq u hu => ?_) fun q hq hu => ?_
  · rw [Function.update_of_ne (by simp)] at hu
    rw [withoutPage]
    by_cases hqp : q = p
    · rw [hqp, ht] at hu
      obtain rfl := Option.some.inj hu
      rw [hqp, Function.update_self, frameWord_setFrameWord]
      rfl
    · rw [Function.update_of_ne (by simp [hqp]), frameWord_otherPage h.owns hqp ht hu,
        frameWord_freeFrame h.frameBitmap h.total f (h.tablesInv.table_ne hu).2 (by omega)]
      exact h.entries q hq u hu
  · rw [Function.update_of_ne (by simp)] at hu
    by_cases hqp : q = p
    · rw [hqp, ht] at hu
      cases hu
    · rw [Function.update_of_ne (by simp [hqp])]
      exact h.untabled q hq hu

/-- The page of `addr` gives its frame back. -/
theorem PageInv.unmapPage (h : PageInv s d own) (ha : addr < 2 ^ 32) :
    PageInv (unmapPage s addr) d (Function.update own (.page (addr / 4096)) none) := by
  have hsame : own (.page (addr / 4096)) = none →
      Function.update own (.page (addr / 4096)) none = own := fun hp => by
    rw [← hp, Function.update_eq_self]
  cases ht : own (.table (addr / 4096 / 1024)) with
  | none =>
    rw [(h.tablesInv.noTable ha ht).unmapPage, hsame (h.untabled _ (by omega) ht)]
    exact h
  | some t =>
    have he := h.entries (addr / 4096) (by omega) t ht
    cases hp : own (.page (addr / 4096)) with
    | none =>
      rw [hp] at he
      rw [(h.tablesInv.hasTable ha ht).unmapPage_absent he, hsame hp]
      exact h
    | some f =>
      rw [hp] at he
      rw [(h.tablesInv.hasTable ha ht).unmapPage_present he]
      exact h.dropPage ht hp

/-! ## Runs -/

/-- A flat map from pages to frames. -/
abbrev FlatMap := Nat → Option Nat

/-- `f = alloc_frame(); if (f != 0) map_page(addr, f * 4096, flags);`. -/
def mapFrame (s : State) (addr flags : Nat) : State :=
  let (f, s) := allocFrame s
  if f = 0 then s else mapPage s addr (u32 (f * pageSize)) flags

/-- The table that `map_page` needs is there, or a frame is left for it. -/
def TableAvailable (s : State) (addr : Nat) : Prop :=
  ¬ (dirEntry s (dirIdx addr) &&& pagePresent = 0) ∨ ∃ i < s.totalFrames, marked s i = false

/-- A zeroed directory in a frame of its own; of the other frames any may be in use. -/
structure FreshDirectory (s : State) (d : Nat) : Prop where
  pageDir : s.kernelPageDir = d * 4096
  frameBitmap : s.frameBitmap = 0x100000
  total : s.totalFrames = 32768
  nonzero : d ≠ 0
  apart : d ≠ 256
  inUse : ∀ f, f = 0 ∨ f = d ∨ f = 256 → InUse s f
  zeroed : ∀ i < 1024, dirEntry s i = 0

/-- The flat map after `f` was mapped at `addr`; `0` is no frame. -/
def FlatMap.map (M : FlatMap) (addr f : Nat) : FlatMap :=
  if f = 0 then M else Function.update M (addr / 4096) (some f)

def FlatMap.unmap (M : FlatMap) (addr : Nat) : FlatMap := Function.update M (addr / 4096) none

/-- The states that mapping and unmapping pages reach from `s₀`, each with the
flat map of what was mapped last and not unmapped since. -/
inductive PageRun (s₀ : State) : State → FlatMap → Prop
  | start : PageRun s₀ s₀ fun _ => none
  | map {s : State} {M : FlatMap} {addr flags : Nat} : PageRun s₀ s M → addr < 2 ^ 32 →
      flags < 0x1000 → ((allocFrame s).1 ≠ 0 → TableAvailable (allocFrame s).2 addr) →
      PageRun s₀ (mapFrame s addr flags) (M.map addr (allocFrame s).1)
  | unmap {s : State} {M : FlatMap} {addr : Nat} : PageRun s₀ s M → addr < 2 ^ 32 →
      PageRun s₀ (unmapPage s addr) (M.unmap addr)

/-- Who owns what before anything is mapped. -/
def freshOwners (d : Nat) : Use → Option Nat
  | .null => some 0
  | .directory => some d
  | .bitmap => some 256
  | .table _ => none
  | .page _ => none

theorem FreshDirectory.inv {s : State} {d : Nat} (h : FreshDirectory s d) :
    PageInv s d (freshOwners d) := by
  have hne := h.nonzero
  have hapart := h.apart
  refine ⟨h.pageDir, h.frameBitmap, h.total, rfl, rfl, rfl, ⟨fun u f hu => ?_, fun u v f hu hv => ?_⟩,
    fun i hi => ?_, fun p _ t ht => ?_, fun p _ _ => rfl⟩
  · refine h.inUse f ?_
    cases u <;> simp [freshOwners] at hu <;> omega
  · cases u <;> cases v <;> simp [freshOwners] at hu hv ⊢ <;> omega
  · have hz := h.zeroed i hi
    rw [dirEntry_eq h.pageDir] at hz
    rw [hz]
    rfl
  · cases ht

/-- A table that is missing can be made. -/
theorem TableAvailable.lowestClear (h : TableAvailable s addr) (hno : NoTable s d addr) :
    ∃ t, LowestClear s t := by
  rcases allocFrame_cases s with ⟨t, ht, -⟩ | ⟨hall, -⟩
  · exact ⟨t, ht⟩
  · rcases h with hpres | ⟨i, hi, hclear⟩
    · exact absurd hno.absent hpres
    · have hm := hall i hi
      rw [hclear] at hm
      cases hm

/-- The page's table is missing: it gets the next clear frame. -/
theorem PageInv.mapPage_new (h : PageInv s d own) (ha : addr < 2 ^ 32) (hfl : flags < 4096)
    (hnone : own (.table (addr / 4096 / 1024)) = none) (hf : LowestClear s f)
    (hc : LowestClear (Paging.takeFrame s f) t) :
    PageInv (mapPage (Paging.takeFrame s f) addr (f * 4096) flags) d
      (Function.update (Function.update own (.table (addr / 4096 / 1024)) (some t))
        (.page (addr / 4096)) (some f)) := by
  have hlt : f < 32768 := by
    rw [← h.total]
    exact hf.1
  have h' := h.takeFrame hlt
  have htlt : t < 32768 := by
    rw [← h'.total]
    exact hc.1
  have htfree := owns_clear h'.owns hc.2.1
  have ht0 : t ≠ 0 := fun he => htfree .null (he ▸ h.null)
  have ht256 : t ≠ 256 := fun he => htfree .bitmap (he ▸ h.bitmap)
  have h'' := h'.withTable (i := addr / 4096 / 1024) (by omega) hfl hnone htlt hc.2.1
  have hin : InUse (Paging.withTable (Paging.takeFrame s f) d t (addr / 4096 / 1024) flags) f := by
    refine ⟨hlt, ?_⟩
    rw [marked_withTable h'.frameBitmap h'.tablesInv.dir_ne (by omega) ht256 hlt, marked_takeFrame]
    simp
  have hfree : ∀ u, Function.update own (.table (addr / 4096 / 1024)) (some t) u ≠ some f := by
    intro u
    by_cases hu : u = .table (addr / 4096 / 1024)
    · rw [hu, Function.update_self]
      exact fun hte => ne_of_lowestClear hc (Option.some.inj hte).symm
    · rw [Function.update_of_ne hu]
      exact owns_clear h.owns hf.2.1 u
  rw [(h'.tablesInv.noTable ha hnone).mapPage hc ht0 htlt]
  exact h''.setPageEntry ha hfl (Function.update_self _ _ _) hin hfree

/-- Allocating a frame and mapping a page to it. -/
theorem PageInv.mapFrame (h : PageInv s d own) (ha : addr < 2 ^ 32) (hfl : flags < 4096)
    (hav : (allocFrame s).1 ≠ 0 → TableAvailable (allocFrame s).2 addr) :
    ∃ own', PageInv (mapFrame s addr flags) d own' ∧
      ∀ p, own' (.page p) =
        FlatMap.map (fun q => own (.page q)) addr (allocFrame s).1 p := by
  rcases allocFrame_cases s with ⟨f, hf, he⟩ | ⟨-, he⟩
  · have hlt : f < 32768 := by
      rw [← h.total]
      exact hf.1
    have hfree := owns_clear h.owns hf.2.1
    have hf0 : f ≠ 0 := fun he => hfree .null (he ▸ h.null)
    have hphys : u32 (f * pageSize) = f * 4096 := u32_of_lt (by simp only [pageSize]; omega)
    have h' := h.takeFrame hlt
    rw [he] at hav ⊢
    simp only [Paging.mapFrame, he, if_neg hf0, hphys, FlatMap.map]
    cases ht : own (.table (addr / 4096 / 1024)) with
    | some t =>
      rw [(h'.tablesInv.hasTable ha ht).mapPage, ← (h'.tablesInv.hasTable ha ht).setPageEntry]
      refine ⟨_, h'.setPageEntry ha hfl ht ⟨hlt, by simp⟩ hfree, fun p => ?_⟩
      by_cases hp : p = addr / 4096 <;> simp [Function.update, hp]
    | none =>
      obtain ⟨t, hc⟩ := (hav hf0).lowestClear (h'.tablesInv.noTable ha ht)
      refine ⟨_, h.mapPage_new ha hfl ht hf hc, fun p => ?_⟩
      by_cases hp : p = addr / 4096 <;> simp [Function.update, hp]
  · refine ⟨own, ?_, fun p => ?_⟩
    · simp only [Paging.mapFrame, he]
      exact h
    · rw [he]
      rfl

/-- **The page table invariant.** It holds in every state of a run, and the
frames the pages own are those of the flat map. -/
theorem PageRun.inv {s₀ : State} {M : FlatMap} (h₀ : FreshDirectory s₀ d) (hr : PageRun s₀ s M) :
    ∃ own, PageInv s d own ∧ ∀ p, own (.page p) = M p := by
  induction hr with
  | start => exact ⟨_, h₀.inv, fun p => rfl⟩
  | map _ ha hfl hav ih =>
    obtain ⟨own, h, hM⟩ := ih
    obtain ⟨own', h', hM'⟩ := h.mapFrame ha hfl hav
    exact ⟨own', h', fun p => by rw [hM' p, funext hM]⟩
  | @unmap s M addr _ ha ih =>
    obtain ⟨own, h, hM⟩ := ih
    refine ⟨_, h.unmapPage ha, fun p => ?_⟩
    rw [FlatMap.unmap, ← funext hM]
    by_cases hp : p = addr / 4096 <;> simp [Function.update, hp]

/-- **The page table refines the flat map.** In every state of a run
`get_physical_addr` translates an address as the flat map of its page says, and
an operation on one page leaves the translation of every other page as it was. -/
theorem getPhysicalAddr_refines {s₀ : State} {M : FlatMap} (h₀ : FreshDirectory s₀ d)
    (hr : PageRun s₀ s M) :
    (∀ a < 2 ^ 32, getPhysicalAddr s a =
      match M (a / 4096) with
      | some f => f * 4096 + a % 4096
      | none => 0) ∧
    (∀ addr a, addr < 2 ^ 32 → a < 2 ^ 32 → a / 4096 ≠ addr / 4096 →
      getPhysicalAddr (unmapPage s addr) a = getPhysicalAddr s a) ∧
    (∀ addr flags a, addr < 2 ^ 32 → flags < 0x1000 → a < 2 ^ 32 → a / 4096 ≠ addr / 4096 →
      ((allocFrame s).1 ≠ 0 → TableAvailable (allocFrame s).2 addr) →
      getPhysicalAddr (mapFrame s addr flags) a = getPhysicalAddr s a) := by
  obtain ⟨own, h, hM⟩ := hr.inv h₀
  refine ⟨fun a ha => ?_, fun addr a hva ha hne => ?_, fun addr flags a hva hfl ha hne hav => ?_⟩
  · rw [h.getPhysicalAddr ha, hM]
    cases M (a / 4096) <;> rfl
  · rw [(h.unmapPage hva).getPhysicalAddr ha, h.getPhysicalAddr ha,
      Function.update_of_ne (by simpa using hne)]
  · obtain ⟨own', h', hM'⟩ := h.mapFrame hva hfl hav
    rw [h'.getPhysicalAddr ha, h.getPhysicalAddr ha, hM', FlatMap.map]
    split
    · rfl
    · rw [Function.update_of_ne hne]

/-- Zeroed memory with the frames 0, 256 and 257 marked, the last of them the directory. -/
def freshPaging : State :=
  { mem := setBit (setBit (setBit (fun _ => 0) 0x100000 0) 0x100000 256) 0x100000 257
    totalFrames := 32768, usedFrames := 3, frameBitmap := 0x100000, kernelPageDir := 257 * 4096 }

theorem marked_freshPaging (i : Nat) :
    marked freshPaging i = decide (i = 0 ∨ i = 256 ∨ i = 257) := by
  have hzero : bit (fun _ => 0) 0x100000 i = false := Nat.zero_testBit _
  rw [marked]
  simp only [freshPaging, bit_setBit, hzero, Bool.or_false]
  rw [← Bool.decide_or, ← Bool.decide_or]
  exact decide_eq_decide.mpr (by omega)

theorem freshDirectory_freshPaging : FreshDirectory freshPaging 257 := by
  refine ⟨rfl, rfl, rfl, by decide, by decide, fun f hf => ⟨by omega, ?_⟩, fun i hi => ?_⟩
  · rw [marked_freshPaging]
    exact decide_eq_true (by omega)
  · rw [dirEntry_eq (d := 257) rfl, freshPaging]
    have hw : ∀ (m : Mem) (k : Nat), k < 32768 →
        frameWord (setBit m (256 * 4096) k) 257 i = frameWord m 257 i :=
      fun m k hk => frameWord_setBit hk hi (by decide)
    exact ((hw _ 257 (by decide)).trans (hw _ 256 (by decide))).trans (hw _ 0 (by decide))

theorem getPhysicalAddr_refines_freshPaging :
    getPhysicalAddr (mapFrame freshPaging 0x400000 3) 0x400123 = 0x1123 := by
  have hone : LowestClear freshPaging 1 := by
    refine ⟨by decide, by rw [marked_freshPaging]; decide, fun j hj => ?_⟩
    rw [marked_freshPaging]
    exact decide_eq_true (by omega)
  have havail : TableAvailable (allocFrame freshPaging).2 0x400000 := by
    refine .inr ⟨2, ?_, ?_⟩
    · rw [hone.allocFrame]
      decide
    · rw [hone.allocFrame, marked_takeFrame, marked_freshPaging]
      decide
  have hrun : PageRun freshPaging (mapFrame freshPaging 0x400000 3)
      (FlatMap.map (fun _ => none) 0x400000 (allocFrame freshPaging).1) :=
    .map .start (by decide) (by decide) fun _ => havail
  have h := (getPhysicalAddr_refines freshDirectory_freshPaging hrun).1 0x400123 (by decide)
  rw [hone.allocFrame] at h
  exact h

end SynapseKernel.Paging
