import SynapseKernel.Lib.PageEntry
import SynapseKernel.Mm.Paging

/-! # The walk through directory and table

Where a directory entry is present, the three page operations read and write
one word of one table (`HasTable`). Everything about which frames are in use
is left to the invariants that use these equations. -/
namespace SynapseKernel.Paging
open SynapseKernel.Word SynapseKernel.ByteMemory SynapseKernel.Bitmap SynapseKernel.PageEntry

variable {s : State} {d t addr flags : Nat}

theorem dirIdx_eq (addr : Nat) : dirIdx addr = addr / 4096 / 1024 := by
  rw [dirIdx, Nat.shiftRight_eq_div_pow, Nat.div_div_eq_div_mul]

theorem tableIdx_eq (addr : Nat) : tableIdx addr = addr / 4096 % 1024 := by
  rw [tableIdx, land_index, Nat.shiftRight_eq_div_pow]

theorem dirEntry_eq (hd : s.kernelPageDir = d * 4096) (i : Nat) :
    dirEntry s i = frameWord s.mem d i := by
  rw [dirEntry, hd]
  rfl

/-- The directory in frame `d` has no table for the page of `addr`. -/
structure NoTable (s : State) (d addr : Nat) : Prop where
  pageDir : s.kernelPageDir = d * 4096
  entry : Encodes (frameWord s.mem d (addr / 4096 / 1024)) none

/-- The directory in frame `d` says that the table of `addr` is in frame `t`. -/
structure HasTable (s : State) (d addr t : Nat) : Prop where
  pageDir : s.kernelPageDir = d * 4096
  entry : Encodes (frameWord s.mem d (addr / 4096 / 1024)) (some t)

theorem NoTable.absent (h : NoTable s d addr) : dirEntry s (dirIdx addr) &&& pagePresent = 0 := by
  rw [dirEntry_eq h.pageDir, dirIdx_eq, land_present]
  exact h.entry

theorem HasTable.present (h : HasTable s d addr t) :
    ¬ (dirEntry s (dirIdx addr) &&& pagePresent = 0) := by
  rw [dirEntry_eq h.pageDir, dirIdx_eq, land_present, h.entry.2]
  decide

theorem HasTable.tableOf (h : HasTable s d addr t) :
    tableOf (dirEntry s (dirIdx addr)) = t * 4096 := by
  rw [dirEntry_eq h.pageDir, dirIdx_eq, Paging.tableOf, land_page (frameWord_lt _ _ _), h.entry.1]

/-- The entry of the page of `addr` in its table. -/
theorem HasTable.pageEntry (h : HasTable s d addr t) :
    pageEntry s addr = frameWord s.mem t (addr / 4096 % 1024) := by
  rw [Paging.pageEntry, h.tableOf, tableIdx_eq]
  rfl

theorem NoTable.getPhysicalAddr (h : NoTable s d addr) : getPhysicalAddr s addr = 0 := by
  rw [Paging.getPhysicalAddr, if_pos h.absent]

theorem HasTable.getPhysicalAddr_absent (h : HasTable s d addr t)
    (he : Encodes (frameWord s.mem t (addr / 4096 % 1024)) none) : getPhysicalAddr s addr = 0 := by
  rw [Paging.getPhysicalAddr, if_neg h.present, h.pageEntry, land_present]
  exact if_pos he

theorem HasTable.getPhysicalAddr_present (h : HasTable s d addr t) {f : Nat}
    (he : Encodes (frameWord s.mem t (addr / 4096 % 1024)) (some f)) :
    getPhysicalAddr s addr = f * 4096 + addr % 4096 := by
  obtain ⟨hf, hodd⟩ := he
  have hlt := frameWord_lt s.mem t (addr / 4096 % 1024)
  rw [Paging.getPhysicalAddr, if_neg h.present, h.pageEntry, land_present, if_neg (by omega),
    land_page hlt, land_offset, hf]
  exact u32_of_lt (by omega)

theorem NoTable.unmapPage (h : NoTable s d addr) : unmapPage s addr = s := by
  rw [Paging.unmapPage, if_pos h.absent]

theorem HasTable.unmapPage_absent (h : HasTable s d addr t)
    (he : Encodes (frameWord s.mem t (addr / 4096 % 1024)) none) : unmapPage s addr = s := by
  rw [Paging.unmapPage, if_neg h.present, h.pageEntry, land_present]
  exact if_pos he

/-- The state `unmap_page` leaves: the frame freed and the entry cleared. -/
def withoutPage (s : State) (t idx f : Nat) : State :=
  { freeFrame s f with mem := setFrameWord (freeFrame s f).mem t idx 0 }

theorem HasTable.unmapPage_present (h : HasTable s d addr t) {f : Nat}
    (he : Encodes (frameWord s.mem t (addr / 4096 % 1024)) (some f)) :
    unmapPage s addr = withoutPage s t (addr / 4096 % 1024) f := by
  obtain ⟨hf, hodd⟩ := he
  have hlt := frameWord_lt s.mem t (addr / 4096 % 1024)
  have hframe : (frameWord s.mem t (addr / 4096 % 1024) &&& 0xFFFFF000) / pageSize = f := by
    rw [land_page hlt, Nat.mul_div_cancel _ (by decide), hf]
  rw [Paging.unmapPage, if_neg h.present, h.pageEntry, land_present, if_neg (by omega), hframe,
    h.tableOf, tableIdx_eq]
  rfl

/-- The state with a page's entry set. -/
def withPage (s : State) (t idx pa flags : Nat) : State :=
  { s with mem := setFrameWord s.mem t idx ((pa &&& 0xFFFFF000) ||| flags ||| pagePresent) }

theorem HasTable.setPageEntry (h : HasTable s d addr t) (pa : Nat) :
    setPageEntry s addr pa flags = withPage s t (addr / 4096 % 1024) pa flags := by
  rw [Paging.setPageEntry, h.tableOf, tableIdx_eq]
  rfl

theorem HasTable.mapPage (h : HasTable s d addr t) (pa : Nat) :
    mapPage s addr pa flags = withPage s t (addr / 4096 % 1024) pa flags := by
  rw [Paging.mapPage, if_neg h.present, h.setPageEntry]

/-! ## What these states have in use -/

theorem marked_withPage (hb : s.frameBitmap = 256 * 4096) (pa flags : Nat) {idx g : Nat}
    (hi : idx < 1024) (ht : t ≠ 256) (hg : g < 32768) :
    marked (withPage s t idx pa flags) g = marked s g := by
  rw [marked, marked]
  simp only [withPage, hb]
  exact bit_setFrameWord hg hi ht

theorem freeFrame_fields (s : State) (f : Nat) :
    (freeFrame s f).kernelPageDir = s.kernelPageDir ∧
      (freeFrame s f).frameBitmap = s.frameBitmap ∧
      (freeFrame s f).totalFrames = s.totalFrames := by
  rcases freeFrame_cases s f with ⟨-, he⟩ | ⟨-, -, he⟩ <;> rw [he] <;> exact ⟨rfl, rfl, rfl⟩

/-- A frame that is freed again is not in use any more. -/
theorem freeFrame_freeFrame (s : State) (f : Nat) :
    freeFrame (freeFrame s f) f = freeFrame s f := by
  rcases freeFrame_cases (freeFrame s f) f with ⟨-, he⟩ | ⟨hlt, hm, -⟩
  · exact he
  · rw [(freeFrame_fields s f).2.2] at hlt
    rw [marked_freeFrame, decide_eq_true ⟨rfl, hlt⟩] at hm
    cases hm

/-- Neither taking nor freeing a frame is seen in any frame but the bitmap's. -/
theorem frameWord_takeFrame (hb : s.frameBitmap = 256 * 4096) {f g k : Nat} (hf : f < 32768)
    (hg : g ≠ 256) (hk : k < 1024) : frameWord (takeFrame s f).mem g k = frameWord s.mem g k := by
  simp only [takeFrame, hb]
  exact frameWord_setBit hf hk hg

theorem frameWord_freeFrame (hb : s.frameBitmap = 256 * 4096) (hn : s.totalFrames = 32768)
    (f : Nat) {g k : Nat} (hg : g ≠ 256) (hk : k < 1024) :
    frameWord (freeFrame s f).mem g k = frameWord s.mem g k := by
  rcases freeFrame_cases s f with ⟨-, he⟩ | ⟨hlt, -, he⟩
  · rw [he]
  · simp only [he, hb]
    exact frameWord_clearBit (by omega) hk hg

theorem marked_withoutPage (hb : s.frameBitmap = 256 * 4096) {idx f g : Nat} (hi : idx < 1024)
    (ht : t ≠ 256) (hg : g < 32768) :
    marked (withoutPage s t idx f) g = marked (freeFrame s f) g := by
  rw [marked, marked]
  simp only [withoutPage, (freeFrame_fields s f).2.1, hb]
  exact bit_setFrameWord hg hi ht

end SynapseKernel.Paging
