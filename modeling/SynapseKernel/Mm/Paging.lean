import SynapseKernel.Lib.Bitmap

/-! # Frames and page tables (kernel/mm/paging.c)

The frame allocator keeps one bit per physical frame in a bitmap that lives in
the same memory as the page directory and the page tables. Pointers are
physical addresses, which is what the identity mapping of the kernel makes
them. A `page_directory_t*` or `page_table_t*` is used as an array of 32-bit
entries, as the comments of the source describe it. The TLB is not modelled:
every change of an entry is followed by `invlpg`. -/
namespace SynapseKernel.Paging
open SynapseKernel.Word SynapseKernel.ByteMemory SynapseKernel.Bitmap

abbrev pageSize : Nat := 4096
abbrev pagePresent : Nat := 0x1
abbrev pageWritable : Nat := 0x2
abbrev pageUser : Nat := 0x4
abbrev pageDirEntries : Nat := 1024

/-- `frame_allocator_t` and `kernel_page_dir`, with the memory they point into. -/
structure State where
  mem : Mem
  totalFrames : Nat
  usedFrames : Nat
  frameBitmap : Nat
  kernelPageDir : Nat

/-! ## The frame allocator -/

def initFrameAllocator (s : State) : State :=
  let totalMemory := 128 * 1024 * 1024
  let totalFrames := totalMemory / pageSize
  let bitmapSize := (totalFrames + 31) / 32
  let frameBitmap := 0x100000
  let mem := fill s.mem frameBitmap (bitmapSize * 4) 0
  let reservedFrames := 0x100000 / pageSize
  { s with
    mem := setRange mem frameBitmap reservedFrames
    totalFrames := totalFrames
    usedFrames := reservedFrames
    frameBitmap := frameBitmap }

/-- `frame_bitmap[frame / 32] & (1 << (frame % 32))` is not zero. -/
def marked (s : State) (frame : Nat) : Bool := bit s.mem s.frameBitmap frame

/-- `frame_bitmap[i / 32] & (1 << (i % 32))`. -/
def testFrame (s : State) (i : Nat) : Nat :=
  read32 s.mem (wordAddr s.frameBitmap i) &&& 1 <<< (i % 32)

/-- `frame_bitmap[i / 32] |= (1 << (i % 32)); used_frames++`. -/
def takeFrame (s : State) (i : Nat) : State :=
  { s with mem := setBit s.mem s.frameBitmap i, usedFrames := u32 (s.usedFrames + 1) }

/-- The search of `alloc_frame` from frame `i` on, with `n` frames to go. -/
def allocFrameFrom (s : State) : Nat → Nat → Nat × State
  | 0, _ => (0, s)
  | n + 1, i => if testFrame s i = 0 then (i, takeFrame s i) else allocFrameFrom s n (i + 1)

def allocFrame (s : State) : Nat × State := allocFrameFrom s s.totalFrames 0

def freeFrame (s : State) (frame : Nat) : State :=
  if s.totalFrames ≤ frame then s
  else if testFrame s frame = 0 then s
  else
    { s with mem := clearBit s.mem s.frameBitmap frame, usedFrames := sub32 s.usedFrames 1 }

def getTotalMemory (s : State) : Nat := u32 (s.totalFrames * pageSize)
def getUsedMemory (s : State) : Nat := u32 (s.usedFrames * pageSize)
def getFreeMemory (s : State) : Nat := u32 (sub32 s.totalFrames s.usedFrames * pageSize)

/-! ## Page tables -/

/-- The address of entry `idx` of the directory or table at `base`. -/
def entryAddr (base idx : Nat) : Nat := base + 4 * idx

def dirIdx (addr : Nat) : Nat := addr >>> 22
def tableIdx (addr : Nat) : Nat := (addr >>> 12) &&& 0x3FF

/-- `kernel_page_dir[idx]`. -/
def dirEntry (s : State) (idx : Nat) : Nat := read32 s.mem (entryAddr s.kernelPageDir idx)

/-- The page table that a directory entry points to. -/
def tableOf (entry : Nat) : Nat := entry &&& 0xFFFFF000

/-- `page_table[table_idx]` for the page of `addr`, whose table is present. -/
def pageEntry (s : State) (addr : Nat) : Nat :=
  read32 s.mem (entryAddr (tableOf (dirEntry s (dirIdx addr))) (tableIdx addr))

def createPageTable (s : State) : Nat × State :=
  let (frame, s) := allocFrame s
  if frame = 0 then (0, s)
  else
    let physAddr := u32 (frame * pageSize)
    (physAddr, { s with mem := fill s.mem physAddr pageSize 0 })

/-- The end of `map_page`, once the directory entry is present. -/
def setPageEntry (s : State) (addr physicalAddr flags : Nat) : State :=
  let pageTable := tableOf (dirEntry s (dirIdx addr))
  let entry := (physicalAddr &&& 0xFFFFF000) ||| flags ||| pagePresent
  { s with mem := write32 s.mem (entryAddr pageTable (tableIdx addr)) entry }

def mapPage (s : State) (addr physicalAddr flags : Nat) : State :=
  if dirEntry s (dirIdx addr) &&& pagePresent = 0 then
    let (pageTable, s) := createPageTable s
    if pageTable = 0 then s
    else
      let tablePhys := pageTable &&& 0xFFFFF000
      let entry := tablePhys ||| pagePresent ||| flags
      let s := { s with mem := write32 s.mem (entryAddr s.kernelPageDir (dirIdx addr)) entry }
      setPageEntry s addr physicalAddr flags
  else setPageEntry s addr physicalAddr flags

def unmapPage (s : State) (addr : Nat) : State :=
  if dirEntry s (dirIdx addr) &&& pagePresent = 0 then s
  else if pageEntry s addr &&& pagePresent = 0 then s
  else
    let pageTable := tableOf (dirEntry s (dirIdx addr))
    let frame := (pageEntry s addr &&& 0xFFFFF000) / pageSize
    let s := freeFrame s frame
    { s with mem := write32 s.mem (entryAddr pageTable (tableIdx addr)) 0 }

def getPhysicalAddr (s : State) (addr : Nat) : Nat :=
  if dirEntry s (dirIdx addr) &&& pagePresent = 0 then 0
  else if pageEntry s addr &&& pagePresent = 0 then 0
  else u32 ((pageEntry s addr &&& 0xFFFFF000) + (addr &&& 0xFFF))

/-! ## One specification for each allocator function -/

theorem testFrame_eq_zero {s : State} {i : Nat} : testFrame s i = 0 ↔ marked s i = false :=
  land_bit_eq_zero

@[simp] theorem marked_takeFrame (s : State) (i j : Nat) :
    marked (takeFrame s i) j = (decide (j = i) || marked s j) := bit_setBit _ _ _ _

/-- The lowest clear frame below `total_frames`, as `alloc_frame` looks for it. -/
def LowestClear (s : State) (i : Nat) : Prop :=
  i < s.totalFrames ∧ marked s i = false ∧ ∀ j < i, marked s j = true

theorem allocFrameFrom_cases (s : State) (n i : Nat) :
    (∃ k, i ≤ k ∧ k < i + n ∧ marked s k = false ∧ (∀ j, i ≤ j → j < k → marked s j = true) ∧
      allocFrameFrom s n i = (k, takeFrame s k)) ∨
    ((∀ j, i ≤ j → j < i + n → marked s j = true) ∧ allocFrameFrom s n i = (0, s)) := by
  induction n generalizing i with
  | zero => exact .inr ⟨fun j _ _ => by omega, rfl⟩
  | succ n ih =>
    rw [allocFrameFrom]
    by_cases hi : marked s i = false
    · rw [if_pos (testFrame_eq_zero.mpr hi)]
      exact .inl ⟨i, Nat.le_refl i, by omega, hi, fun j _ _ => by omega, rfl⟩
    · rw [if_neg (mt testFrame_eq_zero.mp hi)]
      have hi' : marked s i = true := by simpa using hi
      have hstep : ∀ j, i ≤ j → (i + 1 ≤ j → marked s j = true) → marked s j = true := by
        intro j hj hrest
        by_cases he : j = i
        · rwa [he]
        · exact hrest (by omega)
      rcases ih (i + 1) with ⟨k, hik, hk, hclear, hbelow, he⟩ | ⟨hall, he⟩
      · exact .inl ⟨k, by omega, by omega, hclear,
          fun j hj hjk => hstep j hj fun h => hbelow j h hjk, he⟩
      · exact .inr ⟨fun j hj hjn => hstep j hj fun h => hall j h (by omega), he⟩

/-- Everything `alloc_frame` can do. -/
theorem allocFrame_cases (s : State) :
    (∃ i, LowestClear s i ∧ allocFrame s = (i, takeFrame s i)) ∨
    ((∀ i < s.totalFrames, marked s i = true) ∧ allocFrame s = (0, s)) := by
  rcases allocFrameFrom_cases s s.totalFrames 0 with ⟨i, -, hi, hclear, hbelow, he⟩ | ⟨hall, he⟩
  · exact .inl ⟨i, ⟨by omega, hclear, fun j hj => hbelow j (by omega) hj⟩, he⟩
  · exact .inr ⟨fun i hi => hall i (by omega) (by omega), he⟩

theorem LowestClear.unique {s : State} {i k : Nat} (hi : LowestClear s i) (hk : LowestClear s k) :
    i = k := by
  rcases Nat.lt_trichotomy i k with hlt | heq | hgt
  · have hm := hk.2.2 i hlt
    rw [hi.2.1] at hm
    cases hm
  · exact heq
  · have hm := hi.2.2 k hgt
    rw [hk.2.1] at hm
    cases hm

/-- `alloc_frame` takes the lowest clear frame. -/
theorem LowestClear.allocFrame {s : State} {i : Nat} (hi : LowestClear s i) :
    allocFrame s = (i, takeFrame s i) := by
  rcases allocFrame_cases s with ⟨k, hk, he⟩ | ⟨hall, -⟩
  · rw [he, hi.unique hk]
  · have hm := hall i hi.1
    rw [hi.2.1] at hm
    cases hm

/-- Everything `free_frame` can do. -/
theorem freeFrame_cases (s : State) (frame : Nat) :
    ((s.totalFrames ≤ frame ∨ marked s frame = false) ∧ freeFrame s frame = s) ∨
    (frame < s.totalFrames ∧ marked s frame = true ∧ freeFrame s frame =
      { s with mem := clearBit s.mem s.frameBitmap frame, usedFrames := sub32 s.usedFrames 1 }) := by
  unfold freeFrame
  by_cases hf : s.totalFrames ≤ frame
  · exact .inl ⟨.inl hf, if_pos hf⟩
  · rw [if_neg hf]
    by_cases hm : marked s frame = false
    · exact .inl ⟨.inr hm, if_pos (testFrame_eq_zero.mpr hm)⟩
    · exact .inr ⟨by omega, by simpa using hm, if_neg (mt testFrame_eq_zero.mp hm)⟩

/-- `free_frame` clears the bit of a frame and no other. -/
theorem marked_freeFrame (s : State) (frame j : Nat) :
    marked (freeFrame s frame) j =
      (!decide (j = frame ∧ frame < s.totalFrames) && marked s j) := by
  rcases freeFrame_cases s frame with ⟨hno, he⟩ | ⟨hlt, hm, he⟩
  · rw [he]
    by_cases hj : j = frame ∧ frame < s.totalFrames
    · rcases hno with hno | hno
      · omega
      · simp [hj.1, hno]
    · simp [hj]
  · rw [he]
    simp only [marked, bit_clearBit, hlt, and_true]

end SynapseKernel.Paging
