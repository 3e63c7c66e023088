import SynapseKernel.Mm.PageWalk
import SynapseKernel.Proc.Regs

/-! # Mapping and unmapping ranges (kernel/proc/process.c, kernel/syscall.c)

`mmap` gives each page of a range a fresh frame. `munmap` frees the frame each
page translates to, whatever frame that is, and then unmaps the page, which
frees it again. -/
namespace SynapseKernel.Paging
open SynapseKernel.Word SynapseKernel.PageEntry SynapseKernel.Proc

/-- `(length + PAGE_SIZE - 1) / PAGE_SIZE`, in 32 bits. -/
def pagesOf (length : Nat) : Nat := u32 (length + pageSize - 1) / pageSize

/-- `base + i * PAGE_SIZE`, in 32 bits. -/
def pageAddr (base i : Nat) : Nat := u32 (base + i * pageSize)

/-- `page_flags` for `prot`. -/
def pageFlags (prot : Nat) : Nat :=
  let pageFlags := pagePresent
  let pageFlags := if prot &&& 0x2 ≠ 0 then pageFlags ||| pageWritable else pageFlags
  if prot &&& 0x4 ≠ 0 then pageFlags ||| pageUser else pageFlags

/-- The loop of `mmap` from page `i` on, with `n` pages to go; `false` when it
returns for want of a frame. -/
def mmapFrom (virtualPage prot : Nat) : Nat → Nat → State → Bool × State
  | 0, _, s => (true, s)
  | n + 1, i, s =>
    let (frame, s) := allocFrame s
    if frame = 0 then (false, s)
    else
      let physAddr := u32 (frame * pageSize)
      let virtAddr := pageAddr virtualPage i
      mmapFrom virtualPage prot n (i + 1) (mapPage s virtAddr physAddr (pageFlags prot))

/-- The virtual address of a range; `NULL` asks for `0x80000000`. -/
def mmapBase (addr : Nat) : Nat := if addr = 0 then 0x80000000 else addr

/-- What `mmap` returns once its loop is over. -/
def mmapReturn (virtualPage : Nat) (loop : Bool × State) : Nat × State :=
  if loop.1 then (virtualPage, loop.2) else (0, loop.2)

def mmap (s : State) (addr length prot _flags _fd _offset : Nat) : Nat × State :=
  mmapReturn (mmapBase addr) (mmapFrom (mmapBase addr) prot (pagesOf length) 0 s)

/-- One round of the loop of `munmap`. -/
def munmapPage (s : State) (addr : Nat) : State :=
  let frame := getPhysicalAddr s addr / pageSize
  let s := if frame ≠ 0 then freeFrame s frame else s
  unmapPage s addr

/-- The loop of `munmap` from page `i` on, with `n` pages to go. -/
def munmapFrom (virtAddr : Nat) : Nat → Nat → State → State
  | 0, _, s => s
  | n + 1, i, s => munmapFrom virtAddr n (i + 1) (munmapPage s (pageAddr virtAddr i))

def munmap (s : State) (addr length : Nat) : Nat × State :=
  (0, munmapFrom addr (pagesOf length) 0 s)

/-- `-1` when `mmap` returned `NULL`; the result is a 32-bit word. -/
def mappedOrError (mapped : Nat × State) : Nat × State :=
  if mapped.1 = 0 then (0xFFFFFFFF, mapped.2) else mapped

def sysMmapHandler (s : State) (regs : Regs) : Nat × State :=
  mappedOrError (mmap s regs.ebx regs.ecx regs.edx regs.esi regs.edi regs.ebp)

def sysMunmapHandler (s : State) (regs : Regs) : Nat × State := munmap s regs.ebx regs.ecx

theorem pageAddr_lt (base i : Nat) : pageAddr base i < 2 ^ 32 := u32_lt _

/-! ## The state does not depend on what is returned -/

theorem mmapReturn_snd (virtualPage : Nat) (loop : Bool × State) :
    (mmapReturn virtualPage loop).2 = loop.2 := by
  unfold mmapReturn
  split <;> rfl

theorem mmap_of_loop {s : State} {addr length prot flags fd offset : Nat} {loop : Bool × State}
    (h : mmapFrom (mmapBase addr) prot (pagesOf length) 0 s = loop) :
    mmap s addr length prot flags fd offset =
      if loop.1 then (mmapBase addr, loop.2) else (0, loop.2) := by
  rw [mmap, h]
  rfl

theorem mmapBase_ne_zero (addr : Nat) : mmapBase addr ≠ 0 := by
  unfold mmapBase
  split <;> omega

theorem mappedOrError_snd (mapped : Nat × State) : (mappedOrError mapped).2 = mapped.2 := by
  unfold mappedOrError
  split <;> rfl

theorem sysMmapHandler_snd (s : State) (regs : Regs) : (sysMmapHandler s regs).2 =
    (mmapFrom (mmapBase regs.ebx) regs.edx (pagesOf regs.ecx) 0 s).2 := by
  rw [sysMmapHandler, mappedOrError_snd, mmap, mmapReturn_snd]

/-! ## One round of `munmap` -/

/-- The frame of a page that is mapped is freed, and freed again by `unmap_page`. -/
theorem HasTable.munmapPage {s : State} {d t addr f : Nat} (h : HasTable s d addr t)
    (hb : s.frameBitmap = 256 * 4096) (hn : s.totalFrames = 32768) (hd : d ≠ 256) (ht : t ≠ 256)
    (ha : addr < 2 ^ 32) (he : Encodes (frameWord s.mem t (addr / 4096 % 1024)) (some f)) :
    munmapPage s addr = withoutPage s t (addr / 4096 % 1024) f := by
  have hframe : Paging.getPhysicalAddr s addr / pageSize = f := by
    rw [h.getPhysicalAddr_present he]
    simp only [pageSize]
    omega
  rw [Paging.munmapPage]
  simp only [hframe]
  by_cases hf : f ≠ 0
  · -- the page is still mapped once its frame is freed
    have htable : HasTable (freeFrame s f) d addr t := by
      refine ⟨(freeFrame_fields s f).1.trans h.pageDir, ?_⟩
      rw [frameWord_freeFrame hb hn f hd (by omega)]
      exact h.entry
    have hentry : Encodes (frameWord (freeFrame s f).mem t (addr / 4096 % 1024)) (some f) := by
      rw [frameWord_freeFrame hb hn f ht (by omega)]
      exact he
    rw [if_pos hf, htable.unmapPage_present hentry, withoutPage, withoutPage, freeFrame_freeFrame]
  · rw [if_neg hf, h.unmapPage_present he]

end SynapseKernel.Paging
