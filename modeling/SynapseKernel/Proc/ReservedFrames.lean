import SynapseKernel.Lib.Runs
import SynapseKernel.Mm.FrameBitmap
import SynapseKernel.Proc.Mmap

/-! # When reserved memory is handed out

`init_frame_allocator` marks the first megabyte but not the frame it puts the
bitmap in, and any frame may be freed later. A call of `alloc_frame` keeps away
from reserved memory if and only if all of it is marked when the call is made;
the first call after the initialisation is not such a call. -/
namespace SynapseKernel.Paging
open SynapseKernel.Word SynapseKernel.ByteMemory SynapseKernel.Bitmap SynapseKernel.Runs

/-- The frame lies in the first megabyte or in the memory of the bitmap. -/
def Reserved (s : State) (f : Nat) : Prop := f * pageSize < 0x100000 + s.totalFrames / 8

/-- The next `alloc_frame` returns `0` only when no frame is free, and else a
frame that is not reserved. -/
def AllocSafe (s : State) : Prop :=
  ((allocFrame s).1 = 0 → ∀ f < s.totalFrames, marked s f = true) ∧
  ((∃ f < s.totalFrames, marked s f = false) → ¬ Reserved s (allocFrame s).1)

def ReservedMarked (s : State) : Prop := ∀ f, Reserved s f → marked s f = true

inductive PagingOp
  | alloc
  | map (addr physicalAddr flags : Nat)
  | unmap (addr : Nat)
  | munmap (addr length : Nat)

def pagingStep (s : State) : PagingOp → State
  | .alloc => (allocFrame s).2
  | .map addr physicalAddr flags => mapPage s addr physicalAddr flags
  | .unmap addr => unmapPage s addr
  | .munmap addr length => (munmap s addr length).2

/-- The operation calls `alloc_frame`: `map_page` does when it needs a table. -/
def CallsAlloc (s : State) : PagingOp → Prop
  | .alloc => True
  | .map addr _ _ => dirEntry s (dirIdx addr) &&& pagePresent = 0
  | .unmap _ => False
  | .munmap _ _ => False

/-! ## The number of frames is fixed -/

@[simp] theorem totalFrames_freeFrame (s : State) (f : Nat) :
    (freeFrame s f).totalFrames = s.totalFrames := (freeFrame_fields s f).2.2

@[simp] theorem totalFrames_allocFrame (s : State) :
    (allocFrame s).2.totalFrames = s.totalFrames := by
  rcases allocFrame_cases s with ⟨i, -, he⟩ | ⟨-, he⟩
  · rw [he]
    rfl
  · rw [he]

@[simp] theorem totalFrames_createPageTable (s : State) :
    (createPageTable s).2.totalFrames = s.totalFrames := by
  rw [← totalFrames_allocFrame s]
  simp only [createPageTable]
  split <;> rfl

@[simp] theorem totalFrames_mapPage (s : State) (addr pa flags : Nat) :
    (mapPage s addr pa flags).totalFrames = s.totalFrames := by
  rw [← totalFrames_createPageTable s]
  simp only [mapPage]
  split
  · split <;> rfl
  · exact (totalFrames_createPageTable s).symm

@[simp] theorem totalFrames_unmapPage (s : State) (addr : Nat) :
    (unmapPage s addr).totalFrames = s.totalFrames := by
  simp only [unmapPage]
  split
  · rfl
  · split
    · rfl
    · exact totalFrames_freeFrame s _

@[simp] theorem totalFrames_munmapPage (s : State) (addr : Nat) :
    (munmapPage s addr).totalFrames = s.totalFrames := by
  simp only [munmapPage, totalFrames_unmapPage]
  split
  · exact totalFrames_freeFrame s _
  · rfl

theorem totalFrames_munmapFrom (s : State) (base n i : Nat) :
    (munmapFrom base n i s).totalFrames = s.totalFrames := by
  induction n generalizing s i with
  | zero => rfl
  | succ n ih => rw [munmapFrom, ih, totalFrames_munmapPage]

theorem totalFrames_pagingStep (s : State) (op : PagingOp) :
    (pagingStep s op).totalFrames = s.totalFrames := by
  cases op with
  | alloc => exact totalFrames_allocFrame s
  | map addr pa flags => exact totalFrames_mapPage s addr pa flags
  | unmap addr => exact totalFrames_unmapPage s addr
  | munmap addr length =>
    rw [pagingStep, munmap]
    exact totalFrames_munmapFrom s _ _ _

/-! ## One call -/

theorem reserved_iff {s : State} (h : s.totalFrames = 32768) (f : Nat) : Reserved s f ↔ f ≤ 256 := by
  rw [Reserved, h]
  simp only [pageSize]
  omega

/-- **One call.** `alloc_frame` keeps away from reserved memory if and only if
all of it is marked as used. -/
theorem allocSafe_iff {s : State} (h : s.totalFrames = 32768) :
    AllocSafe s ↔ ReservedMarked s := by
  constructor
  · intro ⟨_, hsafe⟩ f hf
    by_contra hclear
    have hclear' : marked s f = false := by simpa using hclear
    have hflt : f < s.totalFrames := by
      have := (reserved_iff h f).mp hf
      omega
    rcases allocFrame_cases s with ⟨i, hi, he⟩ | ⟨hall, -⟩
    · -- the lowest clear frame is at most the clear reserved one
      have hif : i ≤ f := by
        by_contra hlt
        have hm := hi.2.2 f (by omega)
        exact hclear hm
      have hres := hsafe ⟨f, hflt, hclear'⟩
      rw [he, reserved_iff h] at hres
      have := (reserved_iff h f).mp hf
      omega
    · exact hclear (hall f hflt)
  · intro hmarked
    rcases allocFrame_cases s with ⟨i, hi, he⟩ | ⟨hall, he⟩
    · have hires : ¬ Reserved s i := fun hres => by
        have hm := hmarked i hres
        rw [hi.2.1] at hm
        cases hm
      rw [AllocSafe, he]
      refine ⟨fun h0 => absurd ((reserved_iff h i).mpr ?_) hires, fun _ => hires⟩
      have h0' : i = 0 := h0
      omega
    · refine ⟨fun _ => hall, fun ⟨f, hf, hclear⟩ => ?_⟩
      rw [hall f hf] at hclear
      cases hclear

/-- After the initialisation the bitmap's own frame is free, and is next. -/
theorem not_reservedMarked_init (s : State) : ¬ ReservedMarked (initFrameAllocator s) := by
  intro h
  have hm := h 256 ((reserved_iff rfl 256).mpr (Nat.le_refl _))
  rw [marked_init s (by decide)] at hm
  cases hm

/-! ## Runs -/

/-- **Reserved memory.** In a run from `init_frame_allocator` every call of
`alloc_frame` keeps away from reserved memory if and only if every call is made
with all reserved memory marked as used. -/
theorem allocSafe_iff_reservedMarked (s : State) (ops : List PagingOp) :
    Guarded pagingStep (fun s op => CallsAlloc s op → AllocSafe s) (initFrameAllocator s) ops ↔
      Guarded pagingStep (fun s op => CallsAlloc s op → ReservedMarked s)
        (initFrameAllocator s) ops := by
  refine guarded_congr (fun s => s.totalFrames = 32768)
    (fun s op _ hs _ => (totalFrames_pagingStep s op).trans hs) (fun s op _ hs => ?_) rfl
  exact imp_congr_right fun _ => allocSafe_iff hs

/-- The first frame handed out is the one the bitmap is in. -/
theorem allocFrame_init_reserved :
    ¬ Guarded pagingStep (fun s op => CallsAlloc s op → AllocSafe s)
      (initFrameAllocator ⟨fun _ => 0, 0, 0, 0, 0⟩) [.alloc] := by
  intro h
  exact not_reservedMarked_init _ ((allocSafe_iff rfl).mp (h.1 trivial))

end SynapseKernel.Paging
