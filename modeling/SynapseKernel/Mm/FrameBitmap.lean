import SynapseKernel.Mm.Paging

/-! # The frame bitmap and its counter agree

`used_frames` counts the bits set, in every state that allocations and frees
reach from `init_frame_allocator`, whatever frame numbers the frees name. The
memory outside the bitmap may change freely in between. -/
namespace SynapseKernel.Paging
open SynapseKernel.Word SynapseKernel.ByteMemory SynapseKernel.Bitmap

/-- A call of the allocator, or a store outside the 4096 bytes of the bitmap. -/
inductive FrameOp
  | alloc
  | free (frame : Nat)
  | store (a : Nat) (v : UInt8) (outside : a < 0x100000 ∨ 0x101000 ≤ a)

def frameStep (s : State) : FrameOp → State
  | .alloc => (allocFrame s).2
  | .free frame => freeFrame s frame
  | .store a v _ => { s with mem := Function.update s.mem a v }

def frameRun (s : State) (ops : List FrameOp) : State := ops.foldl frameStep s

/-- The allocator as `init_frame_allocator` sets it up, with its counter right. -/
structure Accounted (s : State) : Prop where
  bitmap : s.frameBitmap = 0x100000
  total : s.totalFrames = 32768
  used : s.usedFrames = bitCount s.mem s.frameBitmap s.totalFrames

/-! ## The initial state -/

theorem marked_init (s : State) {i : Nat} (hi : i < 32768) :
    marked (initFrameAllocator s) i = decide (i < 256) := by
  have hzero : bit (fill s.mem 0x100000 4096 0) 0x100000 i = false := by
    rw [bit, read32, readLE_fill_zero (by unfold wordAddr; omega) (by unfold wordAddr; omega),
      Nat.zero_testBit]
  have hset := bit_setRange (fill s.mem 0x100000 4096 0) 0x100000 256 i
  rw [hzero, Bool.or_false] at hset
  exact hset

theorem Accounted.init (s : State) : Accounted (initFrameAllocator s) := by
  refine ⟨rfl, rfl, ?_⟩
  have hrange : ((Finset.range 32768).filter fun i => marked (initFrameAllocator s) i = true) =
      Finset.range 256 := by
    ext i
    simp only [Finset.mem_filter, Finset.mem_range]
    constructor
    · intro ⟨hi, hm⟩
      rw [marked_init s hi] at hm
      exact of_decide_eq_true hm
    · intro hi
      refine ⟨by omega, ?_⟩
      rw [marked_init s (by omega)]
      exact decide_eq_true hi
  have hcard := congrArg Finset.card hrange
  rw [Finset.card_range] at hcard
  exact hcard.symm

/-! ## What each step preserves -/

/-- A store outside the bitmap does not change what is marked. -/
theorem marked_store {s : State} (hb : s.frameBitmap = 0x100000) {a i : Nat} {v : UInt8}
    (ha : a < 0x100000 ∨ 0x101000 ≤ a) (hi : i < 32768) :
    marked { s with mem := Function.update s.mem a v } i = marked s i := by
  refine bit_congr fun b hb' hb'' => Function.update_of_ne ?_ _ _
  rw [hb] at hb' hb''
  unfold wordAddr at hb' hb''
  omega

theorem Accounted.used_le {s : State} (h : Accounted s) : s.usedFrames ≤ s.totalFrames := by
  rw [h.used]
  exact bitCount_le _ _ _

/-- The sizes in bytes are whole pages and do not wrap. -/
theorem Accounted.memory {s : State} (h : Accounted s) :
    getTotalMemory s = 4096 * 32768 ∧ getUsedMemory s = 4096 * s.usedFrames ∧
      getFreeMemory s = 4096 * (32768 - s.usedFrames) := by
  have hle := h.used_le
  rw [h.total] at hle
  have hfree : sub32 s.totalFrames s.usedFrames = 32768 - s.usedFrames := by
    rw [h.total]
    exact sub32_of_le (by decide) hle
  have hpage : pageSize = 4096 := rfl
  rw [getTotalMemory, getUsedMemory, getFreeMemory, hfree, h.total, hpage]
  refine ⟨rfl, ?_, ?_⟩
  · rw [Nat.mul_comm]
    exact u32_of_lt (by omega)
  · rw [Nat.mul_comm]
    exact u32_of_lt (by omega)

/-- Taking a clear frame counts it, without wrapping. -/
theorem Accounted.usedFrames_takeFrame {s : State} (h : Accounted s) {i : Nat}
    (hi : i < s.totalFrames) (hclear : marked s i = false) :
    (takeFrame s i).usedFrames = s.usedFrames + 1 ∧
      (takeFrame s i).usedFrames = bitCount (takeFrame s i).mem s.frameBitmap s.totalFrames := by
  have hcount := bitCount_setBit hi hclear
  have hle := bitCount_le (setBit s.mem s.frameBitmap i) s.frameBitmap s.totalFrames
  rw [hcount, ← h.used, h.total] at hle
  have hu : (takeFrame s i).usedFrames = s.usedFrames + 1 := u32_of_lt (by omega)
  refine ⟨hu, ?_⟩
  rw [hu, h.used, ← hcount]
  rfl

/-- Freeing a marked frame discounts it, without wrapping. -/
theorem Accounted.usedFrames_freeFrame {s : State} (h : Accounted s) {i : Nat}
    (hi : i < s.totalFrames) (hm : marked s i = true) :
    (freeFrame s i).usedFrames + 1 = s.usedFrames ∧
      (freeFrame s i).usedFrames = bitCount (freeFrame s i).mem s.frameBitmap s.totalFrames := by
  rcases freeFrame_cases s i with ⟨hno, -⟩ | ⟨-, -, he⟩
  · rcases hno with hno | hno
    · omega
    · rw [hm] at hno
      cases hno
  · have hcount := bitCount_clearBit hi hm
    have hle := h.used_le
    rw [h.total] at hle
    rw [← h.used] at hcount
    have hu : (freeFrame s i).usedFrames = s.usedFrames - 1 := by
      rw [he]
      exact sub32_of_le (by omega) (by omega)
    refine ⟨by omega, ?_⟩
    rw [hu, he]
    simp only
    omega

theorem Accounted.step {s : State} (h : Accounted s) (op : FrameOp) :
    Accounted (frameStep s op) := by
  cases op with
  | alloc =>
    rcases allocFrame_cases s with ⟨i, ⟨hi, hclear, -⟩, he⟩ | ⟨-, he⟩
    · rw [frameStep, he]
      exact ⟨h.bitmap, h.total, (h.usedFrames_takeFrame hi hclear).2⟩
    · rw [frameStep, he]
      exact h
  | free frame =>
    rcases freeFrame_cases s frame with ⟨-, he⟩ | ⟨hi, hm, he⟩
    · rw [frameStep, he]
      exact h
    · have hused := (h.usedFrames_freeFrame hi hm).2
      rw [he] at hused
      rw [frameStep, he]
      exact ⟨h.bitmap, h.total, hused⟩
  | store a v outside =>
    refine ⟨h.bitmap, h.total, ?_⟩
    have hcount : bitCount (frameStep s (.store a v outside)).mem s.frameBitmap s.totalFrames =
        bitCount s.mem s.frameBitmap s.totalFrames :=
      bitCount_congr fun i hi => marked_store h.bitmap outside (by rwa [h.total] at hi)
    exact h.used.trans hcount.symm

/-- **The accounting invariant.** It holds in every state of a run. -/
theorem Accounted.run {s : State} (h : Accounted s) (ops : List FrameOp) :
    Accounted (frameRun s ops) := by
  induction ops generalizing s with
  | nil => exact h
  | cons op ops ih => exact ih (h.step op)

/-- A marked frame stays marked until it is freed. -/
theorem marked_run {s : State} (h : Accounted s) {i : Nat} (hi : i < 32768)
    (hm : marked s i = true) {ops : List FrameOp} (hno : FrameOp.free i ∉ ops) :
    marked (frameRun s ops) i = true := by
  induction ops generalizing s with
  | nil => exact hm
  | cons op ops ih =>
    obtain ⟨hne, hrest⟩ := not_or.mp (mt List.mem_cons.mpr hno)
    refine ih (h.step op) ?_ hrest
    cases op with
    | alloc =>
      rcases allocFrame_cases s with ⟨k, -, he⟩ | ⟨-, he⟩
      · rw [frameStep, he, marked_takeFrame, hm, Bool.or_true]
      · rw [frameStep, he]
        exact hm
    | free frame =>
      have hif : i ≠ frame := fun he => hne (by rw [he])
      rw [frameStep, marked_freeFrame, hm]
      simp [hif]
    | store a v outside =>
      rw [frameStep, marked_store h.bitmap outside hi]
      exact hm

/-! ## The guarantees -/

theorem takeFrame_ne {s : State} {i : Nat} (hclear : marked s i = false) : takeFrame s i ≠ s := by
  intro he
  have hm := marked_takeFrame s i i
  rw [he, hclear] at hm
  simp at hm

/-- **Frame accounting.** In every state of every run from `init_frame_allocator`
the counter is the number of bits set; `alloc_frame` takes the lowest clear
frame when there is one and changes nothing when there is none; `free_frame`
ignores frames out of range or already free; and a frame handed out is handed
out again only after it has been freed. -/
theorem frames_accounted (s₀ s : State) (ops : List FrameOp)
    (hs : s = frameRun (initFrameAllocator s₀) ops) :
    (s.usedFrames = bitCount s.mem s.frameBitmap s.totalFrames ∧ s.usedFrames ≤ s.totalFrames) ∧
    ((allocFrame s).2 ≠ s ↔ ∃ i < s.totalFrames, marked s i = false) ∧
    (∀ i, LowestClear s i → allocFrame s = (i, takeFrame s i) ∧
      (∀ j, marked (takeFrame s i) j = (decide (j = i) || marked s j)) ∧
      (takeFrame s i).usedFrames = s.usedFrames + 1) ∧
    (∀ f, s.totalFrames ≤ f ∨ marked s f = false → freeFrame s f = s) ∧
    (∀ f < s.totalFrames, marked s f = true →
      (∀ j, marked (freeFrame s f) j = (!decide (j = f) && marked s j)) ∧
      (freeFrame s f).usedFrames + 1 = s.usedFrames) ∧
    (∀ i rest, LowestClear s i → LowestClear (frameRun (allocFrame s).2 rest) i →
      FrameOp.free i ∈ rest) := by
  have h : Accounted s := hs ▸ (Accounted.init s₀).run ops
  refine ⟨⟨h.used, h.used_le⟩, ⟨fun hne => ?_, fun ⟨i, hi, hclear⟩ => ?_⟩, fun i hi => ?_,
    fun f hf => ?_, fun f hf hm => ⟨fun j => ?_, (h.usedFrames_freeFrame hf hm).1⟩,
    fun i rest hi hagain => ?_⟩
  · rcases allocFrame_cases s with ⟨i, ⟨hi, hclear, -⟩, -⟩ | ⟨-, he⟩
    · exact ⟨i, hi, hclear⟩
    · rw [he] at hne
      exact absurd rfl hne
  · rcases allocFrame_cases s with ⟨k, ⟨-, hkclear, -⟩, he⟩ | ⟨hall, -⟩
    · rw [he]
      exact takeFrame_ne hkclear
    · have hm := hall i hi
      rw [hclear] at hm
      cases hm
  · exact ⟨hi.allocFrame, marked_takeFrame s i, (h.usedFrames_takeFrame hi.1 hi.2.1).1⟩
  · rcases freeFrame_cases s f with ⟨-, he⟩ | ⟨hlt, hm, -⟩
    · exact he
    · rcases hf with hf | hf
      · omega
      · rw [hm] at hf
        cases hf
  · rw [marked_freeFrame]
    simp only [hf, and_true]
  · by_contra hno
    have hi' : i < 32768 := by
      rw [← h.total]
      exact hi.1
    have htaken : Accounted (allocFrame s).2 := h.step .alloc
    have hm : marked (allocFrame s).2 i = true := by
      rw [hi.allocFrame, marked_takeFrame]
      simp
    have hstill := marked_run htaken hi' hm hno
    rw [hagain.2.1] at hstill
    cases hstill

/-- After one allocation and a free of frame 5 from a zeroed memory. -/
theorem frames_accounted_two :
    (frameRun (initFrameAllocator ⟨fun _ => 0, 0, 0, 0, 0⟩) [.alloc, .free 5]).usedFrames ≤
      (frameRun (initFrameAllocator ⟨fun _ => 0, 0, 0, 0, 0⟩) [.alloc, .free 5]).totalFrames :=
  (frames_accounted _ _ [.alloc, .free 5] rfl).1.2

end SynapseKernel.Paging
