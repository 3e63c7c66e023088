import SynapseKernel.Mm.KheapSafety

/-! # Which block `kmalloc` takes

`find_free_block` looks at one block at a time. No two neighbours of a reachable
heap are both free, so a free block is all there is of free bytes around it, and a
request is refused only when no stretch of free bytes has room for it. -/
namespace SynapseKernel.Kheap
open SynapseKernel.Word SynapseKernel.ByteMemory SynapseKernel.Tiling

/-- The byte at `a` belongs to a free block of the list. -/
def FreeByte (h : Heap) (a : Nat) : Prop :=
  ∃ bs, blockList h = some bs ∧ ∃ b ∈ bs, b.isFree = true ∧ b.addr ≤ a ∧ a < b.addr + b.size

/-- The bytes from `lo` up to `hi` belong to free blocks. -/
def FreeStretch (h : Heap) (lo hi : Nat) : Prop := ∀ a, lo ≤ a → a < hi → FreeByte h a

/-- The bytes on either side do not. -/
structure MaximalStretch (h : Heap) (lo hi : Nat) : Prop where
  nonempty : lo < hi
  free : FreeStretch h lo hi
  left : ∀ a, a + 1 = lo → ¬ FreeByte h a
  right : ¬ FreeByte h hi

/-- What `kmalloc(n)` takes from the front of a free block of `size` bytes: all
of it when the rest would be too small for a block. -/
def takenSize (n size : Nat) : Nat :=
  if size - (alignSize n + headerSize) < headerSize + 8 then size else alignSize n + headerSize

/-- The stretch from `lo` to `hi` is the lowest of those with room for `n`. -/
structure FirstFitting (h : Heap) (n lo hi : Nat) : Prop where
  maximal : MaximalStretch h lo hi
  room : lo + (alignSize n + headerSize) ≤ hi
  lowest : ∀ lo' hi', MaximalStretch h lo' hi' → lo' + (alignSize n + headerSize) ≤ hi' → lo ≤ lo'

variable {h : Heap} {bs : List Block} {n : Nat}

theorem Represents.freeByte_iff (hr : Represents h bs) (a : Nat) : FreeByte h a ↔ FreeAt bs a := by
  constructor
  · intro ⟨ls, hls, b, hb, hf, hlo, hhi⟩
    obtain rfl := Option.some.inj (hr.blockList.symm.trans hls)
    exact ⟨_, mem_listed hb, hf, hlo, hhi⟩
  · intro ⟨b, hb, hf, hlo, hhi⟩
    obtain ⟨x, hx, ha, hs, hxf⟩ := exists_mem_listed (p := 0) hb
    refine ⟨_, hr.blockList, x, hx, hxf.trans hf, ?_, ?_⟩
    · rwa [ha]
    · rwa [ha, hs]

theorem Represents.maximalStretch_iff (hr : Represents h bs) (lo hi : Nat) :
    MaximalStretch h lo hi ↔ ∃ b ∈ bs, b.free = true ∧ b.addr = lo ∧ b.addr + b.size = hi := by
  rw [← hr.layout.stretch_iff]
  have hfree := hr.freeByte_iff
  constructor
  · intro hs
    refine ⟨hs.nonempty, fun x hlo hhi => ?_, fun x hx => ?_, ?_⟩
    · exact (hfree x).mp (hs.free x hlo hhi)
    · exact mt (hfree x).mpr (hs.left x hx)
    · exact mt (hfree hi).mpr hs.right
  · intro hs
    refine ⟨hs.nonempty, fun x hlo hhi => ?_, fun x hx => ?_, ?_⟩
    · exact (hfree x).mpr (hs.free x hlo hhi)
    · exact mt (hfree x).mp (hs.left x hx)
    · exact mt (hfree hi).mp hs.right

/-- Up to `0xFFFFFFE8` the size looked for is the rounded size and the header. -/
theorem actualSize_eq (hn : n ≤ 0xFFFFFFE8) : actualSize n = alignSize n + headerSize := by
  have hact := actualSize_of_le hn
  rw [alignSize_eq, headerSize]
  unfold u32
  omega

/-- Where no block fits, no stretch has room. -/
theorem Represents.no_room (hr : Represents h bs) (hle : n ≤ 0xFFFFFFE8)
    (hnone : ∀ b ∈ bs, fits (actualSize n) b = false) (lo : Nat) :
    ¬ FreeStretch h lo (lo + (alignSize n + headerSize)) := by
  intro hs
  have hpos : lo < lo + (alignSize n + headerSize) := by
    simp only [headerSize]
    omega
  obtain ⟨b, hb, hf, hlo, hhi⟩ := hr.layout.stretch_within hpos fun x hx hx' =>
    (hr.freeByte_iff x).mp (hs x hx hx')
  have hfit := hnone b hb
  simp only [fits, hf, Bool.true_and, decide_eq_false_iff_not, actualSize_eq hle] at hfit
  omega

/-- The block that is taken is the lowest stretch with room. -/
theorem Represents.firstFitting {pre post : List Block} {b : Block}
    (hr : Represents h (pre.reverse ++ b :: post)) (hb : b.free = true) (hle : n ≤ 0xFFFFFFE8)
    (hfit : actualSize n ≤ b.size) (hpre : ∀ a ∈ pre, fits (actualSize n) a = false) :
    FirstFitting h n b.addr (b.addr + b.size) := by
  have hact := actualSize_eq hle
  refine ⟨(hr.maximalStretch_iff _ _).mpr ⟨b, by simp, hb, rfl, rfl⟩, by omega, ?_⟩
  intro lo' hi' hs hroom
  obtain ⟨c, hc, hcf, rfl, rfl⟩ := (hr.maximalStretch_iff _ _).mp hs
  simp only [List.mem_append, List.mem_reverse, List.mem_cons] at hc
  rcases hc with hc | rfl | hc
  · -- a block before `b` has no room
    have hno := hpre c hc
    simp only [fits, hcf, Bool.true_and, decide_eq_false_iff_not] at hno
    omega
  · exact Nat.le_refl _
  · have := (Around.of_layout hr.layout).after c hc
    omega

/-- **`kmalloc` fails only when it must, and is first fit.** In every state a
client can reach a request of 1 to `0xFFFFFFE8` bytes is refused exactly when no
stretch of free bytes has room for the rounded size and a header, and leaves the
heap as it was. Otherwise it is cut from the start of the lowest such stretch, and
no other byte stops being free. -/
theorem kmalloc_firstFit {s : Client} (hr : Reach s) (hpos : 1 ≤ n) (hle : n ≤ 0xFFFFFFE8) :
    ∃ p h', kmalloc s.heap n = some (p, h') ∧
      (p = 0 ↔ ¬ ∃ lo hi, FreeStretch s.heap lo hi ∧ lo + (alignSize n + headerSize) ≤ hi) ∧
      (p = 0 → h' = s.heap) ∧
      (p ≠ 0 → ∃ lo hi, FirstFitting s.heap n lo hi ∧ p = lo + headerSize ∧
        InUse h' lo (takenSize n (hi - lo)) ∧
        ∀ a, FreeByte h' a ↔
          FreeByte s.heap a ∧ ¬ (lo ≤ a ∧ a < lo + takenSize n (hi - lo))) := by
  obtain ⟨bs, hi⟩ := hr.inv
  have hrep := hi.heap
  have hn : n ≠ 0 := by omega
  have hact := actualSize_eq hle
  rcases kmalloc_cases hrep hn with ⟨hnone, hk⟩ | ⟨pre, b, post, rfl, hb, hfit, hpre, hk⟩
  · refine ⟨0, s.heap, hk, iff_of_true rfl ?_, fun _ => rfl, fun h0 => absurd rfl h0⟩
    rintro ⟨lo, hi, hs, hroom⟩
    exact hrep.no_room hle hnone lo fun a ha ha' => hs a ha (by omega)
  · have hfirst := hrep.firstFitting hb hle hfit hpre
    have ht := represents_take hrep hb hn hle hfit
    have hne : b.addr + headerSize ≠ 0 := by simp
    have htaken : (if b.size - actualSize n < 24 then b.size else actualSize n) =
        takenSize n (b.addr + b.size - b.addr) := by
      rw [Nat.add_sub_cancel_left, hact]
      rfl
    refine ⟨_, _, hk, iff_of_false hne ?_, fun h0 => absurd h0 hne, fun _ => ?_⟩
    · exact not_not.mpr ⟨_, _, hfirst.maximal.free, hfirst.room⟩
    · refine ⟨_, _, hfirst, rfl, ?_, fun a => ?_⟩
      · rw [inUse_iff ht, ← htaken]
        exact List.mem_append_right _ (List.mem_append_left _ ((mem_carve_used rfl).mpr rfl))
      · rw [ht.freeByte_iff, hrep.freeByte_iff, hrep.layout.freeAt_carve hb hfit, htaken]

/-- At a client that holds 100 bytes. -/
theorem kmalloc_firstFit_oneAllocation :
    ∃ p h', kmalloc oneAllocation.heap 64 = some (p, h') ∧
      (p = 0 ↔ ¬ ∃ lo hi, FreeStretch oneAllocation.heap lo hi ∧
        lo + (alignSize 64 + headerSize) ≤ hi) ∧
      (p = 0 → h' = oneAllocation.heap) ∧
      (p ≠ 0 → ∃ lo hi, FirstFitting oneAllocation.heap 64 lo hi ∧ p = lo + headerSize ∧
        InUse h' lo (takenSize 64 (hi - lo)) ∧
        ∀ a, FreeByte h' a ↔
          FreeByte oneAllocation.heap a ∧ ¬ (lo ≤ a ∧ a < lo + takenSize 64 (hi - lo))) :=
  kmalloc_firstFit reach_oneAllocation (by decide) (by decide)

end SynapseKernel.Kheap
