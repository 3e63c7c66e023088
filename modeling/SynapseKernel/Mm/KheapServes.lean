import SynapseKernel.Mm.BlockHeap
import SynapseKernel.Mm.KheapSafety

/-! # Calls answered by the kernel heap

`Serves` carries out the calls that lead from one heap of numbered blocks to another
on the heap of kernel/mm/kheap.c. Whatever the calls were, and whatever the owners
wrote to their payloads between them: when the live blocks are those of before, so
is the block list (`Serves.restores`). -/
namespace SynapseKernel.Kheap
open SynapseKernel.Word SynapseKernel.ByteMemory SynapseKernel.Tiling

/-- The calls that lead from `b` to the second heap of blocks, each answered by
the kernel heap as that says, take the client `c` to the second client. -/
inductive Serves (c : Client) (b : BlockHeap) : Client → BlockHeap → Prop
  | refl : Serves c b c b
  | kmalloc {c' : Client} {b' : BlockHeap} {n p : Nat} {heap : Heap} : Serves c b c' b' →
      SizeOk c'.heap n → kmalloc c'.heap n = some (p, heap) →
      ((b'.kmalloc n).1 = 0 ↔ p = 0) → (p ≠ 0 → b'.addr (b'.requests + 1) = p) →
      Serves c b ⟨heap, if p = 0 then c'.live else (p, n) :: c'.live⟩ (b'.kmalloc n).2
  | kfree {c' : Client} {b' : BlockHeap} {block n : Nat} : Serves c b c' b' → b'.Live block →
      (b'.addr block, n) ∈ c'.live →
      Serves c b ⟨kfree c'.heap (b'.addr block), c'.live.erase (b'.addr block, n)⟩ (b'.kfree block)
  | kfreeNull {c' : Client} {b' : BlockHeap} : Serves c b c' b' →
      Serves c b ⟨kfree c'.heap 0, c'.live⟩ (b'.kfree 0)
  | store {c' : Client} {b' : BlockHeap} {p n a : Nat} {v : UInt8} : Serves c b c' b' →
      (p, n) ∈ c'.live → p ≤ a → a < p + n →
      Serves c b ⟨{ c'.heap with mem := Function.update c'.heap.mem a v }, c'.live⟩ b'

variable {c c' : Client} {b b' : BlockHeap} {h h' : Heap} {bs : List Block} {a k n p : Nat}

/-! ## Blocks in use -/

/-- `kmalloc` leaves the blocks in use as they are. -/
theorem InUse.kmalloc (hu : InUse h a k) (hr : Represents h bs) (hok : SizeOk h n)
    (hk : kmalloc h n = some (p, h')) : InUse h' a k := by
  by_cases hn : n = 0
  · rw [Kheap.kmalloc, if_pos hn] at hk
    obtain ⟨rfl, rfl⟩ := Prod.mk.inj (Option.some.inj hk)
    exact hu
  rcases kmalloc_cases hr hn with ⟨-, hk'⟩ | ⟨pre, b, post, rfl, hb, hfit, -, hk'⟩
  · obtain ⟨rfl, rfl⟩ := Prod.mk.inj (Option.some.inj (hk'.symm.trans hk))
    exact hu
  · obtain ⟨rfl, rfl⟩ := Prod.mk.inj (Option.some.inj (hk'.symm.trans hk))
    have hle := hok.le hr (by simp) hb
    rw [inUse_iff (represents_take hr hb hn hle hfit)]
    have hm := (inUse_iff hr a k).mp hu
    simp only [List.mem_append, List.mem_cons] at hm ⊢
    rcases hm with hm | rfl | hm
    · exact .inl hm
    · cases hb
    · exact .inr (.inr hm)

/-- `kfree` of one block leaves the others in use. -/
theorem InUse.kfree {pre post : List Block} {b : Block} (hu : InUse h a k)
    (hr : Represents h (pre.reverse ++ b :: post)) (hb : b.free = false) (ha : a ≠ b.addr) :
    InUse (kfree h (b.addr + headerSize)) a k := by
  have hrel := represents_release hr
  rw [← kfree_eq hr hb] at hrel
  rw [inUse_iff hrel, mem_release_used rfl]
  have hm := (inUse_iff hr a k).mp hu
  simp only [List.mem_append, List.mem_reverse, List.mem_cons] at hm
  rcases hm with hm | rfl | hm
  · exact .inl hm
  · exact absurd rfl ha
  · exact .inr hm

/-- An owner's store leaves the block list as it is. -/
theorem ClientInv.blockList_store {v : UInt8} (hi : ClientInv c bs) (hl : (p, n) ∈ c.live)
    (hp : p ≤ a) (ha : a < p + n) :
    blockList { c.heap with mem := Function.update c.heap.mem a v } = blockList c.heap :=
  (hi.store (v := v) hl hp ha).heap.blockList.trans hi.heap.blockList.symm

/-! ## A run of calls -/

/-- The numbering is one of the new heap as well. -/
theorem Serves.views (hs : Serves c b c' b') (hv : Views c b) : Views c' b' := by
  induction hs with
  | refl => exact hv
  | kmalloc _ hok hk hg ha ih => exact ih.kmalloc hok hk hg ha
  | kfree _ hl hm ih => exact ih.kfree hl hm
  | @kfreeNull c' b' _ ih =>
    have hlive : ∀ i, (b'.kfree 0).Live i ↔ b'.Live i := by
      intro i
      rw [BlockHeap.live_kfree]
      exact and_iff_left_of_imp fun hl => Nat.ne_of_gt hl.pos
    refine ⟨ih.reach, ih.sane.kfree (Nat.zero_le _), fun i hi => ?_, fun i j hi hj => ?_,
      fun q k hq => ?_⟩
    · exact ih.held i ((hlive i).mp hi)
    · exact ih.injective i j ((hlive i).mp hi) ((hlive j).mp hj)
    · obtain ⟨i, hi, he⟩ := ih.covers q k hq
      exact ⟨i, (hlive i).mpr hi, he⟩
  | store _ hl hp ha ih => exact ⟨ih.reach.store hl hp ha, ih.sane, ih.held, ih.injective, ih.covers⟩

/-- What a run of calls leaves alone: where blocks are, and those it does not free. -/
structure Leaves (c : Client) (b : BlockHeap) (c' : Client) (b' : BlockHeap) : Prop where
  addr : b'.addr = b.addr
  requests : b.requests ≤ b'.requests
  live : ∀ i, i ≤ b.requests → b'.Live i → b.Live i
  inUse : ∀ i a k, b.Live i → b'.Live i → b.addr i = a + 16 → InUse c.heap a k → InUse c'.heap a k

theorem Leaves.refl (c : Client) (b : BlockHeap) : Leaves c b c b :=
  ⟨rfl, Nat.le_refl _, fun _ _ => id, fun _ _ _ _ _ _ => id⟩

theorem Leaves.kmalloc {heap : Heap} {live : List (Nat × Nat)} (h : Leaves c b c' b')
    (hv : Views c' b') (hok : SizeOk c'.heap n) (hk : kmalloc c'.heap n = some (p, heap)) :
    Leaves c b ⟨heap, live⟩ (b'.kmalloc n).2 := by
  obtain ⟨bs, hi⟩ := hv.reach.inv
  have hold : ∀ i, i ≤ b.requests → (b'.kmalloc n).2.Live i → b'.Live i := fun i hle =>
    (BlockHeap.live_kmalloc_of_le (Nat.le_trans hle h.requests)).mp
  refine ⟨h.addr, Nat.le_trans h.requests (b'.requests_le_kmalloc n),
    fun i hle hl => h.live i hle (hold i hle hl), fun i a k hl hl' ha hu => ?_⟩
  exact (h.inUse i a k hl (hold i hl.le hl') ha hu).kmalloc hi.heap hok hk

theorem Leaves.kfree {block : Nat} (h : Leaves c b c' b') (hv : Views c' b')
    (hl : b'.Live block) (hm : (b'.addr block, n) ∈ c'.live) {live : List (Nat × Nat)} :
    Leaves c b ⟨kfree c'.heap (b'.addr block), live⟩ (b'.kfree block) := by
  obtain ⟨bs, hi⟩ := hv.reach.inv
  obtain ⟨blk, hb, hf, hbp, -⟩ := hi.held _ n hm
  obtain ⟨l, post, rfl⟩ := List.append_of_mem hb
  have hrep : Represents c'.heap (l.reverse.reverse ++ blk :: post) := by
    rw [List.reverse_reverse]
    exact hi.heap
  refine ⟨h.addr, h.requests, fun i hle hl' => h.live i hle (BlockHeap.live_kfree.mp hl').1,
    fun i a k hli hl' ha hu => ?_⟩
  obtain ⟨hli', hne⟩ := BlockHeap.live_kfree.mp hl'
  -- another block is at another address
  have haddr : a ≠ blk.addr := by
    rintro rfl
    refine hne (hv.injective i block hli' hl ?_)
    rw [← hbp, ← ha, h.addr]
  have hkept := (h.inUse i a k hli hli' ha hu).kfree hrep hf haddr
  rw [headerSize, hbp] at hkept
  exact hkept

theorem Serves.leaves (hs : Serves c b c' b') (hv : Views c b) : Leaves c b c' b' := by
  induction hs with
  | refl => exact .refl c b
  | kmalloc hs hok hk _ _ ih => exact ih.kmalloc (hs.views hv) hok hk
  | kfree hs hl hm ih => exact ih.kfree (hs.views hv) hl hm
  | kfreeNull _ ih =>
    refine ⟨ih.addr, ih.requests, fun i hle hl => ih.live i hle (BlockHeap.live_kfree.mp hl).1,
      fun i a k hl hl' => ih.inUse i a k hl (BlockHeap.live_kfree.mp hl').1⟩
  | @store _ _ _ _ _ v hs hl hp ha ih =>
    obtain ⟨bs, hi⟩ := (hs.views hv).reach.inv
    refine ⟨ih.addr, ih.requests, ih.live, fun i a k hli hli' he hu => ?_⟩
    have hlist := hi.blockList_store (v := v) hl hp ha
    unfold InUse
    rw [hlist]
    exact ih.inUse i a k hli hli' he hu

/-- A block in use is a live one. -/
theorem Views.exists_of_inUse (hv : Views c b) (hu : InUse c.heap a k) :
    ∃ i, b.Live i ∧ b.addr i = a + 16 := by
  obtain ⟨bs, hi⟩ := hv.reach.inv
  obtain ⟨n, hn⟩ := hi.used _ ((inUse_iff hi.heap a k).mp hu) rfl
  exact hv.covers _ n hn

/-- A live block is in use. -/
theorem Views.inUse_of_live {i : Nat} (hv : Views c b) (hl : b.Live i) (ha : b.addr i = a + 16) :
    ∃ k, InUse c.heap a k := by
  obtain ⟨bs, hi⟩ := hv.reach.inv
  obtain ⟨n, hn⟩ := hv.held i hl
  obtain ⟨blk, hb, hf, hbp, -⟩ := hi.held _ n hn
  refine ⟨blk.size, (inUse_iff hi.heap a _).mpr ?_⟩
  have hblk : blk = ⟨a, blk.size, false⟩ := by
    cases blk
    simp only at hf hbp
    subst hf
    simp only [Block.mk.injEq, and_true]
    omega
  exact hblk ▸ hb

/-- A block in use has one size. -/
theorem Represents.inUse_inj {k' : Nat} (hr : Represents h bs) (hu : InUse h a k)
    (hu' : InUse h a k') : k = k' := by
  have hm := (inUse_iff hr a k).mp hu
  have hm' := (inUse_iff hr a k').mp hu'
  exact congrArg Block.size (hr.layout.tiles.eq_of_addr hm hm' rfl)

/-- **Calls that end with the live blocks they began with restore the block list**:
addresses, sizes, flags and links. -/
theorem Serves.restores (hs : Serves c b c' b') (hv : Views c b)
    (hlive : ∀ i, b'.Live i ↔ b.Live i) : blockList c'.heap = blockList c.heap := by
  have hv' := hs.views hv
  have hleaves := hs.leaves hv
  obtain ⟨bs, hi⟩ := hv.reach.inv
  obtain ⟨bs', hi'⟩ := hv'.reach.inv
  refine blockList_congr hi'.heap hi.heap fun a k => ⟨fun hu => ?_, fun hu => ?_⟩
  · obtain ⟨i, hl, ha⟩ := hv'.exists_of_inUse hu
    have hl₀ := (hlive i).mp hl
    rw [hleaves.addr] at ha
    obtain ⟨k', hu₀⟩ := hv.inUse_of_live hl₀ ha
    have hkept := hleaves.inUse i a k' hl₀ hl ha hu₀
    rwa [hi'.heap.inUse_inj hu hkept]
  · obtain ⟨i, hl, ha⟩ := hv.exists_of_inUse hu
    exact hleaves.inUse i a k hl ((hlive i).mpr hl) ha hu

end SynapseKernel.Kheap
