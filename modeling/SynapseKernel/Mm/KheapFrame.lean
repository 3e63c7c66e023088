import SynapseKernel.Mm.KheapSafety

/-! # The heap stays out of what it handed out

The stores of `kmalloc` and `kfree` go to the headers of the block list and,
when a block is split, into the free block being split. A payload in use lies
outside both, so no call reaches it (`kmalloc_frame`, `kfree_frame`,
`calls_keep_live`). -/
namespace SynapseKernel.Kheap
open SynapseKernel.Word SynapseKernel.ByteMemory SynapseKernel.Tiling

/-- The address `x` lies in none of the headers of `bs`. -/
def OutsideHeaders (x : Nat) (bs : List Block) : Prop :=
  ∀ c ∈ bs, x < c.addr ∨ c.addr + 16 ≤ x

theorem OutsideHeaders.head {x : Nat} {bs : List Block} (hx : OutsideHeaders x bs)
    (h0 : headAddr bs ≠ 0) : x < headAddr bs ∨ headAddr bs + 16 ≤ x :=
  headAddr_of_forall (P := fun a => x < a ∨ a + 16 ≤ x) hx h0

/-- The address `x` lies in none of the `size`, `next` and `prev` fields of `bs`. -/
def OutsideLinks (x : Nat) (bs : List Block) : Prop :=
  ∀ c ∈ bs, x < c.addr ∨ c.addr + 12 ≤ x

theorem OutsideHeaders.links {x : Nat} {bs : List Block} (hx : OutsideHeaders x bs) :
    OutsideLinks x bs := by
  intro c hc
  have := hx c hc
  omega

theorem OutsideLinks.head {x : Nat} {bs : List Block} (hx : OutsideLinks x bs)
    (h0 : headAddr bs ≠ 0) : x < headAddr bs ∨ headAddr bs + 12 ≤ x :=
  headAddr_of_forall (P := fun a => x < a ∨ a + 12 ≤ x) hx h0

/-! ## Single stores -/

section Stores
variable {m : Mem} {b v x : Nat} {f : Bool}

theorem setSize_frame (hx : x < b ∨ b + 4 ≤ x) : setSize m b v x = m x :=
  writeLE_frame (by omega)

theorem setNext_frame (hx : x < b + 4 ∨ b + 8 ≤ x) : setNext m b v x = m x :=
  writeLE_frame (by omega)

theorem setPrev_frame (hx : x < b + 8 ∨ b + 12 ≤ x) : setPrev m b v x = m x :=
  writeLE_frame (by omega)

theorem setIsFree_frame (hx : x < b + 12 ∨ b + 13 ≤ x) : setIsFree m b f x = m x :=
  writeLE_frame (by omega)

end Stores

/-! ## Splitting and merging -/

section Frames
variable {m : Mem} {pre post : List Block} {b : Block} {n x : Nat}

/-- Writing the header of the new block keeps the `next` of the block split,
even where a size that wrapped puts the two headers on top of each other. -/
theorem next_newBlock (m : Mem) (p size : Nat) (hn : n = 0 ∨ n = 8 ∨ 16 ≤ n) :
    let m' := setIsFree (setSize m (p + n) size) (p + n) true
    (header (setPrev (setNext m' (p + n) (header m' p).next) (p + n) p) p).next =
      (header m p).next := by
  have hlt : read32 m (p + 4) % 2 ^ 32 = read32 m (p + 4) := Nat.mod_eq_of_lt (readLE_lt m _ 4)
  simp only [header, setSize, setNext, setPrev, setIsFree]
  rcases hn with rfl | rfl | hn
  · simp (disch := omega) only [Nat.add_zero, read32_write32_ne, read32_write8_ne, read32_write32,
      hlt]
  · simp (disch := omega) only [read32_write32_ne, read32_write8_ne]
  · simp (disch := omega) only [read32_write32_ne, read32_write8_ne]

theorem splitBlock_frame (hb : header m b.addr = ⟨b.size, headAddr post, headAddr pre, b.free⟩)
    (hlt : b.addr + b.size < 2 ^ 32) (hn : n = 0 ∨ n = 8 ∨ 16 ≤ n) (hfit : n ≤ b.size)
    (hx : x < b.addr ∨ b.addr + b.size ≤ x) (hpost : OutsideHeaders x post) :
    splitBlock m b.addr n x = m x := by
  have hsub : sub32 b.size n = b.size - n := sub32_of_le (by omega) hfit
  have hnew : u32 (b.addr + n) = b.addr + n := u32_of_lt (by omega)
  have hnext := next_newBlock m b.addr (b.size - n) hn
  simp only [hb] at hnext
  unfold splitBlock
  simp only [hb, hsub, hnew, hnext]
  split
  · rfl
  · rename_i hs
    rw [headerSize] at hs
    rw [setSize_frame (by omega), setNext_frame (by omega)]
    split
    · rename_i h0
      have := hpost.head h0
      rw [setPrev_frame (by omega), setPrev_frame (by omega), setNext_frame (by omega),
        setIsFree_frame (by omega), setSize_frame (by omega)]
    · rw [setPrev_frame (by omega), setNext_frame (by omega), setIsFree_frame (by omega),
        setSize_frame (by omega)]

theorem joinStores_frame {p size : Nat} (hx : x < p ∨ p + 12 ≤ x) (hpost : OutsideLinks x post) :
    joinStores m p size (headAddr post) x = m x := by
  unfold joinStores
  split
  · rename_i h0
    have := hpost.head h0
    rw [setPrev_frame (by omega), setNext_frame (by omega), setSize_frame (by omega)]
  · rw [setNext_frame (by omega), setSize_frame (by omega)]

theorem mergeNextStores_frame (hb : x < b.addr ∨ b.addr + 12 ≤ x) (hpost : OutsideLinks x post) :
    mergeNextStores m b post x = m x := by
  cases post with
  | nil => rfl
  | cons c cs =>
    simp only [mergeNextStores]
    split
    · exact joinStores_frame hb fun d hd => hpost d (List.mem_cons_of_mem _ hd)
    · rfl

theorem mergePrevStores_frame (hpre : OutsideLinks x pre) (hpost : OutsideLinks x post) :
    mergePrevStores m b post pre x = m x := by
  cases pre with
  | nil => rfl
  | cons a as =>
    simp only [mergePrevStores]
    split
    · exact joinStores_frame (hpre a (by simp)) hpost
    · rfl

/-- The blocks after a merge to the right were there before it. -/
theorem OutsideLinks.joinNext (hpost : OutsideLinks x post) :
    OutsideLinks x (joinNext b post).2 := by
  cases post with
  | nil => exact hpost
  | cons c cs =>
    simp only [Tiling.joinNext]
    split
    · exact fun d hd => hpost d (List.mem_cons_of_mem _ hd)
    · exact hpost

end Frames

/-! ## The calls -/

section Calls
variable {h : Heap} {bs : List Block} {x : Nat}

/-- The address `x` lies in a block in use, past its header. -/
def InPayload (x : Nat) (bs : List Block) : Prop :=
  ∃ c ∈ bs, c.free = false ∧ c.addr + 16 ≤ x ∧ x < c.addr + c.size

/-- A payload is clear of every header and of every other block. -/
theorem InPayload.clear (hlay : KheapLayout bs) (hx : InPayload x bs) :
    OutsideHeaders x bs ∧ ∀ b ∈ bs, b.free = true → x < b.addr ∨ b.addr + b.size ≤ x := by
  obtain ⟨c, hc, hf, hlo, hhi⟩ := hx
  have hapart : ∀ b ∈ bs, b.addr ≠ c.addr → x < b.addr ∨ b.addr + b.size ≤ x := by
    intro b hb hne
    have := hlay.tiles.disjoint hb hc hne
    omega
  refine ⟨fun b hb => ?_, fun b hb hbf => hapart b hb fun he => ?_⟩
  · by_cases he : b.addr = c.addr
    · omega
    · have := hapart b hb he
      have := (hlay.sizes b hb).2
      omega
  · rw [hlay.tiles.eq_of_addr hb hc he, hf] at hbf
    cases hbf

/-- The sum `kmalloc` looks for is a multiple of 8, wrapped or not. -/
theorem actualSize_cases (n : Nat) : actualSize n = 0 ∨ actualSize n = 8 ∨ 16 ≤ actualSize n := by
  rw [actualSize, alignSize_eq]
  unfold u32 headerSize
  omega

/-- `kmalloc` leaves the payloads in use alone, whatever the size. -/
theorem kmalloc_frame {h' : Heap} {n p : Nat} (hr : Represents h bs) (hx : InPayload x bs)
    (hk : kmalloc h n = some (p, h')) : h'.mem x = h.mem x := by
  by_cases hn : n = 0
  · rw [kmalloc, if_pos hn] at hk
    obtain ⟨rfl, rfl⟩ := Prod.mk.inj (Option.some.inj hk)
    rfl
  · obtain ⟨hout, hfree⟩ := hx.clear hr.layout
    rcases kmalloc_cases hr hn with ⟨-, hk'⟩ | ⟨pre, b, post, rfl, hb, hfit, -, hk'⟩
    · obtain ⟨rfl, rfl⟩ := Prod.mk.inj (Option.some.inj (hk'.symm.trans hk))
      rfl
    · obtain ⟨rfl, rfl⟩ := Prod.mk.inj (Option.some.inj (hk'.symm.trans hk))
      have around := Around.of_layout hr.layout
      have hbelow := around.below
      have hsize := around.size
      have hxb := hfree b (by simp) hb
      have hsplit : splitBlock h.mem b.addr (actualSize n) x = h.mem x :=
        splitBlock_frame (linked_zipper.mp hr.links).2.1 (by omega) (actualSize_cases n) hfit hxb
          fun c hc => hout c (by simp [hc])
      simp only [afterTake]
      rw [setIsFree_frame (by omega), hsplit]

/-- Next to the flag of the block, `kfree` of a block in use writes links only. -/
theorem kfree_links_frame {pre post : List Block} {b : Block}
    (hr : Represents h (pre.reverse ++ b :: post)) (hb : b.free = false)
    (hx : OutsideLinks x (pre.reverse ++ b :: post)) :
    (kfree h (b.addr + headerSize)).mem x = setIsFree h.mem b.addr true x := by
  obtain ⟨hstores, haddr, hlinks, htiles, hsizes⟩ := release_halfway hr.links hr.layout
  have hprev := mergePrev_eq hlinks htiles hsizes
  rw [haddr, hstores] at hprev
  have hxb := hx b (by simp)
  have hpre : OutsideLinks x pre := fun c hc => hx c (by simp [hc])
  have hpost : OutsideLinks x post := fun c hc => hx c (by simp [hc])
  rw [kfree_eq hr hb]
  simp only [afterRelease, mergeBlocks]
  rw [hstores, hprev, mergePrevStores_frame hpre hpost.joinNext,
    mergeNextStores_frame (b := { b with free := true }) hxb hpost]

/-- `kfree` of a block in use writes headers only. -/
theorem kfree_frame {pre post : List Block} {b : Block}
    (hr : Represents h (pre.reverse ++ b :: post)) (hb : b.free = false)
    (hx : OutsideHeaders x (pre.reverse ++ b :: post)) :
    (kfree h (b.addr + headerSize)).mem x = h.mem x := by
  have hxb := hx b (by simp)
  rw [kfree_links_frame hr hb hx.links, setIsFree_frame (by omega)]

end Calls

/-! ## What a client holds -/

/-- `kmalloc(n)` writes the byte at `a`: some value of that byte does not
survive the call. -/
def KmallocWrites (h : Heap) (n a : Nat) : Prop :=
  ∃ (v : UInt8) (p : Nat) (h' : Heap),
    kmalloc { h with mem := Function.update h.mem a v } n = some (p, h') ∧ h'.mem a ≠ v

/-- `kfree(p)` writes the byte at `a`. -/
def KfreeWrites (h : Heap) (p a : Nat) : Prop :=
  ∃ v : UInt8, (kfree { h with mem := Function.update h.mem a v } p).mem a ≠ v

theorem ClientInv.inPayload {s : Client} {bs : List Block} {q k a : Nat} (hi : ClientInv s bs)
    (hl : (q, k) ∈ s.live) (hq : q ≤ a) (ha : a < q + k) : InPayload a bs := by
  obtain ⟨b, hb, hf, rfl, hk⟩ := hi.held q k hl
  exact ⟨b, hb, hf, hq, by omega⟩

/-- A `kmalloc` a client makes keeps the bytes it holds. -/
theorem Reach.kmalloc_keeps {s : Client} {h' : Heap} {n p q k a : Nat} (hr : Reach s)
    (hl : (q, k) ∈ s.live) (hq : q ≤ a) (ha : a < q + k) (hk : kmalloc s.heap n = some (p, h')) :
    h'.mem a = s.heap.mem a := by
  obtain ⟨bs, hi⟩ := hr.inv
  exact kmalloc_frame hi.heap (hi.inPayload hl hq ha) hk

/-- A `kfree` a client makes keeps the bytes it held. -/
theorem Reach.kfree_keeps {s : Client} {p q k a : Nat} (hr : Reach s)
    (hp : p = 0 ∨ ∃ n, (p, n) ∈ s.live) (hl : (q, k) ∈ s.live)
    (hq : q ≤ a) (ha : a < q + k) : (kfree s.heap p).mem a = s.heap.mem a := by
  rcases hp with rfl | ⟨n, hp⟩
  · rfl
  · obtain ⟨bs, hi⟩ := hr.inv
    have hx := hi.inPayload hl hq ha
    obtain ⟨b, hb, hf, rfl, -⟩ := hi.held p n hp
    have hout := (hx.clear hi.heap.layout).1
    obtain ⟨l, post, rfl⟩ := List.append_of_mem hb
    have hrep : Represents s.heap (l.reverse.reverse ++ b :: post) := by
      rw [List.reverse_reverse]
      exact hi.heap
    exact kfree_frame hrep hf (by rwa [List.reverse_reverse])

/-- **No call of the heap touches live data.** In every state a client can
reach, a further `kmalloc` returns and neither writes nor changes a byte of any
payload held, and a `kfree` of `NULL` or of a pointer held does neither too,
not even to the payload it gives back. -/
theorem calls_keep_live {s : Client} (hr : Reach s) :
    (∀ n, ∃ p h', kmalloc s.heap n = some (p, h') ∧
      ∀ q k a, (q, k) ∈ s.live → q ≤ a → a < q + k →
        ¬ KmallocWrites s.heap n a ∧ h'.mem a = s.heap.mem a) ∧
    ∀ p, (p = 0 ∨ ∃ n, (p, n) ∈ s.live) →
      ∀ q k a, (q, k) ∈ s.live → q ≤ a → a < q + k →
        ¬ KfreeWrites s.heap p a ∧ (kfree s.heap p).mem a = s.heap.mem a := by
  refine ⟨fun n => ?_, fun p hp q k a hl hq ha => ⟨?_, hr.kfree_keeps hp hl hq ha⟩⟩
  · obtain ⟨bs, hi⟩ := hr.inv
    obtain ⟨p, h', hk⟩ := kmalloc_isSome hi.heap n
    refine ⟨p, h', hk, fun q k a hl hq ha => ⟨?_, hr.kmalloc_keeps hl hq ha hk⟩⟩
    -- the state with another byte at `a` is one the client can reach too
    rintro ⟨v, p', h'', hk', hne⟩
    have hkeep := (hr.store (v := v) hl hq ha).kmalloc_keeps hl hq ha hk'
    exact hne (hkeep.trans (Function.update_self ..))
  · rintro ⟨v, hne⟩
    have hkeep := (hr.store (v := v) hl hq ha).kfree_keeps hp hl hq ha
    exact hne (hkeep.trans (Function.update_self ..))

theorem calls_keep_live_oneAllocation :
    ¬ KmallocWrites oneAllocation.heap 40 (kheapStart + headerSize + 7) := by
  obtain ⟨_, _, -, hkeep⟩ := (calls_keep_live reach_oneAllocation).1 40
  exact (hkeep _ 100 _ List.mem_cons_self (by decide) (by decide)).1

end SynapseKernel.Kheap
