import SynapseKernel.Mm.KheapRuns

/-! # What the kernel heap guarantees

The three results of this file hold in every state a client can reach: the
block list is well formed and live payloads are disjoint
(`reach_wellFormed`), the list is a function of the blocks in use
(`layout_of_inUse`), and `kmalloc` serves exactly the sizes whose rounding and
header do not wrap (`honoursSize_iff`). -/
namespace SynapseKernel.Kheap
open SynapseKernel.Word SynapseKernel.ByteMemory SynapseKernel.Tiling

/-- The first request of a fresh heap is served from its start. -/
theorem kmalloc_init (m : Mem) {n : Nat} (hn : n ≠ 0) (hfit : actualSize n ≤ kheapSize) :
    kmalloc (initKheap m) n =
      some (kheapStart + headerSize, afterTake (initKheap m) kheapStart n) := by
  rcases kmalloc_cases (represents_init m) hn with ⟨hnone, -⟩ | ⟨pre, b, post, he, -, -, -, hk⟩
  · have := hnone _ (List.mem_singleton.mpr rfl)
    simp [fits, hfit] at this
  · have hb : b = ⟨kheapStart, kheapSize, true⟩ := by
      have hmem : b ∈ pre.reverse ++ b :: post := by simp
      rw [← he] at hmem
      exact List.mem_singleton.mp hmem
    rw [hk, hb]

/-! ## The representation invariant -/

theorem ClientInv.payload {s : Client} {bs : List Block} (hi : ClientInv s bs) {p n : Nat}
    (hl : (p, n) ∈ s.live) : 8 ∣ p ∧ kheapStart ≤ p ∧ p + n ≤ kheapStart + kheapSize := by
  obtain ⟨b, hb, -, rfl, hn⟩ := hi.held p n hl
  have hbound := hi.heap.layout.tiles.bounds b hb
  have hdvd := hi.heap.layout.tiles.dvd_addr (by decide)
    (fun c hc => (hi.heap.layout.sizes c hc).1) b hb
  simp only [kheapStart, kheapSize] at hbound
  simp only [kheapStart, kheapSize]
  omega

theorem ClientInv.payloads_disjoint {s : Client} {bs : List Block} (hi : ClientInv s bs) :
    s.live.Pairwise fun a b => a.1 + a.2 ≤ b.1 ∨ b.1 + b.2 ≤ a.1 := by
  have hne : s.live.Pairwise fun a b => a.1 ≠ b.1 := List.pairwise_map.mp hi.nodup
  refine hne.imp_of_mem fun {a b} ha hb hab => ?_
  obtain ⟨c, hc, -, hca, hcn⟩ := hi.held a.1 a.2 ha
  obtain ⟨d, hd, -, hda, hdn⟩ := hi.held b.1 b.2 hb
  have := hi.heap.layout.tiles.disjoint hc hd (by omega)
  omega

/-- **The heap's representation invariant.** Whatever a client does, the block
list is well formed, the payloads it holds are aligned, inside the heap and
pairwise disjoint, and the next `kmalloc` returns. -/
theorem reach_wellFormed {s : Client} (hr : Reach s) :
    (∃ bs, blockList s.heap = some bs ∧ WellFormed bs) ∧
    (∀ p n, (p, n) ∈ s.live → 8 ∣ p ∧ kheapStart ≤ p ∧ p + n ≤ kheapStart + kheapSize) ∧
    s.live.Pairwise (fun a b => a.1 + a.2 ≤ b.1 ∨ b.1 + b.2 ≤ a.1) ∧
    ∀ n, ∃ p h, kmalloc s.heap n = some (p, h) := by
  obtain ⟨bs, hi⟩ := hr.inv
  exact ⟨⟨_, hi.heap.blockList, listed_wellFormed hi.heap.layout⟩, fun p n hl => hi.payload hl,
    hi.payloads_disjoint, kmalloc_isSome hi.heap⟩

/-- A client that has allocated 100 bytes. -/
def oneAllocation : Client :=
  ⟨afterTake (initKheap fun _ => 0) kheapStart 100, [(kheapStart + headerSize, 100)]⟩

theorem reach_oneAllocation : Reach oneAllocation :=
  Reach.malloc (.init fun _ => 0) (.inl (by decide))
    (kmalloc_init (fun _ => 0) (by decide) (by decide))

theorem oneAllocation_wellFormed :
    (∃ bs, blockList oneAllocation.heap = some bs ∧ WellFormed bs) ∧
    (∀ p n, (p, n) ∈ oneAllocation.live →
      8 ∣ p ∧ kheapStart ≤ p ∧ p + n ≤ kheapStart + kheapSize) ∧
    oneAllocation.live.Pairwise (fun a b => a.1 + a.2 ≤ b.1 ∨ b.1 + b.2 ≤ a.1) ∧
    ∀ n, ∃ p h, kmalloc oneAllocation.heap n = some (p, h) :=
  reach_wellFormed reach_oneAllocation

/-! ## The layout does not depend on history -/

/-- The block list has a block in use of this address and size. -/
def InUse (h : Heap) (addr size : Nat) : Prop :=
  ∃ bs, blockList h = some bs ∧ ∃ b ∈ bs, b.addr = addr ∧ b.size = size ∧ b.isFree = false

theorem inUse_iff {h : Heap} {bs : List Block} (hr : Represents h bs) (addr size : Nat) :
    InUse h addr size ↔ ⟨addr, size, false⟩ ∈ bs := by
  constructor
  · intro ⟨ls, hls, b, hb, ha, hs, hf⟩
    obtain rfl := Option.some.inj (hr.blockList.symm.trans hls)
    have := mem_listed hb
    rwa [ha, hs, hf] at this
  · intro hb
    obtain ⟨x, hx, ha, hs, hf⟩ := exists_mem_listed (p := 0) hb
    exact ⟨_, hr.blockList, x, hx, ha, hs, hf⟩

/-- Two heaps with the same blocks in use have the same block list. -/
theorem blockList_congr {h k : Heap} {bs cs : List Block} (hr : Represents h bs)
    (kr : Represents k cs) (hu : ∀ a n, InUse h a n ↔ InUse k a n) : blockList h = blockList k := by
  have he : bs = cs := hr.layout.canonical kr.layout fun c hc => by
    have := hu c.addr c.size
    rw [inUse_iff hr, inUse_iff kr] at this
    cases c
    simp only at hc
    subst hc
    exact this
  rw [hr.blockList, kr.blockList, he]

/-- The block list of a heap with nothing allocated. -/
def emptyList : List HeapBlock := [⟨⟨kheapSize, 0, 0, true⟩, kheapStart⟩]

theorem ClientInv.blockList_of_nil {s : Client} {bs : List Block} (hi : ClientInv s bs)
    (hl : s.live = []) : blockList s.heap = some emptyList := by
  have h0 := represents_init s.heap.mem
  have hlist := blockList_congr hi.heap h0 fun a n => by
    rw [inUse_iff hi.heap, inUse_iff h0]
    refine ⟨fun h => ?_, fun h => ?_⟩
    · obtain ⟨k, hk⟩ := hi.used _ h rfl
      rw [hl] at hk
      cases hk
    · simp at h
  rw [hlist, h0.blockList]
  rfl

/-- Freeing what is held, in any order, empties the heap. -/
theorem reach_freeAll {ps : List Nat} :
    ∀ {s : Client}, Reach s → ps.Perm (s.live.map Prod.fst) →
      Reach ⟨ps.foldl kfree s.heap, []⟩ := by
  induction ps with
  | nil =>
    intro s hr hp
    have hnil : s.live = [] := by simpa using hp.symm.eq_nil
    cases s
    simp only at hnil
    subst hnil
    exact hr
  | cons p ps ih =>
    intro s hr hp
    obtain ⟨⟨q, n⟩, hm, rfl⟩ := List.mem_map.mp (hp.subset List.mem_cons_self)
    have hrest : ps.Perm ((s.live.erase (q, n)).map Prod.fst) := by
      have he : (s.live.map Prod.fst).Perm (q :: (s.live.erase (q, n)).map Prod.fst) :=
        (List.perm_cons_erase hm).map Prod.fst
      exact (hp.trans he).cons_inv
    exact ih (Reach.free hr hm) hrest

/-- Giving back the block just carved leaves the other blocks in use. -/
theorem inUse_kfree_afterTake {h : Heap} {pre post : List Block} {b : Block} {n : Nat}
    (hr : Represents h (pre.reverse ++ b :: post)) (hb : b.free = true) (hn : n ≠ 0)
    (hle : n ≤ 0xFFFFFFE8) (hfit : actualSize n ≤ b.size) :
    ∃ cs, Represents (kfree (afterTake h b.addr n) (b.addr + headerSize)) cs ∧
      ∀ c : Block, c.free = false → (c ∈ cs ↔ c ∈ pre ∨ c ∈ post) := by
  have ht := represents_take hr hb hn hle hfit
  -- the carved block stands before its rest, when there is one
  obtain ⟨c, rest, hcarve, hc, hused, hrest⟩ : ∃ (c : Block) (rest : List Block),
      carve (actualSize n) 24 b = c :: rest ∧ c.addr = b.addr ∧ c.free = false ∧
        ∀ x ∈ rest, x.free = true := by
    unfold carve
    split
    · exact ⟨_, _, rfl, rfl, rfl, by simp⟩
    · exact ⟨_, _, rfl, rfl, rfl, by simp⟩
  rw [hcarve, List.cons_append] at ht
  have hk := kfree_eq ht hused
  rw [hc] at hk
  rw [hk]
  refine ⟨_, represents_release ht, fun x hx => ?_⟩
  rw [mem_release_used hx, List.mem_append]
  have hnot : x ∉ rest := fun hm => by
    rw [hrest x hm] at hx
    cases hx
  simp [hnot]

/-- A `kmalloc` followed by `kfree` of its result restores the block list. -/
theorem blockList_kmalloc_kfree {h h' : Heap} {bs : List Block} {n p : Nat}
    (hr : Represents h bs) (hok : SizeOk h n) (hk : kmalloc h n = some (p, h')) :
    blockList (kfree h' p) = blockList h := by
  by_cases hn : n = 0
  · rw [kmalloc, if_pos hn] at hk
    obtain ⟨rfl, rfl⟩ := Prod.mk.inj (Option.some.inj hk)
    rfl
  · rcases kmalloc_cases hr hn with ⟨-, hk'⟩ | ⟨pre, b, post, rfl, hb, hfit, -, hk'⟩
    · obtain ⟨rfl, rfl⟩ := Prod.mk.inj (Option.some.inj (hk'.symm.trans hk))
      rfl
    · obtain ⟨rfl, rfl⟩ := Prod.mk.inj (Option.some.inj (hk'.symm.trans hk))
      have hle := hok.le hr (by simp) hb
      obtain ⟨cs, hcs, hused⟩ := inUse_kfree_afterTake hr hb hn hle hfit
      refine blockList_congr hcs hr fun a k => ?_
      rw [inUse_iff hcs, inUse_iff hr, hused _ rfl]
      have hne : (⟨a, k, false⟩ : Block) ≠ b := fun he => by
        rw [← he] at hb
        cases hb
      simp [hne]

/-- **The layout does not depend on history.** Two runs that end with the same
blocks in use end with the same block list. Freeing everything held, in any
order, leaves the one free block, and `kmalloc` then `kfree` restores the list. -/
theorem layout_of_inUse :
    (∀ s t : Client, Reach s → Reach t → (∀ a n, InUse s.heap a n ↔ InUse t.heap a n) →
      blockList s.heap = blockList t.heap) ∧
    (∀ (s : Client) (ps : List Nat), Reach s → ps.Perm (s.live.map Prod.fst) →
      blockList (ps.foldl kfree s.heap) = some emptyList) ∧
    (∀ (s : Client) (n p : Nat) (h : Heap), Reach s → SizeOk s.heap n → kmalloc s.heap n = some (p, h) →
      blockList (kfree h p) = blockList s.heap) := by
  refine ⟨fun s t hs ht hu => ?_, fun s ps hs hp => ?_, fun s n p h hs hok hk => ?_⟩
  · obtain ⟨bs, hi⟩ := hs.inv
    obtain ⟨cs, hj⟩ := ht.inv
    exact blockList_congr hi.heap hj.heap hu
  · obtain ⟨bs, hi⟩ := (reach_freeAll hs hp).inv
    exact hi.blockList_of_nil rfl
  · obtain ⟨bs, hi⟩ := hs.inv
    exact blockList_kmalloc_kfree hi.heap hok hk

/-- At a client that holds 100 bytes. -/
theorem layout_of_inUse_oneAllocation :
    blockList (kfree oneAllocation.heap (kheapStart + headerSize)) = some emptyList :=
  layout_of_inUse.2.1 oneAllocation [kheapStart + headerSize] reach_oneAllocation (.refl _)

/-! ## Which sizes `kmalloc` honours -/

/-- `kmalloc(n)` returns `NULL` and leaves the block list as it was, or returns
a block with room for `n` bytes and leaves a well-formed tiling of the heap. -/
def HonoursSize (h : Heap) (n : Nat) : Prop :=
  ∃ p h', kmalloc h n = some (p, h') ∧
    ((p = 0 ∧ blockList h' = blockList h) ∨
      (p ≠ 0 ∧ n + headerSize ≤ (header h'.mem (p - headerSize)).size ∧
        ∃ bs, blockList h' = some bs ∧ WellFormed bs ∧ (bs.map (·.size)).sum = kheapSize))

theorem listed_sizes (p : Nat) (bs : List Block) :
    (listed p bs).map (·.size) = bs.map Block.size := by
  induction bs generalizing p with
  | nil => rfl
  | cons b bs ih => simp only [listed, List.map_cons, ih]

theorem Represents.sum_sizes {h : Heap} {bs : List Block} (hr : Represents h bs) :
    ((listed 0 bs).map (·.size)).sum = kheapSize := by
  rw [listed_sizes, hr.layout.tiles.sum_sizes, Nat.add_sub_cancel_left]

/-- A block in use has its size in its header. -/
theorem Represents.header_size {h : Heap} {bs : List Block} {b : Block} (hr : Represents h bs)
    (hb : b ∈ bs) : (header h.mem b.addr).size = b.size := by
  obtain ⟨pre, post, rfl⟩ := List.append_of_mem hb
  have hl : LinkedAfter h.mem 0 (pre.reverse.reverse ++ b :: post) := by
    rw [List.reverse_reverse]
    exact hr.links
  rw [(linked_zipper.mp hl).2.1]

/-- A size that does not wrap is honoured. -/
theorem honoursSize_of_le {h : Heap} {bs : List Block} {n : Nat} (hr : Represents h bs)
    (hn : n ≠ 0) (hle : n ≤ 0xFFFFFFE8) : HonoursSize h n := by
  rcases kmalloc_cases hr hn with ⟨-, hk⟩ | ⟨pre, b, post, rfl, hb, hfit, -, hk⟩
  · exact ⟨0, h, hk, .inl ⟨rfl, rfl⟩⟩
  · have ht := represents_take hr hb hn hle hfit
    have hact := actualSize_of_le hle
    have hmem : (⟨b.addr, if b.size - actualSize n < 24 then b.size else actualSize n, false⟩ :
        Block) ∈ pre.reverse ++ (carve (actualSize n) 24 b ++ post) :=
      List.mem_append_right _ (List.mem_append_left _ ((mem_carve_used rfl).mpr rfl))
    have hsize := ht.header_size hmem
    refine ⟨_, _, hk, .inr ⟨by simp, ?_, _, ht.blockList, listed_wellFormed ht.layout,
      ht.sum_sizes⟩⟩
    rw [Nat.add_sub_cancel, hsize]
    simp only [headerSize]
    split <;> omega

/-- A block that `split_block` did split ends with the size asked for. -/
theorem header_size_splitBlock (m : Mem) (b n : Nat) :
    (header (splitBlock m b n) b).size = (header m b).size ∨
      (header (splitBlock m b n) b).size = n % 2 ^ 32 := by
  simp only [splitBlock]
  split
  · exact .inl rfl
  · exact .inr (by rw [header_setSize])

/-- A size that wraps is not honoured when a block is free: the block taken is
too small for it. -/
theorem not_honoursSize_of_gt {h : Heap} {bs : List Block} {b : Block} {n : Nat}
    (hr : Represents h bs) (hgt : 0xFFFFFFE8 < n) (hlt : n < 2 ^ 32) (hm : b ∈ bs)
    (hb : b.free = true) : ¬ HonoursSize h n := by
  intro ⟨p, h', hk, hres⟩
  have hact := actualSize_of_gt hgt hlt
  have hn : n ≠ 0 := by omega
  rcases kmalloc_cases hr hn with ⟨hnone, -⟩ | ⟨pre, c, post, rfl, hc, hfit, -, hk'⟩
  · have hfalse := hnone b hm
    have hsize := (hr.layout.sizes b hm).2
    simp only [fits, hb, Bool.true_and, decide_eq_false_iff_not] at hfalse
    omega
  · obtain ⟨rfl, rfl⟩ := Prod.mk.inj (Option.some.inj (hk'.symm.trans hk))
    rcases hres with ⟨h0, -⟩ | ⟨-, hroom, -⟩
    · simp only [headerSize] at h0
      omega
    · have hcm : c ∈ pre.reverse ++ c :: post := by simp
      have hbound := (hr.layout.tiles.bounds c hcm).2.1
      have hsplit := header_size_splitBlock h.mem c.addr (actualSize n)
      simp only [afterTake, headerSize, Nat.add_sub_cancel, header_setIsFree] at hroom
      rw [hr.header_size hcm] at hsplit
      simp only [kheapStart, kheapSize] at hbound
      omega

/-- **`kmalloc` honours exactly the sizes that do not wrap.** In a reachable
heap a request is refused or served in full if and only if its size is at most
`0xFFFFFFE8` or no block is free. -/
theorem honoursSize_iff {s : Client} {n : Nat} (hr : Reach s) (hpos : 1 ≤ n) (hlt : n < 2 ^ 32) :
    HonoursSize s.heap n ↔ SizeOk s.heap n := by
  obtain ⟨bs, hi⟩ := hr.inv
  have hn : n ≠ 0 := by omega
  constructor
  · intro hh
    by_cases hle : n ≤ 0xFFFFFFE8
    · exact .inl hle
    · refine .inr ⟨hlt, fun ls hls x hx => ?_⟩
      obtain rfl := Option.some.inj (hi.heap.blockList.symm.trans hls)
      by_contra hfree
      have hm := mem_listed hx
      exact not_honoursSize_of_gt hi.heap (by omega) hlt hm (by simpa using hfree) hh
  · intro hok
    rcases hok with hle | ⟨-, hnone⟩
    · exact honoursSize_of_le hi.heap hn hle
    · rcases kmalloc_cases hi.heap hn with ⟨-, hk⟩ | ⟨pre, b, post, rfl, hb, -⟩
      · exact ⟨0, s.heap, hk, .inl ⟨rfl, rfl⟩⟩
      · have hle : n ≤ 0xFFFFFFE8 := SizeOk.le (.inr ⟨hlt, hnone⟩) hi.heap (by simp) hb
        exact honoursSize_of_le hi.heap hn hle

theorem honoursSize_iff_oneAllocation :
    HonoursSize oneAllocation.heap 64 ↔ SizeOk oneAllocation.heap 64 :=
  honoursSize_iff reach_oneAllocation (by decide) (by decide)

/-- A fresh heap serves `0xFFFFFFF9` bytes with a block of 16. -/
theorem not_honoursSize_wrapped :
    Reach ⟨initKheap fun _ => 0, []⟩ ∧ ¬ HonoursSize (initKheap fun _ => 0) 0xFFFFFFF9 :=
  ⟨.init _, not_honoursSize_of_gt (represents_init _) (by decide) (by decide)
    (List.mem_singleton.mpr rfl) rfl⟩

end SynapseKernel.Kheap
