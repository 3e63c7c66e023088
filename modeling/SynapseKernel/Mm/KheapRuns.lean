import Mathlib.Data.List.Nodup
import SynapseKernel.Mm.KheapInv

/-! # Runs of the kernel heap

A client of the heap allocates, frees what it holds and writes into the
payloads it holds, in any order. `Reach` collects the states of all such runs
from `init_kheap`; `Reach.inv` says that the memory always holds a coalesced
tiling whose blocks in use are exactly the client's allocations. -/
namespace SynapseKernel.Kheap
open SynapseKernel.Word SynapseKernel.ByteMemory SynapseKernel.Tiling

/-! ## The block list as the `next` pointers give it -/

/-- A block of the list: its address and its header. -/
structure HeapBlock extends Header where
  addr : Nat
deriving DecidableEq, Repr

/-- The blocks from `current` on, `none` if the links go on after `fuel` blocks. -/
def walk (m : Mem) : Nat → Nat → Option (List HeapBlock)
  | 0, _ => none
  | fuel + 1, current =>
    if current = 0 then some []
    else (walk m fuel (header m current).next).map (⟨header m current, current⟩ :: ·)

def blockList (h : Heap) : Option (List HeapBlock) := walk h.mem walkFuel h.freeList

/-- The headers that hold a list of blocks. -/
def listed : Nat → List Block → List HeapBlock
  | _, [] => []
  | p, b :: bs => ⟨⟨b.size, headAddr bs, p, b.free⟩, b.addr⟩ :: listed b.addr bs

theorem walk_eq {m : Mem} {p fuel : Nat} {bs : List Block} (hl : LinkedAfter m p bs)
    (h0 : ∀ b ∈ bs, b.addr ≠ 0) (hf : bs.length < fuel) :
    walk m fuel (headAddr bs) = some (listed p bs) := by
  induction bs generalizing p fuel with
  | nil =>
    cases fuel with
    | zero => simp at hf
    | succ fuel => rfl
  | cons b bs ih =>
    cases fuel with
    | zero => simp at hf
    | succ fuel =>
      have hrest := ih hl.2 (fun c hc => h0 c (by simp [hc])) (by simpa using hf)
      simp only [walk, headAddr_cons, if_neg (h0 b (by simp)), hl.1, hrest, Option.map_some, listed]

theorem Represents.blockList {h : Heap} {bs : List Block} (hr : Represents h bs) :
    blockList h = some (listed 0 bs) := by
  have hw := walk_eq hr.links hr.addr_pos hr.length_lt
  rwa [hr.head] at hw

theorem mem_listed {p : Nat} {bs : List Block} {x : HeapBlock} (hx : x ∈ listed p bs) :
    ⟨x.addr, x.size, x.isFree⟩ ∈ bs := by
  induction bs generalizing p with
  | nil => cases hx
  | cons b bs ih =>
    rcases List.mem_cons.mp hx with rfl | hx
    · simp
    · exact List.mem_cons_of_mem _ (ih hx)

theorem exists_mem_listed {p : Nat} {bs : List Block} {b : Block} (hb : b ∈ bs) :
    ∃ x ∈ listed p bs, x.addr = b.addr ∧ x.size = b.size ∧ x.isFree = b.free := by
  induction bs generalizing p with
  | nil => cases hb
  | cons c bs ih =>
    rcases List.mem_cons.mp hb with rfl | hb
    · exact ⟨_, List.mem_cons_self, rfl, rfl, rfl⟩
    · obtain ⟨x, hx, he⟩ := ih (p := c.addr) hb
      exact ⟨x, List.mem_cons_of_mem _ hx, he⟩

/-- The block list of a heap in good order. -/
structure WellFormed (bs : List HeapBlock) : Prop where
  first : ∃ b, bs.head? = some b ∧ b.addr = kheapStart ∧ b.prev = 0
  last : ∃ b, bs.getLast? = some b ∧ b.addr + b.size = kheapStart + kheapSize ∧ b.next = 0
  links : bs.IsChain fun a b => a.addr < b.addr ∧ a.addr + a.size = b.addr ∧
    a.next = b.addr ∧ b.prev = a.addr ∧ ¬ (a.isFree = true ∧ b.isFree = true)
  sizes : ∀ b ∈ bs, 8 ∣ b.size ∧ 24 ≤ b.size

theorem listed_links {lo hi p : Nat} {bs : List Block} (ht : Tiles lo bs hi)
    (ha : bs.IsChain Apart) :
    (listed p bs).IsChain fun a b => a.addr < b.addr ∧ a.addr + a.size = b.addr ∧
      a.next = b.addr ∧ b.prev = a.addr ∧ ¬ (a.isFree = true ∧ b.isFree = true) := by
  induction bs generalizing lo p with
  | nil => exact List.isChain_nil
  | cons b bs ih =>
    cases bs with
    | nil => exact List.isChain_singleton _
    | cons c bs =>
      have htail := ih (p := b.addr) ht.2.2 ha.tail
      have happ := (List.isChain_cons_cons.mp ha).1
      obtain ⟨hb, hpos, hc, -, -⟩ := ht
      exact List.isChain_cons_cons.mpr
        ⟨⟨by simp only; omega, by simp only; omega, rfl, rfl, happ⟩, htail⟩

theorem listed_last {lo hi p : Nat} {bs : List Block} (ht : Tiles lo bs hi) (hne : bs ≠ []) :
    ∃ b, (listed p bs).getLast? = some b ∧ b.addr + b.size = hi ∧ b.next = 0 := by
  induction bs generalizing lo p with
  | nil => exact absurd rfl hne
  | cons b bs ih =>
    obtain ⟨hb, -, hr⟩ := ht
    cases bs with
    | nil =>
      refine ⟨⟨⟨b.size, 0, p, b.free⟩, b.addr⟩, rfl, ?_, rfl⟩
      simp only [Tiles] at hr
      simp only [hb, hr]
    | cons c bs =>
      obtain ⟨x, hx, hend⟩ := ih (p := b.addr) hr (by simp)
      exact ⟨x, by simpa [listed, List.getLast?_cons_cons] using hx, hend⟩

theorem listed_wellFormed {bs : List Block} (h : KheapLayout bs) : WellFormed (listed 0 bs) := by
  have hne : bs ≠ [] := by
    intro he
    subst he
    exact absurd h.tiles (by simp [Tiles])
  refine ⟨?_, listed_last h.tiles hne, listed_links h.tiles h.apart, fun b hb => ?_⟩
  · cases bs with
    | nil => exact absurd rfl hne
    | cons b bs => exact ⟨_, rfl, h.tiles.1, rfl⟩
  · exact h.sizes _ (mem_listed hb)

/-! ## Clients -/

/-- A heap and the allocations its client holds: pointer and requested size. -/
structure Client where
  heap : Heap
  live : List (Nat × Nat)

/-- The sizes `kmalloc` can take: up to `0xFFFFFFE8` the rounded size and the
header do not wrap; a larger one is refused when no block is free. -/
def SizeOk (h : Heap) (n : Nat) : Prop :=
  n ≤ 0xFFFFFFE8 ∨ (n < 2 ^ 32 ∧ ∀ bs, blockList h = some bs → ∀ b ∈ bs, b.isFree = false)

/-- The states of the runs from `init_kheap` that allocate sizes `kmalloc` can
take, free `NULL` or what is held, and write inside the payloads held. -/
inductive Reach : Client → Prop
  | init (m : Mem) : Reach ⟨initKheap m, []⟩
  | malloc {s : Client} {n p : Nat} {h : Heap} : Reach s → SizeOk s.heap n →
      kmalloc s.heap n = some (p, h) →
      Reach ⟨h, if p = 0 then s.live else (p, n) :: s.live⟩
  | free {s : Client} {p n : Nat} : Reach s → (p, n) ∈ s.live →
      Reach ⟨kfree s.heap p, s.live.erase (p, n)⟩
  | freeNull {s : Client} : Reach s → Reach ⟨kfree s.heap 0, s.live⟩
  | store {s : Client} {p n a : Nat} {v : UInt8} : Reach s → (p, n) ∈ s.live →
      p ≤ a → a < p + n → Reach ⟨{ s.heap with mem := Function.update s.heap.mem a v }, s.live⟩

/-- The blocks in use are the allocations held, each large enough. -/
structure ClientInv (s : Client) (bs : List Block) : Prop where
  heap : Represents s.heap bs
  nodup : (s.live.map Prod.fst).Nodup
  held : ∀ p n, (p, n) ∈ s.live →
    ∃ b ∈ bs, b.free = false ∧ b.addr + 16 = p ∧ n + 16 ≤ b.size
  used : ∀ b ∈ bs, b.free = false → ∃ n, (b.addr + 16, n) ∈ s.live

/-! ## What each step preserves -/

theorem ClientInv.init (m : Mem) :
    ClientInv ⟨initKheap m, []⟩ [⟨kheapStart, kheapSize, true⟩] :=
  ⟨represents_init m, List.nodup_nil, by simp, by simp⟩

/-- `kmalloc` returns from every heap that holds a block list. -/
theorem kmalloc_isSome {h : Heap} {bs : List Block} (hr : Represents h bs) (n : Nat) :
    ∃ p h', kmalloc h n = some (p, h') := by
  by_cases hn : n = 0
  · exact ⟨0, h, by rw [kmalloc, if_pos hn]⟩
  · rcases kmalloc_cases hr hn with ⟨-, hk⟩ | ⟨pre, b, post, -, -, -, -, hk⟩
    · exact ⟨_, _, hk⟩
    · exact ⟨_, _, hk⟩

theorem ClientInv.take {s : Client} {pre post : List Block} {b : Block} {n : Nat}
    (hi : ClientInv s (pre.reverse ++ b :: post)) (hb : b.free = true) (hn : n ≠ 0)
    (hle : n ≤ 0xFFFFFFE8) (hfit : actualSize n ≤ b.size) :
    ClientInv ⟨afterTake s.heap b.addr n, (b.addr + 16, n) :: s.live⟩
      (pre.reverse ++ (carve (actualSize n) 24 b ++ post)) := by
  have hact := actualSize_of_le hle
  -- a used block of the old list is one of its neighbours, not the free block itself
  have hne : ∀ c ∈ pre.reverse ++ b :: post, c.free = false → c ∈ pre ∨ c ∈ post := by
    intro c hc hf
    simp only [List.mem_append, List.mem_reverse, List.mem_cons] at hc
    rcases hc with hc | rfl | hc
    · exact .inl hc
    · rw [hb] at hf
      cases hf
    · exact .inr hc
  refine ⟨represents_take hi.heap hb hn hle hfit, ?_, ?_, ?_⟩
  · refine List.nodup_cons.mpr ⟨fun hm => ?_, hi.nodup⟩
    obtain ⟨⟨q, k⟩, hq, he⟩ := List.mem_map.mp hm
    obtain ⟨c, hc, hf, ha, -⟩ := hi.held q k hq
    have hcb : c = b := hi.heap.layout.tiles.eq_of_addr hc (by simp) (by simp only at he; omega)
    rw [hcb, hb] at hf
    cases hf
  · intro q k hq
    rcases List.mem_cons.mp hq with he | hq
    · simp only [Prod.mk.injEq] at he
      have hmem : (⟨b.addr, if b.size - actualSize n < 24 then b.size else actualSize n, false⟩ :
          Block) ∈ carve (actualSize n) 24 b := (mem_carve_used rfl).mpr rfl
      refine ⟨⟨b.addr, _, false⟩, List.mem_append_right _ (List.mem_append_left _ hmem), rfl,
        he.1.symm, ?_⟩
      simp only
      split <;> omega
    · obtain ⟨c, hc, hf, ha, hk⟩ := hi.held q k hq
      refine ⟨c, ?_, hf, ha, hk⟩
      rcases hne c hc hf with hc | hc <;> simp [hc]
  · intro c hc hf
    simp only [List.mem_append, List.mem_reverse] at hc
    rcases hc with hc | hc | hc
    · obtain ⟨k, hk⟩ := hi.used c (by simp [hc]) hf
      exact ⟨k, List.mem_cons_of_mem _ hk⟩
    · have := (mem_carve_used hf).mp hc
      exact ⟨n, by rw [this]; exact List.mem_cons_self⟩
    · obtain ⟨k, hk⟩ := hi.used c (by simp [hc]) hf
      exact ⟨k, List.mem_cons_of_mem _ hk⟩

theorem ClientInv.release {s : Client} {pre post : List Block} {b : Block} {n : Nat}
    (hi : ClientInv s (pre.reverse ++ b :: post)) (hl : (b.addr + 16, n) ∈ s.live) :
    ClientInv ⟨afterRelease s.heap b, s.live.erase (b.addr + 16, n)⟩ (release pre b post) := by
  have hnodup : s.live.Nodup := List.Nodup.of_map _ hi.nodup
  have around := Around.of_layout hi.heap.layout
  have hsplit : ∀ c, c ∈ pre ∨ c ∈ post → c.addr ≠ b.addr := by
    intro c hc
    have hsize := around.size
    rcases hc with hc | hc
    · have := around.before c hc
      omega
    · have := around.after c hc
      omega
  refine ⟨represents_release hi.heap, (hi.nodup.sublist (List.erase_sublist.map _)), ?_, ?_⟩
  · intro q k hq
    obtain ⟨hne, hql⟩ := (List.Nodup.mem_erase_iff hnodup).mp hq
    obtain ⟨c, hc, hf, ha, hk⟩ := hi.held q k hql
    refine ⟨c, (mem_release_used hf).mpr ?_, hf, ha, hk⟩
    simp only [List.mem_append, List.mem_reverse, List.mem_cons] at hc
    rcases hc with hc | rfl | hc
    · exact .inl hc
    · have hinj := List.inj_on_of_nodup_map hi.nodup
      exact absurd (hinj hql hl ha.symm) hne
    · exact .inr hc
  · intro c hc hf
    have hc' := (mem_release_used hf).mp hc
    obtain ⟨k, hk⟩ := hi.used c (by rcases hc' with h | h <;> simp [h]) hf
    refine ⟨k, (List.mem_erase_of_ne ?_).mpr hk⟩
    intro he
    have := hsplit c hc'
    simp only [Prod.mk.injEq] at he
    omega

/-- What a client holds lies behind or in front of every header. -/
theorem ClientInv.header_apart {s : Client} {bs : List Block} {c : Block} {p n : Nat}
    (hi : ClientInv s bs) (hc : c ∈ bs) (hl : (p, n) ∈ s.live) :
    c.addr + 16 ≤ p ∨ p + n ≤ c.addr := by
  obtain ⟨b, hb, hf, hbp, hn⟩ := hi.held p n hl
  by_cases hcb : c.addr = b.addr
  · omega
  · have hsz := (hi.heap.layout.sizes c hc).2
    have := hi.heap.layout.tiles.disjoint hc hb hcb
    omega

/-- A client's store stays inside the payload of one of its blocks. -/
theorem ClientInv.store {s : Client} {bs : List Block} {p n a : Nat} {v : UInt8}
    (hi : ClientInv s bs) (hl : (p, n) ∈ s.live) (hp : p ≤ a) (ha : a < p + n) :
    ClientInv ⟨{ s.heap with mem := Function.update s.heap.mem a v }, s.live⟩ bs := by
  refine ⟨⟨hi.heap.freeList, hi.heap.links.congr fun c hc => ?_, hi.heap.layout⟩, hi.nodup,
    hi.held, hi.used⟩
  have hapart := hi.header_apart hc hl
  exact header_congr fun x hx hx' => Function.update_of_ne (by omega) _ _

/-- When a block is free, a size `kmalloc` can take does not wrap. -/
theorem SizeOk.le {h : Heap} {bs : List Block} {b : Block} {n : Nat} (hok : SizeOk h n)
    (hr : Represents h bs) (hm : b ∈ bs) (hb : b.free = true) : n ≤ 0xFFFFFFE8 := by
  rcases hok with hle | ⟨-, hnone⟩
  · exact hle
  · obtain ⟨x, hx, -, -, hxf⟩ := exists_mem_listed (p := 0) hm
    have hused := hnone _ hr.blockList x hx
    rw [hxf, hb] at hused
    cases hused

/-- **The heap invariant.** Every state a client can reach holds a coalesced
tiling whose blocks in use are the client's allocations. -/
theorem Reach.inv {s : Client} (hr : Reach s) : ∃ bs, ClientInv s bs := by
  induction hr with
  | init m => exact ⟨_, ClientInv.init m⟩
  | @malloc s n p h hs hok hk ih =>
    obtain ⟨bs, hi⟩ := ih
    by_cases hn : n = 0
    · rw [kmalloc, if_pos hn] at hk
      obtain ⟨rfl, rfl⟩ := Prod.mk.inj (Option.some.inj hk)
      exact ⟨bs, hi⟩
    · rcases kmalloc_cases hi.heap hn with ⟨-, hk'⟩ | ⟨pre, b, post, rfl, hb, hfit, -, hk'⟩
      · obtain ⟨rfl, rfl⟩ := Prod.mk.inj (Option.some.inj (hk'.symm.trans hk))
        exact ⟨bs, hi⟩
      · obtain ⟨rfl, rfl⟩ := Prod.mk.inj (Option.some.inj (hk'.symm.trans hk))
        have hle := hok.le hi.heap (by simp) hb
        rw [if_neg (by simp)]
        exact ⟨_, hi.take hb hn hle hfit⟩
  | @free s p n hs hl ih =>
    obtain ⟨bs, hi⟩ := ih
    obtain ⟨b, hb, hf, rfl, -⟩ := hi.held p n hl
    obtain ⟨l, post, rfl⟩ := List.append_of_mem hb
    have hi' : ClientInv s (l.reverse.reverse ++ b :: post) := by rwa [List.reverse_reverse]
    have hk := kfree_eq hi'.heap hf
    simp only [headerSize] at hk
    rw [hk]
    exact ⟨_, hi'.release hl⟩
  | freeNull _ ih => exact ih
  | store _ hl hp ha ih =>
    obtain ⟨bs, hi⟩ := ih
    exact ⟨bs, hi.store hl hp ha⟩

end SynapseKernel.Kheap
