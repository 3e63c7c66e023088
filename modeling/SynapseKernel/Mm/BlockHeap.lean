import Mathlib.Data.List.Perm.Subperm
import SynapseKernel.Mm.KheapRuns

/-! # The kernel heap as its callers see it

A caller of `kmalloc` sees a block of its own or `NULL`. Here a block is named
by the number of the request that returned it, which requests are granted, and
at what address, is left open. `Reach.exists_view` says that every state of the
heap of kernel/mm/kheap.c is seen in this way, and `Views.kmalloc` and
`Views.kfree` that the two go on in step.

Two things are outside of this view. A `kfree` of a block that is not live frees
nothing here, where that of the source frees what is at the address now, and a
granted block counts as one of the size asked for, which from `0xFFFFFFE9` on the
source's is not (`honoursSize_iff`). Where either can happen, a result asks that
nothing is freed twice, and counts `usable` bytes. -/
namespace SynapseKernel.Kheap

structure BlockHeap where
  grants : Nat → Bool
  addr : Nat → Nat
  requests : Nat
  freed : List Nat

/-- The block of this request, `0` when it is refused. No bytes are no request. -/
def BlockHeap.kmalloc (b : BlockHeap) (size : Nat) : Nat × BlockHeap :=
  (if size ≠ 0 ∧ b.grants b.requests then b.requests + 1 else 0,
    { b with requests := if size = 0 then b.requests else b.requests + 1 })

/-- The largest size that `kmalloc` rounds up and adds a header to without wrapping. -/
abbrev maxSize : Nat := 0xFFFFFFE8

/-- The bytes of a granted block that its caller can count on. -/
def usable (size : Nat) : Nat := if size ≤ maxSize then size else 0

def BlockHeap.kfree (b : BlockHeap) (block : Nat) : BlockHeap :=
  { b with freed := block :: b.freed }

/-- The next `n` requests are granted. -/
def BlockHeap.GrantsNext (b : BlockHeap) (n : Nat) : Prop :=
  ∀ i < n, b.grants (b.requests + i) = true

/-- The block was handed out and not freed since. -/
structure BlockHeap.Live (b : BlockHeap) (block : Nat) : Prop where
  pos : 0 < block
  le : block ≤ b.requests
  granted : b.grants (block - 1) = true
  kept : block ∉ b.freed

variable {b : BlockHeap} {block size : Nat}

theorem BlockHeap.grantsNext_zero (b : BlockHeap) : b.GrantsNext 0 :=
  fun _ hi => absurd hi (Nat.not_lt_zero _)

theorem BlockHeap.GrantsNext.succ {n : Nat} (h : b.GrantsNext n)
    (hn : b.grants (b.requests + n) = true) : b.GrantsNext (n + 1) := by
  intro i hi
  rcases Nat.lt_succ_iff_lt_or_eq.mp hi with hi | rfl
  · exact h i hi
  · exact hn

theorem BlockHeap.not_grantsNext {n i : Nat} (hi : i < n)
    (h : b.grants (b.requests + i) = false) : ¬ b.GrantsNext n := by
  intro hg
  rw [hg i hi] at h
  cases h

theorem BlockHeap.kmalloc_of_ne_zero (b : BlockHeap) (hsize : size ≠ 0) :
    b.kmalloc size = (if b.grants b.requests then b.requests + 1 else 0,
      { b with requests := b.requests + 1 }) := by
  simp only [kmalloc, hsize, ne_eq, not_false_eq_true, true_and, if_false]

theorem BlockHeap.kmalloc_granted (hg : b.grants b.requests = true) (size : Nat)
    (hsize : size ≠ 0 := by decide) : (b.kmalloc size).1 = b.requests + 1 :=
  if_pos ⟨hsize, hg⟩

theorem BlockHeap.kmalloc_refused (hg : b.grants b.requests = false) (size : Nat) :
    (b.kmalloc size).1 = 0 := by
  refine if_neg fun h => ?_
  rw [hg] at h
  cases h.2

theorem BlockHeap.requests_kmalloc (hsize : size ≠ 0) :
    (b.kmalloc size).2.requests = b.requests + 1 :=
  if_neg hsize

theorem BlockHeap.requests_le_kmalloc (b : BlockHeap) (size : Nat) :
    b.requests ≤ (b.kmalloc size).2.requests := by
  simp only [kmalloc]
  split <;> omega

theorem BlockHeap.kmalloc_requests_le (b : BlockHeap) (size : Nat) :
    (b.kmalloc size).2.requests ≤ b.requests + 1 := by
  simp only [kmalloc]
  split <;> omega

theorem BlockHeap.kmalloc_result (b : BlockHeap) (size : Nat) :
    (b.kmalloc size).1 = 0 ∨ (b.kmalloc size).1 = b.requests + 1 := by
  simp only [kmalloc]
  split
  · exact .inr rfl
  · exact .inl rfl

theorem BlockHeap.kmalloc_eq_zero :
    (b.kmalloc size).1 = 0 ↔ size = 0 ∨ b.grants b.requests = false := by
  constructor
  · intro h
    by_contra hno
    obtain ⟨hsize, hyes⟩ := not_or.mp hno
    have hnew := kmalloc_granted (Bool.eq_true_of_not_eq_false hyes) size hsize
    omega
  · rintro (rfl | hno)
    · rfl
    · exact kmalloc_refused hno size

/-- Everything `kmalloc` can do with a size that is not `0`. -/
theorem BlockHeap.kmalloc_cases (b : BlockHeap) (size : Nat) (hsize : size ≠ 0 := by decide) :
    (b.grants b.requests = false ∧ (b.kmalloc size).1 = 0) ∨
    (b.grants b.requests = true ∧ (b.kmalloc size).1 = b.requests + 1) := by
  cases hg : b.grants b.requests with
  | false => exact .inl ⟨rfl, kmalloc_refused hg size⟩
  | true => exact .inr ⟨rfl, kmalloc_granted hg size hsize⟩

theorem BlockHeap.live_kfree {p : Nat} : (b.kfree p).Live block ↔ b.Live block ∧ block ≠ p := by
  constructor
  · intro h
    obtain ⟨hne, hkept⟩ := not_or.mp (mt List.mem_cons.mpr h.kept)
    exact ⟨⟨h.pos, h.le, h.granted, hkept⟩, hne⟩
  · intro ⟨h, hne⟩
    refine ⟨h.pos, h.le, h.granted, fun hm => ?_⟩
    rcases List.mem_cons.mp hm with heq | hm
    · exact hne heq
    · exact h.kept hm

/-- A request changes nothing for the blocks handed out before. -/
theorem BlockHeap.live_kmalloc_of_le (hle : block ≤ b.requests) :
    (b.kmalloc size).2.Live block ↔ b.Live block :=
  ⟨fun h => ⟨h.pos, hle, h.granted, h.kept⟩,
    fun h => ⟨h.pos, Nat.le_trans h.le (b.requests_le_kmalloc size), h.granted, h.kept⟩⟩

/-- A request that is refused changes nothing for any block. -/
theorem BlockHeap.live_kmalloc_refused (hno : b.grants b.requests = false) :
    (b.kmalloc size).2.Live block ↔ b.Live block := by
  by_cases hle : block ≤ b.requests
  · exact live_kmalloc_of_le hle
  · refine ⟨fun hl => ?_, fun hl => absurd hl.le hle⟩
    have hl' := Nat.le_trans hl.le (b.kmalloc_requests_le size)
    have hgr : b.grants (block - 1) = true := hl.granted
    have hlast : block - 1 = b.requests := by omega
    rw [hlast, hno] at hgr
    cases hgr

/-- Whatever the reason for it. -/
theorem BlockHeap.live_kmalloc_null (h0 : (b.kmalloc size).1 = 0) :
    (b.kmalloc size).2.Live block ↔ b.Live block := by
  rcases kmalloc_eq_zero.mp h0 with rfl | hno
  · rfl
  · exact live_kmalloc_refused hno

/-- Neither does one that is granted and freed again. -/
theorem BlockHeap.live_kmalloc_kfree :
    ((b.kmalloc size).2.kfree (b.requests + 1)).Live block ↔ b.Live block := by
  rw [live_kfree]
  by_cases hle : block ≤ b.requests
  · rw [live_kmalloc_of_le hle, and_iff_left]
    exact Nat.ne_of_lt (Nat.lt_succ_of_le hle)
  · refine ⟨fun ⟨hl, hne⟩ => ?_, fun hl => absurd hl.le hle⟩
    have hl' := Nat.le_trans hl.le (b.kmalloc_requests_le size)
    omega

/-- A request that is refused after one that was granted and is freed. -/
theorem BlockHeap.live_undo_one {m n : Nat} (hno : b.grants (b.requests + 1) = false)
    (hm : m ≠ 0 := by decide) :
    (((b.kmalloc m).2.kmalloc n).2.kfree (b.requests + 1)).Live block ↔ b.Live block := by
  have hno' : (b.kmalloc m).2.grants (b.kmalloc m).2.requests = false := by
    rw [requests_kmalloc hm]
    exact hno
  rw [live_kfree, live_kmalloc_refused hno', ← live_kfree]
  exact live_kmalloc_kfree

/-- Different blocks that were handed out are no more than the requests. -/
theorem BlockHeap.length_le {l : List Nat} (hl : l.Nodup)
    (h : ∀ i ∈ l, 0 < i ∧ i ≤ b.requests) : l.length ≤ b.requests := by
  have hsub : l ⊆ List.range' 1 b.requests := by
    intro i hi
    obtain ⟨hpos, hle⟩ := h i hi
    rw [List.mem_range'_1]
    omega
  have hlen := (List.subperm_of_subset hl hsub).length_le
  rwa [List.length_range'] at hlen

/-- Freed blocks were handed out before. -/
def BlockHeap.Sane (b : BlockHeap) : Prop := ∀ p ∈ b.freed, p ≤ b.requests

/-- A block just handed out is live. -/
theorem BlockHeap.live_kmalloc_new (hs : b.Sane) (hg : b.grants b.requests = true)
    (hsize : size ≠ 0 := by decide) : (b.kmalloc size).2.Live (b.requests + 1) := by
  refine ⟨Nat.succ_pos _, (requests_kmalloc hsize).ge, hg, fun hm => ?_⟩
  have := hs _ hm
  omega

/-- It is the only one that a request adds. -/
theorem BlockHeap.live_kmalloc_granted (hs : b.Sane) (hg : b.grants b.requests = true)
    (hsize : size ≠ 0 := by decide) :
    (b.kmalloc size).2.Live block ↔ b.Live block ∨ block = b.requests + 1 := by
  refine ⟨fun hl => ?_, fun hl => ?_⟩
  · by_cases hle : block ≤ b.requests
    · exact .inl ((live_kmalloc_of_le hle).mp hl)
    · have hl' := Nat.le_trans hl.le (b.kmalloc_requests_le size)
      exact .inr (by omega)
  · rcases hl with hl | rfl
    · exact (live_kmalloc_of_le hl.le).mpr hl
    · exact live_kmalloc_new hs hg hsize

theorem BlockHeap.Sane.kmalloc (hs : b.Sane) : (b.kmalloc size).2.Sane :=
  fun p hp => Nat.le_trans (hs p hp) (b.requests_le_kmalloc size)

theorem BlockHeap.Sane.kfree (hs : b.Sane) (hle : block ≤ b.requests) : (b.kfree block).Sane := by
  intro p hp
  rcases List.mem_cons.mp hp with rfl | hp
  · exact hle
  · exact hs p hp

/-- Two requests in a row that are granted. -/
theorem BlockHeap.GrantsNext.second (hg : b.GrantsNext 2) (hsize : size ≠ 0) :
    (b.kmalloc size).2.grants (b.kmalloc size).2.requests = true := by
  rw [requests_kmalloc hsize]
  exact hg 1 Nat.one_lt_two

theorem BlockHeap.live_kmalloc_two (hs : b.Sane) (hg : b.GrantsNext 2) (m n : Nat)
    (hm : m ≠ 0 := by decide) (hn : n ≠ 0 := by decide) :
    ((b.kmalloc m).2.kmalloc n).2.Live (b.requests + 1) ∧
      ((b.kmalloc m).2.kmalloc n).2.Live (b.requests + 2) := by
  have hfirst := live_kmalloc_new hs (hg 0 Nat.two_pos) hm
  have hsecond := live_kmalloc_new hs.kmalloc (hg.second hm) hn
  rw [requests_kmalloc hm] at hsecond
  exact ⟨(live_kmalloc_of_le hfirst.le).mpr hfirst, hsecond⟩

theorem BlockHeap.live_kmalloc_both (hs : b.Sane) (hg : b.GrantsNext 2) (m n : Nat)
    (hm : m ≠ 0 := by decide) (hn : n ≠ 0 := by decide) :
    ((b.kmalloc m).2.kmalloc n).2.Live block ↔
      b.Live block ∨ block = b.requests + 1 ∨ block = b.requests + 2 := by
  rw [live_kmalloc_granted hs.kmalloc (hg.second hm) hn,
    live_kmalloc_granted hs (hg 0 Nat.two_pos) hm, requests_kmalloc hm, or_assoc]

/-- The heap after `n` requests. -/
def BlockHeap.after (b : BlockHeap) (n : Nat) : BlockHeap := { b with requests := b.requests + n }

theorem BlockHeap.kmalloc_after (n : Nat) (hsize : size ≠ 0) :
    ((b.after n).kmalloc size).2 = b.after (n + 1) := by
  rw [kmalloc, if_neg hsize]
  rfl

/-- Requests in a row that are granted add their blocks and no others. -/
theorem BlockHeap.live_after {n : Nat} (hs : b.Sane) (hg : b.GrantsNext n) :
    (b.after n).Live block ↔ b.Live block ∨ (b.requests < block ∧ block ≤ b.requests + n) := by
  constructor
  · intro h
    by_cases hle : block ≤ b.requests
    · exact .inl ⟨h.pos, hle, h.granted, h.kept⟩
    · exact .inr ⟨Nat.lt_of_not_le hle, h.le⟩
  · rintro (h | ⟨hlt, hle⟩)
    · exact ⟨h.pos, Nat.le_trans h.le (Nat.le_add_right _ n), h.granted, h.kept⟩
    · refine ⟨by omega, hle, ?_, fun hm => ?_⟩
      · have hgr := hg (block - 1 - b.requests) (by omega)
        rwa [Nat.add_sub_cancel' (by omega)] at hgr
      · exact absurd (hs block hm) (Nat.not_le_of_lt hlt)

/-- `b'` is `b` after requests, and after frees of blocks those requests returned. -/
structure BlockHeap.Later (b b' : BlockHeap) : Prop where
  le : b.requests ≤ b'.requests
  sane : b.Sane → b'.Sane
  live : ∀ block ≤ b.requests, b'.Live block ↔ b.Live block
  freed : ∀ p ∈ b.freed, p ∈ b'.freed

theorem BlockHeap.Later.refl (b : BlockHeap) : b.Later b :=
  ⟨Nat.le_refl _, id, fun _ _ => Iff.rfl, fun _ => id⟩

theorem BlockHeap.Later.kmalloc {b' : BlockHeap} (h : b.Later b') (size : Nat) :
    b.Later (b'.kmalloc size).2 :=
  ⟨Nat.le_trans h.le (b'.requests_le_kmalloc size), fun hs => (h.sane hs).kmalloc,
    fun block hle => (live_kmalloc_of_le (Nat.le_trans hle h.le)).trans (h.live block hle), h.freed⟩

theorem BlockHeap.Later.kfree {b' : BlockHeap} (h : b.Later b') (hnew : b.requests < block)
    (hle : block ≤ b'.requests) : b.Later (b'.kfree block) := by
  refine ⟨h.le, fun hs => (h.sane hs).kfree hle, fun i hi => ?_,
    fun p hp => List.mem_cons_of_mem _ (h.freed p hp)⟩
  have hne : i ≠ block := by omega
  rw [live_kfree, h.live i hi, and_iff_left hne]

/-- What a request returned, granted or not, can be freed again. -/
theorem BlockHeap.Later.kfree_result {b' b'' : BlockHeap} (size : Nat) (h : b.Later b')
    (hle : b'.requests < b''.requests) (hb : b.Later b'') :
    b.Later (b''.kfree (b'.kmalloc size).1) := by
  rcases b'.kmalloc_result size with h0 | hnew
  · rw [h0]
    refine ⟨hb.le, fun hs => (hb.sane hs).kfree (Nat.zero_le _), fun i hi => ?_,
      fun p hp => List.mem_cons_of_mem _ (hb.freed p hp)⟩
    rw [live_kfree, hb.live i hi]
    exact and_iff_left_of_imp fun hl => Nat.ne_of_gt hl.pos
  · rw [hnew]
    exact hb.kfree (Nat.lt_succ_of_le h.le) hle

/-! ## The heap of kheap.c is seen so -/

/-- The live blocks are the allocations the client of the heap holds. -/
structure Views (c : Client) (b : BlockHeap) : Prop where
  reach : Reach c
  sane : b.Sane
  held : ∀ block, b.Live block → ∃ n, (b.addr block, n) ∈ c.live
  injective : ∀ i j, b.Live i → b.Live j → b.addr i = b.addr j → i = j
  covers : ∀ p n, (p, n) ∈ c.live → ∃ block, b.Live block ∧ b.addr block = p

/-- Nothing was handed out, so the live blocks are the old ones. -/
theorem Views.kmalloc_refused {c : Client} (h : Views c b) {n : Nat} {heap : Heap}
    (hreach : Reach ⟨heap, c.live⟩) (hno : (b.kmalloc n).1 = 0) :
    Views ⟨heap, c.live⟩ (b.kmalloc n).2 := by
  have hlive : ∀ block, (b.kmalloc n).2.Live block ↔ b.Live block :=
    fun _ => BlockHeap.live_kmalloc_null hno
  refine ⟨hreach, h.sane.kmalloc, fun block hl => ?_, fun i j hi hj => ?_, fun q k hq => ?_⟩
  · exact h.held block ((hlive block).mp hl)
  · exact h.injective i j ((hlive i).mp hi) ((hlive j).mp hj)
  · obtain ⟨block, hl, he⟩ := h.covers q k hq
    exact ⟨block, (hlive block).mpr hl, he⟩

/-- The address of a new block is not that of an allocation held before. -/
theorem Views.kmalloc_granted {c : Client} (h : Views c b) {n p : Nat} {heap : Heap}
    (hreach : Reach ⟨heap, (p, n) :: c.live⟩) (hn : n ≠ 0)
    (hyes : b.grants b.requests = true) (haddr : b.addr (b.requests + 1) = p) :
    Views ⟨heap, (p, n) :: c.live⟩ (b.kmalloc n).2 := by
  have hnew := BlockHeap.live_kmalloc_new h.sane hyes hn
  have hold : ∀ block, (b.kmalloc n).2.Live block → block ≠ b.requests + 1 → b.Live block := by
    intro block hl hne
    have hle := Nat.le_trans hl.le (b.kmalloc_requests_le n)
    exact (BlockHeap.live_kmalloc_of_le (by omega)).mp hl
  obtain ⟨bs, hi⟩ := hreach.inv
  have hfresh : ∀ k, (p, k) ∉ c.live := by
    intro k hk'
    have hnodup := (List.nodup_cons.mp hi.nodup).1
    exact hnodup (List.mem_map.mpr ⟨(p, k), hk', rfl⟩)
  have hother : ∀ block, (b.kmalloc n).2.Live block → block ≠ b.requests + 1 →
      b.addr block ≠ p := by
    intro block hl hne he
    obtain ⟨k, hk'⟩ := h.held block (hold block hl hne)
    exact hfresh k (he ▸ hk')
  have haddr' : (b.kmalloc n).2.addr (b.requests + 1) = p := haddr
  refine ⟨hreach, h.sane.kmalloc, fun block hl => ?_, fun i j hi hj he => ?_, fun q k hq => ?_⟩
  · by_cases hne : block = b.requests + 1
    · rw [hne, haddr']
      exact ⟨n, List.mem_cons_self⟩
    · obtain ⟨k, hk'⟩ := h.held block (hold block hl hne)
      exact ⟨k, List.mem_cons_of_mem _ hk'⟩
  · by_cases hin : i = b.requests + 1 <;> by_cases hjn : j = b.requests + 1
    · rw [hin, hjn]
    · rw [hin, haddr'] at he
      exact absurd he.symm (hother j hj hjn)
    · rw [hjn, haddr'] at he
      exact absurd he (hother i hi hin)
    · exact h.injective i j (hold i hi hin) (hold j hj hjn) he
  · rcases List.mem_cons.mp hq with heq | hq
    · obtain ⟨rfl, -⟩ := Prod.mk.inj heq
      exact ⟨_, hnew, haddr'⟩
    · obtain ⟨block, hl, he⟩ := h.covers q k hq
      exact ⟨block, (BlockHeap.live_kmalloc_of_le hl.le).mpr hl, he⟩

/-- A request that is granted where the heap grants it has its answer. -/
theorem BlockHeap.kmalloc_null_iff {h h' : Heap} {n p : Nat} (hk : Kheap.kmalloc h n = some (p, h'))
    (hgrant : b.grants b.requests = decide (p ≠ 0)) : (b.kmalloc n).1 = 0 ↔ p = 0 := by
  rw [kmalloc_eq_zero, hgrant, decide_eq_false_iff_not, not_not, or_iff_right_iff_imp]
  rintro rfl
  exact (congrArg Prod.fst (Option.some.inj hk)).symm

/-- An allocation of the heap is the request that is answered as the heap does. -/
theorem Views.kmalloc {c : Client} (h : Views c b) {n p : Nat} {heap : Heap}
    (hok : SizeOk c.heap n) (hk : kmalloc c.heap n = some (p, heap))
    (hnull : (b.kmalloc n).1 = 0 ↔ p = 0) (haddr : p ≠ 0 → b.addr (b.requests + 1) = p) :
    Views ⟨heap, if p = 0 then c.live else (p, n) :: c.live⟩ (b.kmalloc n).2 := by
  have hreach := Reach.malloc h.reach hok hk
  by_cases hp : p = 0
  · rw [if_pos hp] at hreach ⊢
    exact h.kmalloc_refused hreach (hnull.mpr hp)
  · obtain ⟨hn, hyes⟩ := not_or.mp (mt BlockHeap.kmalloc_eq_zero.mpr (mt hnull.mp hp))
    rw [if_neg hp] at hreach ⊢
    exact h.kmalloc_granted hreach hn (Bool.eq_true_of_not_eq_false hyes) (haddr hp)

/-- Freeing a live block is freeing the allocation at its address. -/
theorem Views.kfree {c : Client} (h : Views c b) {n : Nat} (hl : b.Live block)
    (hm : (b.addr block, n) ∈ c.live) :
    Views ⟨kfree c.heap (b.addr block), c.live.erase (b.addr block, n)⟩ (b.kfree block) := by
  obtain ⟨bs, hi⟩ := h.reach.inv
  have hnodup : c.live.Nodup := List.Nodup.of_map _ hi.nodup
  refine ⟨Reach.free h.reach hm, h.sane.kfree hl.le, fun i hi' => ?_, fun i j hi' hj => ?_,
    fun q k hq => ?_⟩
  · obtain ⟨hli, hne⟩ := BlockHeap.live_kfree.mp hi'
    obtain ⟨k, hk⟩ := h.held i hli
    refine ⟨k, (List.Nodup.mem_erase_iff hnodup).mpr ⟨fun he => hne ?_, hk⟩⟩
    exact h.injective i block hli hl (Prod.mk.inj he).1
  · exact h.injective i j (BlockHeap.live_kfree.mp hi').1 (BlockHeap.live_kfree.mp hj).1
  · obtain ⟨hne, hq'⟩ := (List.Nodup.mem_erase_iff hnodup).mp hq
    obtain ⟨i, hli, rfl⟩ := h.covers q k hq'
    refine ⟨i, BlockHeap.live_kfree.mpr ⟨hli, fun he => hne ?_⟩, rfl⟩
    have hinj := List.inj_on_of_nodup_map hi.nodup
    rw [he] at hq' ⊢
    exact hinj hq' hm rfl

/-- What happens at requests not made yet does not matter. -/
theorem Views.answer {c : Client} (h : Views c b) (ok : Bool) (p : Nat) :
    Views c { b with
      grants := Function.update b.grants b.requests ok
      addr := Function.update b.addr (b.requests + 1) p } := by
  have hlive : ∀ block, BlockHeap.Live { b with
      grants := Function.update b.grants b.requests ok
      addr := Function.update b.addr (b.requests + 1) p } block ↔ b.Live block := by
    intro block
    have hgr : 0 < block → block ≤ b.requests →
        Function.update b.grants b.requests ok (block - 1) = b.grants (block - 1) :=
      fun hpos hle => Function.update_of_ne (by omega) _ _
    exact ⟨fun hl => ⟨hl.pos, hl.le, (hgr hl.pos hl.le) ▸ hl.granted, hl.kept⟩,
      fun hl => ⟨hl.pos, hl.le, (hgr hl.pos hl.le).trans hl.granted, hl.kept⟩⟩
  have haddr : ∀ block, b.Live block →
      Function.update b.addr (b.requests + 1) p block = b.addr block := by
    intro block hl
    have hle := hl.le
    exact Function.update_of_ne (by omega) _ _
  refine ⟨h.reach, h.sane, fun block hl => ?_, fun i j hi hj he => ?_, fun q k hq => ?_⟩
  · rw [hlive] at hl
    simp only [haddr block hl]
    exact h.held block hl
  · rw [hlive] at hi hj
    simp only [haddr i hi, haddr j hj] at he
    exact h.injective i j hi hj he
  · obtain ⟨block, hl, he⟩ := h.covers q k hq
    exact ⟨block, (hlive block).mpr hl, (haddr block hl).trans he⟩

/-- **The view exists.** Every state of the kernel heap is seen as a heap of
numbered blocks. -/
theorem Reach.exists_view {c : Client} (hr : Reach c) : ∃ b, Views c b := by
  induction hr with
  | init m =>
    refine ⟨⟨fun _ => false, fun _ => 0, 0, []⟩, .init m, ?_, ?_, ?_, ?_⟩
    · intro p hp
      cases hp
    · intro block hl
      cases hl.granted
    · intro i j hi hj
      cases hi.granted
    · intro p n hm
      cases hm
  | @malloc s n p heap _ hok hk ih =>
    obtain ⟨b, h⟩ := ih
    refine ⟨_, (h.answer (decide (p ≠ 0)) p).kmalloc hok hk ?_ fun _ => ?_⟩
    · exact BlockHeap.kmalloc_null_iff hk (Function.update_self _ _ _)
    · exact Function.update_self _ _ _
  | @free s p n _ hm ih =>
    obtain ⟨b, h⟩ := ih
    obtain ⟨block, hl, rfl⟩ := h.covers p n hm
    exact ⟨_, h.kfree hl hm⟩
  | freeNull _ ih => exact ih
  | store hs hm hp ha ih =>
    obtain ⟨b, h⟩ := ih
    exact ⟨b, .store hs hm hp ha, h.sane, h.held, h.injective, h.covers⟩

end SynapseKernel.Kheap
