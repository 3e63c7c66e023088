import SynapseKernel.Lib.Runs
import SynapseKernel.Mm.KheapSafety

/-! # What the kernel heap counts as used

`kmalloc` adds the size it looked for and `kfree` takes off the size of the block.
The two agree unless `split_block` leaves a rest with the block, and the count is
exact for as long as that does not happen (`usageExact_iff_noSlack`). -/
namespace SynapseKernel.Kheap
open SynapseKernel.Word SynapseKernel.ByteMemory SynapseKernel.Tiling SynapseKernel.Runs

/-- `get_kheap_info`: total, used and free. -/
def getKheapInfo (h : Heap) : Nat × Nat × Nat :=
  (h.totalSize, h.usedSize, sub32 h.totalSize h.usedSize)

/-- The sizes of the blocks in use, added up. -/
def usedSum (bs : List Block) : Nat := ((bs.filter fun b => !b.free).map Block.size).sum

/-- What is counted as used is the sum over the blocks in use, and free is the rest. -/
def UsageExact (h : Heap) : Prop :=
  (∃ bs, blockList h = some bs ∧
    h.usedSize = ((bs.filter fun b => !b.isFree).map fun b => b.size).sum) ∧
  h.usedSize ≤ h.totalSize ∧ (getKheapInfo h).2.2 + h.usedSize = h.totalSize

/-- What a client does; a `store` writes a byte of a payload it holds. -/
inductive HeapOp
  | kmalloc (n : Nat)
  | kfree (p n : Nat)
  | store (p n a : Nat) (v : UInt8)

/-- `none` of the search is a client that waits for ever. -/
def clientStep (s : Client) : HeapOp → Client
  | .kmalloc n =>
    match kmalloc s.heap n with
    | none => s
    | some (p, h) => ⟨h, if p = 0 then s.live else (p, n) :: s.live⟩
  | .kfree p n => ⟨kfree s.heap p, s.live.erase (p, n)⟩
  | .store _ _ a v => ⟨{ s.heap with mem := Function.update s.heap.mem a v }, s.live⟩

/-- Sizes do not wrap, and what is freed or written is held. -/
def Permitted (s : Client) : HeapOp → Prop
  | .kmalloc n => n ≤ 0xFFFFFFE8
  | .kfree p n => (p, n) ∈ s.live
  | .store p n a _ => (p, n) ∈ s.live ∧ p ≤ a ∧ a < p + n

/-- The block that is taken has the size looked for, or enough more to be split. -/
def NoSlack (s : Client) : HeapOp → Prop
  | .kmalloc n => n ≠ 0 → ∀ block,
    findFreeBlock s.heap.mem (actualSize n) walkFuel s.heap.freeList = some block → block ≠ 0 →
    (header s.heap.mem block).size = actualSize n ∨
      actualSize n + headerSize + 8 ≤ (header s.heap.mem block).size
  | _ => True

/-! ## The sum over the blocks in use -/

variable {bs pre post : List Block} {b : Block} {n : Nat}

@[simp] theorem usedSum_nil : usedSum [] = 0 := rfl

theorem usedSum_append (l r : List Block) : usedSum (l ++ r) = usedSum l + usedSum r := by
  simp only [usedSum, List.filter_append, List.map_append, List.sum_append]

theorem usedSum_reverse (l : List Block) : usedSum l.reverse = usedSum l := by
  simp only [usedSum, List.filter_reverse, List.map_reverse, List.sum_reverse]

theorem usedSum_cons_free (hb : b.free = true) (l : List Block) : usedSum (b :: l) = usedSum l := by
  simp only [usedSum, List.filter_cons, hb, Bool.not_true, Bool.false_eq_true, if_false]

theorem usedSum_cons_used (hb : b.free = false) (l : List Block) :
    usedSum (b :: l) = b.size + usedSum l := by
  simp only [usedSum, List.filter_cons, hb, Bool.not_false, if_true, List.map_cons, List.sum_cons]

theorem usedSum_carve (slack : Nat) :
    usedSum (carve n slack b) = if b.size - n < slack then b.size else n := by
  rw [carve]
  split
  · rw [usedSum_cons_used rfl, usedSum_nil, Nat.add_zero]
  · rw [usedSum_cons_used rfl, usedSum_cons_free rfl, usedSum_nil, Nat.add_zero]

theorem usedSum_joinNext (hb : b.free = true) (post : List Block) :
    (joinNext b post).1.free = true ∧ usedSum (joinNext b post).2 = usedSum post := by
  cases post with
  | nil => exact ⟨hb, rfl⟩
  | cons c post =>
    rw [joinNext]
    split
    · exact ⟨hb, (usedSum_cons_free ‹_› post).symm⟩
    · exact ⟨hb, rfl⟩

theorem usedSum_joinPrev (hb : b.free = true) (pre : List Block) :
    (joinPrev b pre).1.free = true ∧ usedSum (joinPrev b pre).2 = usedSum pre := by
  cases pre with
  | nil => exact ⟨hb, rfl⟩
  | cons a pre =>
    rw [joinPrev]
    split
    · exact ⟨‹_›, (usedSum_cons_free ‹_› pre).symm⟩
    · exact ⟨hb, rfl⟩

/-- Giving a block back takes its size off. -/
theorem usedSum_release (pre : List Block) (b : Block) (post : List Block) :
    usedSum (release pre b post) = usedSum pre + usedSum post := by
  obtain ⟨hnext, hpost⟩ := @usedSum_joinNext { b with free := true } rfl post
  obtain ⟨hprev, hpre⟩ := usedSum_joinPrev hnext pre
  rw [release, usedSum_append, usedSum_reverse, usedSum_cons_free hprev, hpre, hpost]

theorem usedSum_listed (p : Nat) (bs : List Block) :
    (((listed p bs).filter fun b => !b.isFree).map fun b => b.size).sum = usedSum bs := by
  induction bs generalizing p with
  | nil => rfl
  | cons b bs ih =>
    have hrest := ih b.addr
    cases hb : b.free with
    | true =>
      rw [usedSum_cons_free hb, ← hrest]
      simp only [listed, List.filter_cons, hb, Bool.not_true, Bool.false_eq_true, if_false]
    | false =>
      rw [usedSum_cons_used hb, ← hrest]
      simp only [listed, List.filter_cons, hb, Bool.not_false, if_true, List.map_cons,
        List.sum_cons]

theorem usedSum_le (bs : List Block) : usedSum bs ≤ (bs.map Block.size).sum := by
  induction bs with
  | nil => exact Nat.le_refl 0
  | cons b bs ih =>
    rw [List.map_cons, List.sum_cons]
    cases hb : b.free with
    | true =>
      rw [usedSum_cons_free hb]
      exact Nat.le_add_left_of_le ih
    | false =>
      rw [usedSum_cons_used hb]
      exact Nat.add_le_add_left ih _

/-! ## Steps -/

/-- The invariant: the count is the sum over the blocks in use. -/
structure Counted (s : Client) (bs : List Block) : Prop where
  client : ClientInv s bs
  total : s.heap.totalSize = kheapSize
  used : s.heap.usedSize = usedSum bs

variable {s : Client}

theorem Represents.usedSum_le {h : Heap} (hr : Represents h bs) : usedSum bs ≤ kheapSize := by
  have hsum := hr.layout.tiles.sum_sizes
  rw [Nat.add_sub_cancel_left] at hsum
  exact hsum ▸ Kheap.usedSum_le bs

theorem Counted.exact (h : Counted s bs) :
    UsageExact s.heap ∧ (s.live = [] → s.heap.usedSize = 0) := by
  have hle := h.client.heap.usedSum_le
  rw [← h.used, ← h.total] at hle
  have hlt : s.heap.totalSize < 2 ^ 32 := by
    rw [h.total]
    decide
  refine ⟨⟨⟨_, h.client.heap.blockList, ?_⟩, hle, ?_⟩, fun hl => ?_⟩
  · rw [usedSum_listed, h.used]
  · rw [getKheapInfo, sub32_of_le hlt hle, Nat.sub_add_cancel hle]
  · -- a block in use would be held
    have hnone : bs.filter (fun b => !b.free) = [] := by
      refine List.filter_eq_nil_iff.mpr fun b hb hf => ?_
      obtain ⟨n, hn⟩ := h.client.used b hb (by simpa using hf)
      rw [hl] at hn
      cases hn
    rw [h.used, usedSum, hnone]
    rfl

/-- What the search of `kmalloc` finds. -/
theorem Represents.findFreeBlock {h : Heap} (hr : Represents h bs) (n : Nat) :
    findFreeBlock h.mem (actualSize n) walkFuel h.freeList =
      some (((bs.find? (fits (actualSize n))).map Block.addr).getD 0) := by
  rw [← hr.head]
  exact findFreeBlock_eq (actualSize n) hr.links hr.addr_pos hr.length_lt

theorem Represents.findFreeBlock_take {h : Heap} (hr : Represents h (pre.reverse ++ b :: post))
    (hb : b.free = true) (hfit : actualSize n ≤ b.size)
    (hpre : ∀ a ∈ pre, fits (actualSize n) a = false) :
    Kheap.findFreeBlock h.mem (actualSize n) walkFuel h.freeList = some b.addr := by
  have hfind : (pre.reverse ++ b :: post).find? (fits (actualSize n)) = some b := by
    rw [List.find?_eq_some_iff_append]
    refine ⟨by rw [fits, hb, decide_eq_true hfit]; rfl, pre.reverse, post, rfl, fun a ha => ?_⟩
    rw [hpre a (List.mem_reverse.mp ha)]
    rfl
  rw [hr.findFreeBlock, hfind]
  rfl

theorem Represents.findFreeBlock_none {h : Heap} (hr : Represents h bs)
    (hnone : ∀ b ∈ bs, fits (actualSize n) b = false) :
    Kheap.findFreeBlock h.mem (actualSize n) walkFuel h.freeList = some 0 := by
  have hfind : bs.find? (fits (actualSize n)) = none := by
    rw [List.find?_eq_none]
    intro b hb
    rw [hnone b hb]
    exact Bool.false_ne_true
  rw [hr.findFreeBlock, hfind]
  rfl

theorem noSlack_of_none {s : Client} (hr : Represents s.heap bs)
    (hnone : ∀ b ∈ bs, fits (actualSize n) b = false) : NoSlack s (.kmalloc n) := by
  intro _ block hfind hne
  rw [hr.findFreeBlock_none hnone] at hfind
  exact absurd (Option.some.inj hfind).symm hne

/-- For a request that is granted the guard is about the block it takes. -/
theorem noSlack_take_iff {s : Client} (hr : Represents s.heap (pre.reverse ++ b :: post))
    (hb : b.free = true) (hn : n ≠ 0) (hfit : actualSize n ≤ b.size)
    (hpre : ∀ a ∈ pre, fits (actualSize n) a = false) :
    NoSlack s (.kmalloc n) ↔ b.size = actualSize n ∨ actualSize n + 24 ≤ b.size := by
  have hfind := hr.findFreeBlock_take hb hfit hpre
  have hmem : b ∈ pre.reverse ++ b :: post := List.mem_append_right _ List.mem_cons_self
  have hsize := hr.header_size hmem
  constructor
  · intro h
    have hb := h hn b.addr hfind (hr.addr_pos b hmem)
    rwa [hsize] at hb
  · intro h _ block hblock _
    obtain rfl := Option.some.inj (hfind.symm.trans hblock)
    rwa [hsize]

/-- The step of a request that is granted. -/
theorem clientStep_take {s : Client} (hr : Represents s.heap (pre.reverse ++ b :: post))
    (hb : b.free = true) (hn : n ≠ 0) (hfit : actualSize n ≤ b.size)
    (hpre : ∀ a ∈ pre, fits (actualSize n) a = false) :
    clientStep s (.kmalloc n) =
      ⟨afterTake s.heap b.addr n, (b.addr + 16, n) :: s.live⟩ := by
  have hmem : b ∈ pre.reverse ++ b :: post := List.mem_append_right _ List.mem_cons_self
  have hpos := hr.addr_pos b hmem
  have hbound := (hr.layout.tiles.bounds b hmem).2.1
  have hsize := (hr.layout.sizes b hmem).2
  have hadd : u32 (b.addr + headerSize) = b.addr + 16 := by
    simp only [kheapStart, kheapSize] at hbound
    exact u32_of_lt (by simp only [headerSize]; omega)
  have hk : kmalloc s.heap n = some (b.addr + 16, afterTake s.heap b.addr n) := by
    have hfind := hr.findFreeBlock_take hb hfit hpre
    unfold actualSize at hfind
    simp only [kmalloc, if_neg hn, hfind, Option.map_some, if_neg hpos, hadd]
    rfl
  simp only [clientStep, hk]
  rw [if_neg (Nat.succ_ne_zero _)]

theorem clientStep_none {s : Client} (hr : Represents s.heap bs) (hn : n ≠ 0)
    (hnone : ∀ b ∈ bs, fits (actualSize n) b = false) : clientStep s (.kmalloc n) = s := by
  have hfind := hr.findFreeBlock_none hnone
  unfold actualSize at hfind
  simp only [clientStep, kmalloc, if_neg hn, hfind, Option.map_some, if_true]

theorem clientStep_zero (s : Client) : clientStep s (.kmalloc 0) = s := by
  simp only [clientStep, kmalloc, if_true]

/-- What is in use after a request that is granted. -/
theorem usedSum_take (hb : b.free = true) :
    usedSum (pre.reverse ++ (carve (actualSize n) 24 b ++ post)) =
      usedSum (pre.reverse ++ b :: post) +
        if b.size - actualSize n < 24 then b.size else actualSize n := by
  rw [usedSum_append, usedSum_append, usedSum_carve, usedSum_append, usedSum_cons_free hb]
  omega

theorem Counted.take (h : Counted s (pre.reverse ++ b :: post)) (hb : b.free = true) (hn : n ≠ 0)
    (hle : n ≤ 0xFFFFFFE8) (hfit : actualSize n ≤ b.size)
    (hpre : ∀ a ∈ pre, fits (actualSize n) a = false)
    (hslack : b.size = actualSize n ∨ actualSize n + 24 ≤ b.size) :
    Counted (clientStep s (.kmalloc n))
      (pre.reverse ++ (carve (actualSize n) 24 b ++ post)) := by
  have hi := h.client.take hb hn hle hfit
  have hsum := @usedSum_take pre post b n hb
  have hle := hi.heap.usedSum_le
  rw [clientStep_take h.client.heap hb hn hfit hpre]
  refine ⟨hi, h.total, ?_⟩
  have htaken : (if b.size - actualSize n < 24 then b.size else actualSize n) = actualSize n := by
    split <;> omega
  rw [htaken, ← h.used] at hsum
  rw [hsum] at hle ⊢
  exact u32_of_lt (Nat.lt_of_le_of_lt hle (by decide))

theorem Counted.release (h : Counted s (pre.reverse ++ b :: post)) (hb : b.free = false)
    (hl : (b.addr + 16, n) ∈ s.live) :
    Counted (clientStep s (.kfree (b.addr + 16) n)) (Tiling.release pre b post) := by
  have hk : kfree s.heap (b.addr + 16) = afterRelease s.heap b := kfree_eq h.client.heap hb
  have hlt : s.heap.usedSize < 2 ^ 32 := by
    rw [h.used]
    exact Nat.lt_of_le_of_lt h.client.heap.usedSum_le (by decide)
  have hused := h.used
  rw [usedSum_append, usedSum_reverse, usedSum_cons_used hb] at hused
  have hsub : sub32 s.heap.usedSize b.size = usedSum pre + usedSum post := by
    rw [sub32_of_le hlt (by omega)]
    omega
  have htotal : (afterRelease s.heap b).totalSize = kheapSize := by
    rw [afterRelease]
    exact h.total
  rw [clientStep, hk]
  refine ⟨h.client.release hl, htotal, ?_⟩
  rw [usedSum_release]
  exact hsub

/-- **One step.** A permitted step without slack keeps the count. -/
theorem Counted.step {op : HeapOp} (h : Counted s bs) (hp : Permitted s op) (hs : NoSlack s op) :
    ∃ cs, Counted (clientStep s op) cs := by
  cases op with
  | kmalloc n =>
    by_cases hn : n = 0
    · subst hn
      rw [clientStep_zero]
      exact ⟨bs, h⟩
    · rcases kmalloc_cases h.client.heap hn with ⟨hnone, -⟩ | ⟨pre, b, post, rfl, hb, hfit, hpre, -⟩
      · rw [clientStep_none h.client.heap hn hnone]
        exact ⟨bs, h⟩
      · have hslack := (noSlack_take_iff h.client.heap hb hn hfit hpre).mp hs
        exact ⟨_, h.take hb hn hp hfit hpre hslack⟩
  | kfree p n =>
    obtain ⟨b, hb, hf, rfl, -⟩ := h.client.held p n hp
    obtain ⟨l, post, rfl⟩ := List.append_of_mem hb
    have h' : Counted s (l.reverse.reverse ++ b :: post) := by rwa [List.reverse_reverse]
    exact ⟨_, h'.release hf hp⟩
  | store p n a v =>
    obtain ⟨hl, hle, hlt⟩ := hp
    exact ⟨bs, h.client.store hl hle hlt, h.total, h.used⟩

/-- A block taken with a rest too small to split is counted short. -/
theorem Counted.slack (h : Counted s (pre.reverse ++ b :: post)) (hb : b.free = true) (hn : n ≠ 0)
    (hle : n ≤ 0xFFFFFFE8) (hfit : actualSize n ≤ b.size)
    (hpre : ∀ a ∈ pre, fits (actualSize n) a = false) (hne : b.size ≠ actualSize n)
    (hlt : b.size < actualSize n + 24) : ¬ UsageExact (clientStep s (.kmalloc n)).heap := by
  have hi := h.client.take hb hn hle hfit
  have hsum := @usedSum_take pre post b n hb
  have hmax := hi.heap.usedSum_le
  rw [if_pos (Nat.sub_lt_left_of_lt_add hfit hlt), ← h.used] at hsum
  rw [hsum] at hmax
  rw [clientStep_take h.client.heap hb hn hfit hpre]
  rintro ⟨⟨ls, hls, hused⟩, -⟩
  obtain rfl := Option.some.inj (hi.heap.blockList.symm.trans hls)
  rw [usedSum_listed, hsum] at hused
  have hu : u32 (s.heap.usedSize + actualSize n) = s.heap.usedSize + b.size := hused
  rw [u32_of_lt (Nat.lt_of_le_of_lt (Nat.add_le_add_left hfit _)
    (Nat.lt_of_le_of_lt hmax (by decide)))] at hu
  omega

theorem Counted.step_bad {op : HeapOp} (h : Counted s bs) (hp : Permitted s op)
    (hs : ¬ NoSlack s op) : ¬ UsageExact (clientStep s op).heap := by
  cases op with
  | kmalloc n =>
    have hn : n ≠ 0 := fun h0 => hs fun hne => absurd h0 hne
    rcases kmalloc_cases h.client.heap hn with ⟨hnone, -⟩ | ⟨pre, b, post, rfl, hb, hfit, hpre, -⟩
    · exact absurd (noSlack_of_none h.client.heap hnone) hs
    · rw [noSlack_take_iff h.client.heap hb hn hfit hpre, not_or, Nat.not_le] at hs
      exact h.slack hb hn hp hfit hpre hs.1 hs.2
  | kfree p n => exact absurd trivial hs
  | store p n a v => exact absurd trivial hs

/-! ## Runs -/

theorem Counted.init (m : Mem) :
    Counted ⟨initKheap m, []⟩ [⟨kheapStart, kheapSize, true⟩] := ⟨ClientInv.init m, rfl, rfl⟩

theorem Counted.run (h : Counted s bs) {ops : List HeapOp} (hl : Guarded clientStep Permitted s ops)
    (hs : Guarded clientStep NoSlack s ops) : ∃ cs, Counted (ops.foldl clientStep s) cs := by
  induction ops generalizing s bs with
  | nil => exact ⟨bs, h⟩
  | cons op ops ih =>
    obtain ⟨cs, hc⟩ := h.step hl.1 hs.1
    exact ih hc hl.2 hs.2

/-- What is counted as used is exact, and nothing once everything has been freed. -/
def UsageOk (s : Client) : Prop := UsageExact s.heap ∧ (s.live = [] → s.heap.usedSize = 0)

/-- **Heap usage.** In a run of a client from `init_kheap` the count of what is
used is exact throughout if and only if every `kmalloc` takes a block of the size
it looks for or one that `split_block` does split. -/
theorem usageOk_iff_noSlack (m : Mem) (ops : List HeapOp)
    (hl : Guarded clientStep Permitted ⟨initKheap m, []⟩ ops) :
    Always clientStep UsageOk ⟨initKheap m, []⟩ ops ↔
      Guarded clientStep NoSlack ⟨initKheap m, []⟩ ops :=
  always_iff_guarded_within (fun s => ∃ bs, Counted s bs) (fun _ ⟨_, h⟩ => h.exact)
    (fun _ _ ⟨_, h⟩ hp hs => h.step hp hs)
    (fun _ _ ⟨_, h⟩ hp hs hok => h.step_bad hp hs hok.1) ⟨_, Counted.init m⟩ hl

/-! ## A history with slack -/

/-- 40 bytes are allocated, then 8, and the 40 are given back. -/
def afterFirst : Client := clientStep ⟨initKheap fun _ => 0, []⟩ (.kmalloc 40)
def afterSecond : Client := clientStep afterFirst (.kmalloc 8)
def afterThird : Client := clientStep afterSecond (.kfree (kheapStart + 16) 40)

theorem counted_first :
    Counted afterFirst [⟨kheapStart, 56, false⟩, ⟨kheapStart + 56, kheapSize - 56, true⟩] :=
  @Counted.take [] [] ⟨kheapStart, kheapSize, true⟩ 40 _ (Counted.init _) rfl (by decide)
    (by decide) (by decide) (by simp) (by decide)

theorem counted_second : Counted afterSecond [⟨kheapStart, 56, false⟩,
    ⟨kheapStart + 56, 24, false⟩, ⟨kheapStart + 80, kheapSize - 80, true⟩] :=
  @Counted.take [⟨kheapStart, 56, false⟩] [] ⟨kheapStart + 56, kheapSize - 56, true⟩ 8 _
    counted_first rfl (by decide) (by decide) (by decide) (by simp [fits]) (by decide)

theorem live_first : afterFirst.live = [(kheapStart + 16, 40)] := by
  rw [afterFirst, @clientStep_take [] [] ⟨kheapStart, kheapSize, true⟩ 40 _ (represents_init _) rfl
    (by decide) (by decide) (by simp)]

theorem live_second : (kheapStart + 16, 40) ∈ afterSecond.live := by
  rw [afterSecond, @clientStep_take [⟨kheapStart, 56, false⟩] []
    ⟨kheapStart + 56, kheapSize - 56, true⟩ 8 _ counted_first.client.heap rfl (by decide)
    (by decide) (by simp [fits]), live_first]
  simp

theorem counted_third : Counted afterThird [⟨kheapStart, 56, true⟩,
    ⟨kheapStart + 56, 24, false⟩, ⟨kheapStart + 80, kheapSize - 80, true⟩] :=
  @Counted.release [] [⟨kheapStart + 56, 24, false⟩, ⟨kheapStart + 80, kheapSize - 80, true⟩]
    ⟨kheapStart, 56, false⟩ 40 _ counted_second rfl live_second

/-- The next request for 24 bytes takes 40 of a block of 56, too little to split. -/
theorem not_usageOk_slack :
    Guarded clientStep Permitted ⟨initKheap fun _ => 0, []⟩
      [.kmalloc 40, .kmalloc 8, .kfree (kheapStart + 16) 40, .kmalloc 24] ∧
    ¬ Always clientStep UsageOk ⟨initKheap fun _ => 0, []⟩
      [.kmalloc 40, .kmalloc 8, .kfree (kheapStart + 16) 40, .kmalloc 24] := by
  refine ⟨⟨Nat.le_of_ble_eq_true rfl, Nat.le_of_ble_eq_true rfl, live_second,
    Nat.le_of_ble_eq_true rfl, trivial⟩, fun h => ?_⟩
  have hexact : UsageExact (clientStep afterThird (.kmalloc 24)).heap := h.2.2.2.2.1
  exact @Counted.slack [] [⟨kheapStart + 56, 24, false⟩,
    ⟨kheapStart + 80, kheapSize - 80, true⟩] ⟨kheapStart, 56, true⟩ 24 _ counted_third rfl
    (by decide) (by decide) (by decide) (by simp) (by decide) (by decide) hexact

/-- At a client that gives back what it has allocated. -/
theorem usageOk_iff_noSlack_once :
    Always clientStep UsageOk ⟨initKheap fun _ => 0, []⟩
      [.kmalloc 40, .kmalloc 8, .kfree (kheapStart + 16) 40] ↔
    Guarded clientStep NoSlack ⟨initKheap fun _ => 0, []⟩
      [.kmalloc 40, .kmalloc 8, .kfree (kheapStart + 16) 40] :=
  usageOk_iff_noSlack (fun _ => 0) _
    ⟨Nat.le_of_ble_eq_true rfl, Nat.le_of_ble_eq_true rfl, live_second, trivial⟩

end SynapseKernel.Kheap
