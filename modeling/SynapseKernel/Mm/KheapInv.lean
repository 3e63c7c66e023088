import SynapseKernel.Lib.Tiling
import SynapseKernel.Mm.Kheap

/-! # The block list is a coalesced tiling of the heap

`Represents h bs` ties the memory of a heap to the list of its blocks: the
links run through exactly these blocks in both directions, and the blocks tile
the heap with no two free neighbours. `kmalloc` carves a block of that list
and `kfree` releases one (`kmalloc_carves`, `kfree_releases`); everything
else about the heap follows from the list. -/
namespace SynapseKernel.Kheap
open SynapseKernel.Word SynapseKernel.ByteMemory SynapseKernel.Tiling

/-- The address of the first block, `NULL` for an empty list. -/
def headAddr : List Block → Nat
  | [] => 0
  | b :: _ => b.addr

@[simp] theorem headAddr_cons (b : Block) (bs : List Block) : headAddr (b :: bs) = b.addr := rfl

/-- What holds of every block's address holds of the first one's. -/
theorem headAddr_of_forall {P : Nat → Prop} {bs : List Block} (h : ∀ c ∈ bs, P c.addr)
    (h0 : headAddr bs ≠ 0) : P (headAddr bs) := by
  cases bs with
  | nil => exact absurd rfl h0
  | cons c cs => exact h c (by simp)

theorem headAddr_lt {bs : List Block} (h : ∀ c ∈ bs, c.addr < 2 ^ 32) : headAddr bs < 2 ^ 32 := by
  by_cases h0 : headAddr bs = 0
  · omega
  · exact headAddr_of_forall (P := (· < 2 ^ 32)) h h0

/-- The headers of `bs` link each block to the next; the first `prev` is `p`. -/
def LinkedAfter (m : Mem) : Nat → List Block → Prop
  | _, [] => True
  | p, b :: bs => header m b.addr = ⟨b.size, headAddr bs, p, b.free⟩ ∧ LinkedAfter m b.addr bs

/-- The same for a list read backwards; the `next` of its nearest block is `n`. -/
def LinkedBefore (m : Mem) : Nat → List Block → Prop
  | _, [] => True
  | n, a :: pre => header m a.addr = ⟨a.size, n, headAddr pre, a.free⟩ ∧ LinkedBefore m a.addr pre

/-- Block sizes are multiples of 8 that hold a header and 8 bytes. -/
abbrev KheapLayout (bs : List Block) : Prop :=
  Layout kheapStart (kheapStart + kheapSize) 8 24 bs

/-- The memory of `h` holds the block list `bs`. -/
structure Represents (h : Heap) (bs : List Block) : Prop where
  freeList : h.freeList = kheapStart
  links : LinkedAfter h.mem 0 bs
  layout : KheapLayout bs

/-! ## Lists of linked headers -/

theorem linked_zipper {m : Mem} {pre post : List Block} :
    LinkedAfter m 0 (pre.reverse ++ post) ↔
      LinkedBefore m (headAddr post) pre ∧ LinkedAfter m (headAddr pre) post := by
  induction pre generalizing post with
  | nil => simp [LinkedBefore, headAddr]
  | cons a pre ih =>
    rw [List.reverse_cons, List.append_assoc, List.singleton_append, ih]
    simp only [LinkedBefore, LinkedAfter, headAddr]
    constructor
    · intro ⟨hl, hh, hr⟩; exact ⟨⟨hh, hl⟩, hr⟩
    · intro ⟨⟨hh, hl⟩, hr⟩; exact ⟨hl, hh, hr⟩

theorem LinkedAfter.congr {m m' : Mem} {p : Nat} {bs : List Block} (h : LinkedAfter m p bs)
    (hm : ∀ b ∈ bs, header m' b.addr = header m b.addr) : LinkedAfter m' p bs := by
  induction bs generalizing p with
  | nil => trivial
  | cons b bs ih =>
    exact ⟨(hm b (by simp)).trans h.1, ih h.2 fun c hc => hm c (by simp [hc])⟩

theorem LinkedBefore.congr {m m' : Mem} {n : Nat} {pre : List Block} (h : LinkedBefore m n pre)
    (hm : ∀ a ∈ pre, header m' a.addr = header m a.addr) : LinkedBefore m' n pre := by
  induction pre generalizing n with
  | nil => trivial
  | cons a pre ih =>
    exact ⟨(hm a (by simp)).trans h.1, ih h.2 fun c hc => hm c (by simp [hc])⟩

/-- A list keeps its links when its first `prev` pointer is redirected. -/
theorem LinkedAfter.redirect {m m' : Mem} {p q : Nat} {bs : List Block} (h : LinkedAfter m p bs)
    (hd : ∀ c cs, bs = c :: cs → header m' c.addr = { header m c.addr with prev := q })
    (hm : ∀ b ∈ bs.tail, header m' b.addr = header m b.addr) : LinkedAfter m' q bs := by
  cases bs with
  | nil => trivial
  | cons c cs =>
    refine ⟨?_, h.2.congr hm⟩
    rw [hd c cs rfl, h.1]

/-! ## Where the blocks around a block lie -/

/-- What the proofs below use of a block and its surroundings. -/
structure Around (pre : List Block) (b : Block) (post : List Block) : Prop where
  above : 0xC0000000 ≤ b.addr
  below : b.addr + b.size ≤ 0xC1000000
  size : 24 ≤ b.size
  before : ∀ a ∈ pre, 0xC0000000 ≤ a.addr ∧ a.addr + 24 ≤ b.addr
  after : ∀ c ∈ post, b.addr + b.size ≤ c.addr ∧ c.addr + 24 ≤ 0xC1000000

theorem Around.of_tiles {pre post : List Block} {b : Block}
    (h : Tiles kheapStart (pre.reverse ++ b :: post) (kheapStart + kheapSize))
    (hsize : ∀ c ∈ pre.reverse ++ b :: post, 24 ≤ c.size) : Around pre b post := by
  obtain ⟨htl, -, htr⟩ := tiles_zipper.mp h
  refine ⟨htl.le, htr.le, hsize b (by simp), fun a ha => ?_, fun c hc => ?_⟩
  · have hb := htl.bounds a (by simpa using ha)
    have hs := hsize a (by simp [ha])
    exact ⟨hb.1, by omega⟩
  · have hb := htr.bounds c hc
    have hs := hsize c (by simp [hc])
    exact ⟨hb.1, by simp only [kheapStart, kheapSize] at hb; omega⟩

theorem Around.of_layout {pre post : List Block} {b : Block}
    (h : KheapLayout (pre.reverse ++ b :: post)) : Around pre b post :=
  Around.of_tiles h.tiles fun c hc => (h.sizes c hc).2

/-- Setting the flag of a block changes that block of the list only. -/
theorem linked_setIsFree {m : Mem} {pre post : List Block} {b : Block} {f : Bool}
    (hl : LinkedAfter m 0 (pre.reverse ++ b :: post))
    (hlay : KheapLayout (pre.reverse ++ b :: post)) :
    LinkedAfter (setIsFree m b.addr f) 0 (pre.reverse ++ { b with free := f } :: post) := by
  obtain ⟨hbef, hb, haft⟩ := linked_zipper.mp hl
  have around := Around.of_layout hlay
  refine linked_zipper.mpr ⟨hbef.congr fun a ha => ?_, ?_, haft.congr fun c hc => ?_⟩
  · have := around.before a ha
    exact header_setIsFree_of_apart (by omega)
  · rw [header_setIsFree, hb]
  · have := around.after c hc
    have := around.size
    exact header_setIsFree_of_apart (by omega)

/-! ## Carving a block -/

section Carve
variable {m : Mem} {pre post : List Block} {b : Block} {n : Nat}

/-- The block is left whole when the rest would not hold a header and 8 bytes. -/
theorem splitBlock_whole (hb : header m b.addr = ⟨b.size, headAddr post, headAddr pre, b.free⟩)
    (hlt : b.size < 2 ^ 32) (hn : n ≤ b.size) (hs : b.size - n < 24) :
    splitBlock m b.addr n = m := by
  unfold splitBlock
  rw [hb, if_pos]
  rw [sub32_of_le hlt hn]
  exact hs

/-- The stores `split_block` makes when it does split, their operands computed
from the block list instead of read back from memory. -/
def splitStores (m : Mem) (b : Block) (next n : Nat) : Mem :=
  let new := b.addr + n
  let m := setSize m new (b.size - n)
  let m := setIsFree m new true
  let m := setNext m new next
  let m := setPrev m new b.addr
  let m := if next ≠ 0 then setPrev m next new else m
  let m := setNext m b.addr new
  setSize m b.addr n

theorem splitBlock_split (hb : header m b.addr = ⟨b.size, headAddr post, headAddr pre, b.free⟩)
    (hlt : b.addr + b.size < 2 ^ 32) (hn : n ≤ b.size) (h24 : 24 ≤ n) (hs : 24 ≤ b.size - n) :
    splitBlock m b.addr n = splitStores m b (headAddr post) n := by
  have hsub : sub32 b.size n = b.size - n := sub32_of_le (by omega) hn
  have hnew : u32 (b.addr + n) = b.addr + n := u32_of_lt (by omega)
  unfold splitBlock splitStores
  simp (disch := omega) only [hb, hsub, hnew, header_setSize_of_apart, header_setIsFree_of_apart,
    header_setNext_of_apart, header_setPrev_of_apart]
  rw [if_neg (by rw [headerSize]; omega)]

/-! The headers after a split: the block itself, the new block, the next block
and every block apart from these. -/

variable {next x : Nat}

theorem header_splitStores_block (hn : 24 ≤ n) (hle : n ≤ b.size)
    (hlt : b.addr + b.size < 2 ^ 32) (hnext : next ≠ 0 → b.addr + b.size ≤ next) :
    header (splitStores m b next n) b.addr =
      { header m b.addr with size := n, next := b.addr + n } := by
  have hsz : n % 2 ^ 32 = n := Nat.mod_eq_of_lt (by omega)
  have hnx : (b.addr + n) % 2 ^ 32 = b.addr + n := Nat.mod_eq_of_lt (by omega)
  unfold splitStores
  split <;>
  simp (disch := omega) only [header_setSize, header_setNext, hsz, hnx, header_setSize_of_apart,
    header_setIsFree_of_apart, header_setNext_of_apart, header_setPrev_of_apart]

theorem header_splitStores_new (hn : 24 ≤ n) (hs : 24 ≤ b.size - n)
    (hlt : b.addr + b.size < 2 ^ 32) (hnext : next ≠ 0 → b.addr + b.size ≤ next)
    (hnlt : next < 2 ^ 32) :
    header (splitStores m b next n) (b.addr + n) = ⟨b.size - n, next, b.addr, true⟩ := by
  have hsz : (b.size - n) % 2 ^ 32 = b.size - n := Nat.mod_eq_of_lt (by omega)
  have hnx : next % 2 ^ 32 = next := Nat.mod_eq_of_lt hnlt
  have hpv : b.addr % 2 ^ 32 = b.addr := Nat.mod_eq_of_lt (by omega)
  unfold splitStores
  split <;>
  simp (disch := omega) only [header_setSize, header_setNext, header_setPrev, header_setIsFree,
    hsz, hnx, hpv, header_setSize_of_apart, header_setNext_of_apart, header_setPrev_of_apart]

theorem header_splitStores_next (hn : 24 ≤ n) (hs : 24 ≤ b.size - n)
    (hlt : b.addr + b.size < 2 ^ 32) (h0 : next ≠ 0) (hnext : b.addr + b.size ≤ next) :
    header (splitStores m b next n) next = { header m next with prev := b.addr + n } := by
  have hpv : (b.addr + n) % 2 ^ 32 = b.addr + n := Nat.mod_eq_of_lt (by omega)
  unfold splitStores
  simp (disch := omega) only [if_pos h0, header_setPrev, hpv, header_setSize_of_apart,
    header_setIsFree_of_apart, header_setNext_of_apart, header_setPrev_of_apart]

theorem header_splitStores_apart (hn : 24 ≤ n) (hs : 24 ≤ b.size - n)
    (hx : x + 16 ≤ b.addr ∨ b.addr + b.size ≤ x)
    (hnext : next ≠ 0 → b.addr + b.size ≤ next ∧ (x + 16 ≤ next ∨ next + 16 ≤ x)) :
    header (splitStores m b next n) x = header m x := by
  unfold splitStores
  split <;>
  simp (disch := omega) only [header_setSize_of_apart, header_setIsFree_of_apart,
    header_setNext_of_apart, header_setPrev_of_apart]

/-- **Taking a block.** Splitting a free block and marking it used carves the
block list. -/
theorem linked_carve (hl : LinkedAfter m 0 (pre.reverse ++ b :: post))
    (hlay : KheapLayout (pre.reverse ++ b :: post))
    (hn : n ≤ b.size) (h24 : 24 ≤ n) :
    LinkedAfter (setIsFree (splitBlock m b.addr n) b.addr false) 0
      (pre.reverse ++ (carve n 24 b ++ post)) := by
  obtain ⟨hbef, hb, haft⟩ := linked_zipper.mp hl
  have around := Around.of_layout hlay
  obtain ⟨habove, hbelow, hsize, hpre, hpost⟩ := around
  unfold carve
  split
  · rename_i hs
    rw [splitBlock_whole hb (by omega) hn hs]
    exact linked_setIsFree hl hlay
  · rename_i hs
    rw [splitBlock_split hb (by omega) hn h24 (by omega)]
    have hnext : headAddr post ≠ 0 → b.addr + b.size ≤ headAddr post :=
      headAddr_of_forall (P := (b.addr + b.size ≤ ·)) fun c hc => (hpost c hc).1
    have hnlt : headAddr post < 2 ^ 32 := headAddr_lt fun c hc => by
      have := hpost c hc
      omega
    refine linked_zipper.mpr ⟨hbef.congr fun a ha => ?_, ?_, ?_, haft.redirect ?_ ?_⟩
    · have := hpre a ha
      rw [header_setIsFree_of_apart (by omega),
        header_splitStores_apart h24 (by omega) (by omega) fun h => ⟨hnext h, by
          have := hnext h; omega⟩]
    · rw [header_setIsFree, header_splitStores_block h24 hn (by omega) hnext, hb]
      rfl
    · rw [header_setIsFree_of_apart (by simp only; omega),
        header_splitStores_new h24 (by omega) (by omega) hnext hnlt]
      rfl
    · intro c cs he
      subst he
      have hc := hpost c (by simp)
      have h0 : headAddr (c :: cs) ≠ 0 := by
        simp only [headAddr]
        omega
      rw [header_setIsFree_of_apart (by omega)]
      exact header_splitStores_next h24 (by omega) (by omega) h0 (hnext h0)
    · intro d hd
      cases post with
      | nil => cases hd
      | cons c cs =>
        have hc := hpost c (by simp)
        have hcd := (List.pairwise_cons.mp (tiles_zipper.mp hlay.tiles).2.2.ordered).1 d hd
        have hcs := (hlay.sizes c (by simp)).2
        rw [header_setIsFree_of_apart (by omega)]
        exact header_splitStores_apart h24 (by omega) (by omega) fun _ =>
          ⟨hc.1, by simp only [headAddr]; omega⟩

end Carve

/-! ## Releasing a block -/

section Release
variable {m : Mem} {pre post : List Block} {a b c : Block}

/-- The stores of either half of `merge_blocks`: the block at `a` takes the
size and the `next` pointer of the joined block. -/
def joinStores (m : Mem) (a size next : Nat) : Mem :=
  let m := setSize m a size
  let m := setNext m a next
  if next ≠ 0 then setPrev m next a else m

theorem header_joinStores_block {p size next : Nat} (hs : size < 2 ^ 32) (hn : next < 2 ^ 32)
    (hnext : next ≠ 0 → p + 16 ≤ next) :
    header (joinStores m p size next) p = { header m p with size := size, next := next } := by
  have hsz : size % 2 ^ 32 = size := Nat.mod_eq_of_lt hs
  have hnx : next % 2 ^ 32 = next := Nat.mod_eq_of_lt hn
  unfold joinStores
  split <;>
  simp (disch := omega) only [header_setPrev_of_apart, header_setNext, header_setSize, hsz, hnx]

theorem header_joinStores_next {p size next : Nat} (hp : p < 2 ^ 32) (h0 : next ≠ 0)
    (hnext : p + 16 ≤ next) :
    header (joinStores m p size next) next = { header m next with prev := p } := by
  have hpv : p % 2 ^ 32 = p := Nat.mod_eq_of_lt hp
  unfold joinStores
  simp (disch := omega) only [if_pos h0, header_setPrev, hpv, header_setNext_of_apart,
    header_setSize_of_apart]

theorem header_joinStores_apart {p size next x : Nat} (hx : x + 16 ≤ p ∨ p + 16 ≤ x)
    (hnext : next ≠ 0 → x + 16 ≤ next ∨ next + 16 ≤ x) :
    header (joinStores m p size next) x = header m x := by
  unfold joinStores
  split <;>
  simp (disch := omega) only [header_setPrev_of_apart, header_setNext_of_apart,
    header_setSize_of_apart]

/-- Joining the block `a` with the block `c` that follows it. -/
theorem linked_join (hl : LinkedAfter m 0 (pre.reverse ++ a :: c :: post))
    (ht : Tiles kheapStart (pre.reverse ++ a :: c :: post) (kheapStart + kheapSize))
    (hs : ∀ x ∈ pre.reverse ++ a :: c :: post, 24 ≤ x.size) :
    LinkedAfter (joinStores m a.addr (a.size + c.size) (headAddr post)) 0
      (pre.reverse ++ { a with size := a.size + c.size } :: post) := by
  obtain ⟨hbef, ha, -, haft⟩ := linked_zipper.mp hl
  obtain ⟨habove, hbelow, hsize, hpre, hpost⟩ := Around.of_tiles ht hs
  have hc := hpost c (by simp)
  have htc := (tiles_zipper.mp ht).2.2
  have hcpost : ∀ x ∈ post, c.addr + c.size ≤ x.addr :=
    fun x hx => (List.pairwise_cons.mp htc.ordered).1 x hx
  have hcs := hs c (by simp)
  have hcb := htc.bounds c (by simp)
  simp only [kheapStart, kheapSize] at hcb
  have hnext : headAddr post ≠ 0 → a.addr + 16 ≤ headAddr post :=
    headAddr_of_forall (P := (a.addr + 16 ≤ ·)) fun d hd => by
      have := hcpost d hd
      omega
  have hnlt : headAddr post < 2 ^ 32 := headAddr_lt fun d hd => by
    have := hpost d (List.mem_cons_of_mem c hd)
    omega
  refine linked_zipper.mpr ⟨hbef.congr fun x hx => ?_, ?_, haft.redirect ?_ ?_⟩
  · have := hpre x hx
    exact header_joinStores_apart (by omega) fun h => by have := hnext h; omega
  · rw [header_joinStores_block (by omega) hnlt hnext, ha]
  · intro d ds he
    subst he
    have := hcpost d (by simp)
    exact header_joinStores_next (by omega) (by simp only [headAddr]; omega)
      (by simp only [headAddr]; omega)
  · intro x hx
    cases post with
    | nil => cases hx
    | cons d ds =>
      have hd := hcpost d (by simp)
      have hds := hs d (by simp)
      have hx' := (List.pairwise_cons.mp htc.2.2.ordered).1 x hx
      exact header_joinStores_apart (by omega) fun _ => by simp only [headAddr]; omega

/-- What `mergeNext` stores, its operands computed from the block list. -/
def mergeNextStores (m : Mem) (b : Block) : List Block → Mem
  | [] => m
  | c :: post => if c.free then joinStores m b.addr (b.size + c.size) (headAddr post) else m

theorem mergeNext_eq (hl : LinkedAfter m 0 (pre.reverse ++ b :: post))
    (ht : Tiles kheapStart (pre.reverse ++ b :: post) (kheapStart + kheapSize))
    (hs : ∀ x ∈ pre.reverse ++ b :: post, 24 ≤ x.size) :
    mergeNext m b.addr = mergeNextStores m b post := by
  obtain ⟨-, hb, haft⟩ := linked_zipper.mp hl
  unfold mergeNext
  cases post with
  | nil => rw [hb, if_neg (by simp [headAddr]), mergeNextStores]
  | cons c cs =>
    have hc := (Around.of_tiles ht hs).after c (by simp)
    have hbound := ((tiles_zipper.mp ht).2.2.bounds c (by simp)).2.1
    simp only [kheapStart, kheapSize] at hbound
    have hcs := hs c (by simp)
    have hbs := hs b (by simp)
    have habove := (Around.of_tiles ht hs).above
    simp only [headAddr_cons] at hb
    simp only [hb, haft.1, mergeNextStores]
    by_cases hf : c.free = true
    · have hsum : u32 (b.size + c.size) = b.size + c.size := u32_of_lt (by omega)
      have hnlt : headAddr cs % 2 ^ 32 = headAddr cs :=
        Nat.mod_eq_of_lt (headAddr_lt fun d hd => by
          have := (Around.of_tiles ht hs).after d (List.mem_cons_of_mem c hd)
          omega)
      rw [if_pos ⟨by omega, hf⟩, if_pos hf]
      simp (disch := omega) only [hsum, header_setNext, header_setSize, header_setSize_of_apart, hb,
        haft.1, hnlt]
      rfl
    · rw [if_neg (fun h => hf h.2), if_neg hf]

theorem linked_mergeNext (hl : LinkedAfter m 0 (pre.reverse ++ b :: post))
    (ht : Tiles kheapStart (pre.reverse ++ b :: post) (kheapStart + kheapSize))
    (hs : ∀ x ∈ pre.reverse ++ b :: post, 24 ≤ x.size) :
    LinkedAfter (mergeNext m b.addr) 0
      (pre.reverse ++ (joinNext b post).1 :: (joinNext b post).2) := by
  rw [mergeNext_eq hl ht hs]
  cases post with
  | nil => exact hl
  | cons c cs =>
    simp only [mergeNextStores, joinNext]
    split
    · exact linked_join hl ht hs
    · exact hl

/-- What `mergePrev` stores, its operands computed from the block list. -/
def mergePrevStores (m : Mem) (b : Block) (post : List Block) : List Block → Mem
  | [] => m
  | a :: _ => if a.free then joinStores m a.addr (a.size + b.size) (headAddr post) else m

theorem mergePrev_eq (hl : LinkedAfter m 0 (pre.reverse ++ b :: post))
    (ht : Tiles kheapStart (pre.reverse ++ b :: post) (kheapStart + kheapSize))
    (hs : ∀ x ∈ pre.reverse ++ b :: post, 24 ≤ x.size) :
    mergePrev m b.addr = mergePrevStores m b post pre := by
  obtain ⟨hbef, hb, -⟩ := linked_zipper.mp hl
  obtain ⟨habove, hbelow, hsize, hpre, -⟩ := Around.of_tiles ht hs
  unfold mergePrev
  cases pre with
  | nil => rw [hb, if_neg (by simp [headAddr]), mergePrevStores]
  | cons a as =>
    have ha := hpre a (by simp)
    have hap := (tiles_snoc.mp (tiles_zipper.mp ht).1).2.2
    simp only [headAddr_cons] at hb
    simp only [hb, hbef.1, mergePrevStores]
    by_cases hf : a.free = true
    · have hsum : u32 (a.size + b.size) = a.size + b.size := u32_of_lt (by omega)
      rw [if_pos ⟨by omega, hf⟩, if_pos hf]
      simp (disch := omega) only [hsum, header_setSize_of_apart, header_setNext_of_apart, hb]
      rfl
    · rw [if_neg (fun h => hf h.2), if_neg hf]

theorem linked_mergePrev (hl : LinkedAfter m 0 (pre.reverse ++ b :: post))
    (ht : Tiles kheapStart (pre.reverse ++ b :: post) (kheapStart + kheapSize))
    (hs : ∀ x ∈ pre.reverse ++ b :: post, 24 ≤ x.size) :
    LinkedAfter (mergePrev m b.addr) 0
      ((joinPrev b pre).2.reverse ++ (joinPrev b pre).1 :: post) := by
  rw [mergePrev_eq hl ht hs]
  cases pre with
  | nil => exact hl
  | cons a as =>
    simp only [mergePrevStores, joinPrev]
    split
    · rw [List.reverse_cons, List.append_assoc] at hl ht hs
      exact linked_join hl ht hs
    · exact hl

/-- The heap halfway through `merge_blocks`: what lies before the block, the
block with the next one absorbed, and what lies after it. -/
theorem release_halfway (hl : LinkedAfter m 0 (pre.reverse ++ b :: post))
    (hlay : KheapLayout (pre.reverse ++ b :: post)) :
    let free := setIsFree m b.addr true
    let next := joinNext { b with free := true } post
    mergeNext free b.addr = mergeNextStores free { b with free := true } post ∧
      next.1.addr = b.addr ∧
      LinkedAfter (mergeNext free b.addr) 0 (pre.reverse ++ next.1 :: next.2) ∧
      Tiles kheapStart (pre.reverse ++ next.1 :: next.2) (kheapStart + kheapSize) ∧
      ∀ x ∈ pre.reverse ++ next.1 :: next.2, 24 ≤ x.size := by
  obtain ⟨htl, hpos, htr⟩ := tiles_zipper.mp hlay.tiles
  have hfree := linked_setIsFree (f := true) hl hlay
  have hsizes : ∀ x ∈ pre.reverse ++ { b with free := true } :: post, 8 ∣ x.size ∧ 24 ≤ x.size := by
    intro x hx
    simp only [List.mem_append, List.mem_cons] at hx
    rcases hx with hx | rfl | hx
    · exact hlay.sizes x (by simp only [List.mem_append]; exact .inl hx)
    · exact hlay.sizes b (by simp)
    · exact hlay.sizes x (by simp [hx])
  have htiles : Tiles kheapStart (pre.reverse ++ { b with free := true } :: post)
      (kheapStart + kheapSize) := tiles_zipper.mpr ⟨htl, hpos, htr⟩
  have hright : ∀ x ∈ { b with free := true } :: post, 8 ∣ x.size ∧ 24 ≤ x.size :=
    fun x hx => hsizes x (by simp only [List.mem_append]; exact .inr hx)
  obtain ⟨na, -, nle, nt, -, ns⟩ :=
    joinNext_spec hright rfl htr (apart_zipper.mp hlay.apart).2.tail
  have hstores := mergeNext_eq hfree htiles fun x hx => (hsizes x hx).2
  have hnext := linked_mergeNext hfree htiles fun x hx => (hsizes x hx).2
  refine ⟨hstores, na, hnext, tiles_zipper.mpr ⟨by rwa [na], ?_, by rwa [na]⟩, fun x hx => ?_⟩
  · simp only at nle
    omega
  · simp only [List.mem_append, List.mem_cons] at hx
    rcases hx with hx | rfl | hx
    · exact (hsizes x (by simp only [List.mem_append]; exact .inl hx)).2
    · exact (ns _ (by simp)).2
    · exact (ns x (by simp [hx])).2

/-- **Giving a block back.** Marking a block free and merging it with its
neighbours releases it in the block list. -/
theorem linked_release (hl : LinkedAfter m 0 (pre.reverse ++ b :: post))
    (hlay : KheapLayout (pre.reverse ++ b :: post)) :
    LinkedAfter (mergeBlocks (setIsFree m b.addr true) b.addr) 0 (release pre b post) := by
  obtain ⟨-, haddr, hlinks, htiles, hsizes⟩ := release_halfway hl hlay
  have hprev := linked_mergePrev hlinks htiles hsizes
  rw [haddr] at hprev
  exact hprev

end Release

/-! ## `kmalloc` and `kfree` on the block list -/

/-- What `kmalloc` looks for: the rounded size and the header, as a 32-bit sum. -/
def actualSize (n : Nat) : Nat := u32 (alignSize n + headerSize)

theorem alignSize_eq (n : Nat) : alignSize n = u32 (n + 7) / 8 * 8 := by
  have h := land_high_mask (x := u32 (n + 7)) (n := 32) (k := 3) (u32_lt _) (by decide)
  exact h

/-- Up to `0xFFFFFFE8` nothing wraps. -/
theorem actualSize_of_le {n : Nat} (hn : n ≤ 0xFFFFFFE8) : actualSize n = (n + 7) / 8 * 8 + 16 := by
  rw [actualSize, alignSize_eq]
  unfold u32 headerSize
  omega

/-- Above `0xFFFFFFE8` the sum wraps to less than a header and 8 bytes. -/
theorem actualSize_of_gt {n : Nat} (hn : 0xFFFFFFE8 < n) (hlt : n < 2 ^ 32) :
    actualSize n ≤ 16 := by
  rw [actualSize, alignSize_eq]
  unfold u32 headerSize
  omega

/-- The blocks `find_free_block` accepts. -/
def fits (size : Nat) (b : Block) : Bool := b.free && decide (size ≤ b.size)

/-- The walk ends and finds the first block that fits. -/
theorem findFreeBlock_eq {m : Mem} {p fuel : Nat} {bs : List Block} (size : Nat)
    (hl : LinkedAfter m p bs) (h0 : ∀ b ∈ bs, b.addr ≠ 0) (hf : bs.length < fuel) :
    findFreeBlock m size fuel (headAddr bs) =
      some (((bs.find? (fits size)).map Block.addr).getD 0) := by
  induction bs generalizing p fuel with
  | nil =>
    cases fuel with
    | zero => simp at hf
    | succ fuel => rfl
  | cons b bs ih =>
    cases fuel with
    | zero => simp at hf
    | succ fuel =>
      have hb := h0 b (by simp)
      simp only [findFreeBlock, headAddr_cons, if_neg hb, hl.1, List.find?_cons, fits]
      by_cases hfit : b.free = true ∧ size ≤ b.size
      · rw [if_pos hfit]
        simp [hfit]
      · rw [if_neg hfit, ih hl.2 (fun c hc => h0 c (by simp [hc])) (by simpa using hf)]
        have : (b.free && decide (size ≤ b.size)) = false := by simpa using hfit
        rw [this]

theorem Represents.addr_pos {h : Heap} {bs : List Block} (hr : Represents h bs) :
    ∀ b ∈ bs, b.addr ≠ 0 := by
  intro b hb
  have := (hr.layout.tiles.bounds b hb).1
  simp only [kheapStart] at this
  omega

theorem Represents.length_lt {h : Heap} {bs : List Block} (hr : Represents h bs) :
    bs.length < walkFuel := by
  have := hr.layout.tiles.length_mul_le fun b hb => (hr.layout.sizes b hb).2
  simp only [kheapStart, kheapSize] at this
  simp only [walkFuel]
  omega

theorem Represents.head {h : Heap} {bs : List Block} (hr : Represents h bs) :
    headAddr bs = h.freeList := by
  rw [hr.freeList]
  cases bs with
  | nil => exact absurd hr.layout.tiles (by simp [Tiles])
  | cons b bs => exact hr.layout.tiles.1

/-- The heap `kmalloc` leaves after taking the block at `block`. -/
def afterTake (h : Heap) (block n : Nat) : Heap :=
  { h with
    mem := setIsFree (splitBlock h.mem block (actualSize n)) block false
    usedSize := u32 (h.usedSize + actualSize n) }

/-- Everything `kmalloc` can do, for every size: it refuses when no free block
is large enough, and otherwise takes the first one that is. -/
theorem kmalloc_cases {h : Heap} {bs : List Block} {n : Nat} (hr : Represents h bs)
    (hn : n ≠ 0) :
    ((∀ b ∈ bs, fits (actualSize n) b = false) ∧ kmalloc h n = some (0, h)) ∨
    ∃ (pre : List Block) (b : Block) (post : List Block),
      bs = pre.reverse ++ b :: post ∧ b.free = true ∧ actualSize n ≤ b.size ∧
      (∀ a ∈ pre, fits (actualSize n) a = false) ∧
      kmalloc h n = some (b.addr + headerSize, afterTake h b.addr n) := by
  have hwalk := findFreeBlock_eq (actualSize n) hr.links hr.addr_pos hr.length_lt
  rw [hr.head] at hwalk
  have hk : kmalloc h n = (findFreeBlock h.mem (actualSize n) walkFuel h.freeList).map fun block =>
      if block = 0 then (0, h) else (u32 (block + headerSize), afterTake h block n) := by
    rw [kmalloc, if_neg hn]
    rfl
  rw [hwalk, Option.map_some] at hk
  cases hfind : bs.find? (fits (actualSize n)) with
  | none =>
    rw [hfind] at hk
    exact .inl ⟨fun b hb => by simpa using List.find?_eq_none.mp hfind b hb, hk⟩
  | some b =>
    obtain ⟨hfit, pre, post, rfl, hpre⟩ := List.find?_eq_some_iff_append.mp hfind
    have hfit' : b.free = true ∧ actualSize n ≤ b.size := by simpa [fits] using hfit
    have hb := hr.addr_pos b (by simp)
    have hbound := hr.layout.tiles.bounds b (by simp)
    simp only [kheapStart, kheapSize] at hbound
    have hadd : u32 (b.addr + headerSize) = b.addr + headerSize :=
      u32_of_lt (by have := (hr.layout.sizes b (by simp)).2; simp only [headerSize]; omega)
    refine .inr ⟨pre.reverse, b, post, by simp, hfit'.1, hfit'.2, fun a ha => ?_, ?_⟩
    · simpa using hpre a (by simpa using ha)
    · rw [hfind] at hk
      simpa [hb, hadd] using hk

/-- A request that does not wrap carves the block it takes. -/
theorem represents_take {h : Heap} {pre post : List Block} {b : Block} {n : Nat}
    (hr : Represents h (pre.reverse ++ b :: post)) (hb : b.free = true)
    (hn : n ≠ 0) (hle : n ≤ 0xFFFFFFE8) (hfit : actualSize n ≤ b.size) :
    Represents (afterTake h b.addr n) (pre.reverse ++ (carve (actualSize n) 24 b ++ post)) := by
  have hact := actualSize_of_le hle
  refine ⟨?_, ?_, hr.layout.carve hb hfit (by omega) (by omega) (Nat.le_refl _) (by decide)⟩
  · simp only [afterTake, hr.freeList]
  · simp only [afterTake]
    exact linked_carve hr.links hr.layout hfit (by omega)

/-- The heap `kfree` leaves after giving back the block `b`. -/
def afterRelease (h : Heap) (b : Block) : Heap :=
  { h with
    mem := mergeBlocks (setIsFree h.mem b.addr true) b.addr
    usedSize := sub32 h.usedSize b.size }

/-- `kfree` of the payload of a block in use releases the block. -/
theorem kfree_eq {h : Heap} {pre post : List Block} {b : Block}
    (hr : Represents h (pre.reverse ++ b :: post)) (hb : b.free = false) :
    kfree h (b.addr + headerSize) = afterRelease h b := by
  have around := Around.of_layout hr.layout
  have hbelow := around.below
  have hsize := around.size
  obtain ⟨-, hh, -⟩ := linked_zipper.mp hr.links
  have hsub : sub32 (b.addr + 16) 16 = b.addr := by
    rw [sub32_of_le (by omega) (by omega), Nat.add_sub_cancel]
  unfold kfree afterRelease
  rw [if_neg (by simp)]
  simp only [headerSize, hsub, hh, hb, Bool.false_eq_true, if_false, header_setIsFree]

theorem represents_release {h : Heap} {pre post : List Block} {b : Block}
    (hr : Represents h (pre.reverse ++ b :: post)) :
    Represents (afterRelease h b) (release pre b post) := by
  refine ⟨?_, ?_, hr.layout.release⟩
  · simp only [afterRelease, hr.freeList]
  · simp only [afterRelease]
    exact linked_release hr.links hr.layout

/-- The heap `init_kheap` sets up is one free block. -/
theorem represents_init (m : Mem) :
    Represents (initKheap m) [⟨kheapStart, kheapSize, true⟩] := by
  have htiles : Tiles kheapStart [⟨kheapStart, kheapSize, true⟩] (kheapStart + kheapSize) :=
    ⟨rfl, by decide, rfl⟩
  have hsizes : ∀ b ∈ [(⟨kheapStart, kheapSize, true⟩ : Block)], 8 ∣ b.size ∧ 24 ≤ b.size := by
    intro b hb
    rw [List.mem_singleton.mp hb]
    exact ⟨by decide, by decide⟩
  refine ⟨rfl, ⟨?_, trivial⟩, ⟨htiles, List.isChain_singleton _, hsizes⟩⟩
  simp only [initKheap, header_setIsFree, header_setPrev, header_setNext, header_setSize, headAddr]
  rfl

end SynapseKernel.Kheap
