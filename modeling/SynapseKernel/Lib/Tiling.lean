import Mathlib.Algebra.GroupWithZero.Nat
import Mathlib.Data.List.Chain

/-! # Coalesced tilings of an interval

A boundary-tag heap cuts an address range into blocks that follow one another
without a gap, each in use or free. When no two neighbours are both free, the
blocks in use determine the whole tiling (`Layout.canonical`): nothing of the
order in which blocks were taken and given back survives in it.

The list around a block is written as a zipper `pre.reverse ++ b :: post`, the
nearest neighbour on each side first, since splitting and joining only look at
the nearest neighbours. -/
namespace SynapseKernel.Tiling

structure Block where
  addr : Nat
  size : Nat
  free : Bool
deriving DecidableEq, Repr

/-- The blocks follow one another from `lo` to `hi`. -/
def Tiles : Nat → List Block → Nat → Prop
  | lo, [], hi => lo = hi
  | lo, b :: bs, hi => b.addr = lo ∧ 0 < b.size ∧ Tiles (lo + b.size) bs hi

/-- Two neighbours that are not both free. -/
def Apart (a b : Block) : Prop := ¬ (a.free = true ∧ b.free = true)

theorem Apart.symm {a b : Block} (h : Apart a b) : Apart b a := fun ⟨hb, ha⟩ => h ⟨ha, hb⟩

/-- A coalesced tiling whose sizes are multiples of `grain` and at least `least`. -/
structure Layout (lo hi grain least : Nat) (bs : List Block) : Prop where
  tiles : Tiles lo bs hi
  apart : bs.IsChain Apart
  sizes : ∀ b ∈ bs, grain ∣ b.size ∧ least ≤ b.size

/-! ## Where the blocks of a tiling lie -/

theorem tiles_append {lo hi : Nat} {l r : List Block} :
    Tiles lo (l ++ r) hi ↔ ∃ mid, Tiles lo l mid ∧ Tiles mid r hi := by
  induction l generalizing lo with
  | nil => simp [Tiles]
  | cons b l ih =>
    simp only [List.cons_append, Tiles, ih]
    constructor
    · rintro ⟨ha, hs, mid, hl, hr⟩; exact ⟨mid, ⟨ha, hs, hl⟩, hr⟩
    · rintro ⟨mid, ⟨ha, hs, hl⟩, hr⟩; exact ⟨ha, hs, mid, hl, hr⟩

theorem Tiles.le {lo hi : Nat} {bs : List Block} (h : Tiles lo bs hi) : lo ≤ hi := by
  induction bs generalizing lo with
  | nil => exact Nat.le_of_eq h
  | cons b bs ih =>
    have := ih h.2.2
    omega

theorem Tiles.bounds {lo hi : Nat} {bs : List Block} (h : Tiles lo bs hi) :
    ∀ b ∈ bs, lo ≤ b.addr ∧ b.addr + b.size ≤ hi ∧ 0 < b.size := by
  induction bs generalizing lo with
  | nil => intro b hb; cases hb
  | cons c bs ih =>
    obtain ⟨ha, hs, hr⟩ := h
    intro b hb
    rcases List.mem_cons.mp hb with rfl | hb
    · exact ⟨by omega, by have := hr.le; omega, hs⟩
    · have := ih hr b hb
      omega

/-- Blocks of a tiling are in address order and do not overlap. -/
theorem Tiles.ordered {lo hi : Nat} {bs : List Block} (h : Tiles lo bs hi) :
    bs.Pairwise fun a b => a.addr + a.size ≤ b.addr := by
  induction bs generalizing lo with
  | nil => exact .nil
  | cons c bs ih =>
    obtain ⟨hc, _, hr⟩ := h
    refine List.pairwise_cons.mpr ⟨fun b hb => ?_, ih hr⟩
    have := (hr.bounds b hb).1
    omega

/-- Two blocks of a tiling that start at one address are the same block. -/
theorem Tiles.eq_of_addr {lo hi : Nat} {bs : List Block} (h : Tiles lo bs hi)
    {a b : Block} (ha : a ∈ bs) (hb : b ∈ bs) (he : a.addr = b.addr) : a = b := by
  induction bs generalizing lo with
  | nil => cases ha
  | cons c bs ih =>
    obtain ⟨hc, hs, hr⟩ := h
    rcases List.mem_cons.mp ha with rfl | ha' <;> rcases List.mem_cons.mp hb with rfl | hb'
    · rfl
    · have := (hr.bounds b hb').1; omega
    · have := (hr.bounds a ha').1; omega
    · exact ih hr ha' hb'

/-- Blocks that start at different addresses do not overlap. -/
theorem Tiles.disjoint {lo hi : Nat} {bs : List Block} (h : Tiles lo bs hi)
    {a b : Block} (ha : a ∈ bs) (hb : b ∈ bs) (hne : a.addr ≠ b.addr) :
    a.addr + a.size ≤ b.addr ∨ b.addr + b.size ≤ a.addr := by
  have hord : bs.Pairwise fun a b => a.addr + a.size ≤ b.addr ∨ b.addr + b.size ≤ a.addr :=
    h.ordered.imp fun hab => .inl hab
  have hsymm : Std.Symm fun a b : Block => a.addr + a.size ≤ b.addr ∨ b.addr + b.size ≤ a.addr :=
    ⟨fun _ _ hab => hab.symm⟩
  exact hord.forall ha hb fun he => hne (congrArg Block.addr he)

/-- Every block starts a multiple of `grain` above the interval's start. -/
theorem Tiles.dvd_addr {lo hi grain : Nat} {bs : List Block} (h : Tiles lo bs hi)
    (hlo : grain ∣ lo) (hs : ∀ b ∈ bs, grain ∣ b.size) : ∀ b ∈ bs, grain ∣ b.addr := by
  induction bs generalizing lo with
  | nil => intro b hb; cases hb
  | cons c bs ih =>
    obtain ⟨hc, -, hr⟩ := h
    intro b hb
    rcases List.mem_cons.mp hb with rfl | hb
    · rwa [hc]
    · exact ih hr (Nat.dvd_add hlo (hs c (by simp))) (fun d hd => hs d (by simp [hd])) b hb

theorem Tiles.length_mul_le {lo hi least : Nat} {bs : List Block} (h : Tiles lo bs hi)
    (hs : ∀ b ∈ bs, least ≤ b.size) : least * bs.length ≤ hi - lo := by
  induction bs generalizing lo with
  | nil => simp
  | cons b bs ih =>
    have hb := hs b List.mem_cons_self
    have ih := ih h.2.2 fun c hc => hs c (List.mem_cons_of_mem _ hc)
    have := h.2.2.le
    simp only [List.length_cons, Nat.mul_succ]
    omega

/-- The sizes of a tiling add up to the length of the interval. -/
theorem Tiles.sum_sizes {lo hi : Nat} {bs : List Block} (h : Tiles lo bs hi) :
    (bs.map Block.size).sum = hi - lo := by
  induction bs generalizing lo with
  | nil => simp only [Tiles] at h; simp [h]
  | cons b bs ih =>
    have hle := h.2.2.le
    simp only [List.map_cons, List.sum_cons, ih h.2.2]
    omega

/-- A tiling around the block `b`. -/
theorem tiles_zipper {lo hi : Nat} {pre post : List Block} {b : Block} :
    Tiles lo (pre.reverse ++ b :: post) hi ↔
      Tiles lo pre.reverse b.addr ∧ 0 < b.size ∧ Tiles (b.addr + b.size) post hi := by
  rw [tiles_append]
  constructor
  · rintro ⟨mid, hl, ha, hs, hr⟩
    rw [ha]
    exact ⟨hl, hs, hr⟩
  · rintro ⟨hl, hs, hr⟩
    exact ⟨b.addr, hl, rfl, hs, hr⟩

theorem tiles_snoc {lo hi : Nat} {pre : List Block} {a : Block} :
    Tiles lo (a :: pre).reverse hi ↔
      Tiles lo pre.reverse a.addr ∧ 0 < a.size ∧ a.addr + a.size = hi := by
  rw [List.reverse_cons, tiles_zipper]
  rfl

/-! ## Neighbours that are not both free -/

theorem apart_zipper {pre post : List Block} {b : Block} :
    (pre.reverse ++ b :: post).IsChain Apart ↔
      (b :: pre).IsChain Apart ∧ (b :: post).IsChain Apart := by
  rw [List.isChain_split, ← List.reverse_cons, List.isChain_reverse]
  have hflip : (flip Apart) = Apart := by
    funext a b
    exact propext ⟨Apart.symm, Apart.symm⟩
  rw [show (fun a b => Apart b a) = Apart from hflip]

/-- A block in use may stand next to anything. -/
theorem apart_cons_used {bs : List Block} {b : Block} (hb : b.free = false)
    (h : bs.IsChain Apart) : (b :: bs).IsChain Apart :=
  List.isChain_cons.mpr ⟨fun _ _ hf => by simp [hb] at hf, h⟩

/-- Only the flag of the first block decides whether it may stand there. -/
theorem apart_cons_congr {bs : List Block} {a b : Block} (hf : b.free = a.free)
    (h : (a :: bs).IsChain Apart) : (b :: bs).IsChain Apart := by
  rw [List.isChain_cons] at h ⊢
  refine ⟨fun c hc hn => h.1 c hc ?_, h.2⟩
  rwa [hf] at hn

/-! ## Taking a block -/

/-- Take `n` bytes from the front of `b`; a rest below `slack` stays with them. -/
def carve (n slack : Nat) (b : Block) : List Block :=
  if b.size - n < slack then [{ b with free := false }]
  else [⟨b.addr, n, false⟩, ⟨b.addr + n, b.size - n, true⟩]

theorem Layout.carve {lo hi grain least n slack : Nat} {pre post : List Block} {b : Block}
    (h : Layout lo hi grain least (pre.reverse ++ b :: post)) (hb : b.free = true)
    (hn : n ≤ b.size) (hg : grain ∣ n) (hl : least ≤ n) (hs : least ≤ slack) (hp : 0 < least) :
    Layout lo hi grain least (pre.reverse ++ (carve n slack b ++ post)) := by
  obtain ⟨htiles, hapart, hsizes⟩ := h
  obtain ⟨htl, hpos, htr⟩ := tiles_zipper.mp htiles
  obtain ⟨hal, har⟩ := apart_zipper.mp hapart
  have hbs := hsizes b (by simp)
  unfold Tiling.carve
  split
  · refine ⟨tiles_zipper.mpr ⟨htl, hpos, htr⟩,
      apart_zipper.mpr ⟨apart_cons_used rfl hal.tail, apart_cons_used rfl har.tail⟩, ?_⟩
    intro c hc
    simp only [List.cons_append, List.nil_append, List.mem_append, List.mem_cons] at hc
    rcases hc with hc | rfl | hc
    · exact hsizes c (by simp [hc])
    · exact hbs
    · exact hsizes c (by simp [hc])
  · rename_i hrest
    refine ⟨tiles_zipper.mpr ⟨htl, by simp only; omega, rfl, by simp only; omega, ?_⟩,
      apart_zipper.mpr ⟨apart_cons_used rfl hal.tail,
        apart_cons_used rfl (apart_cons_congr hb.symm har)⟩, ?_⟩
    · rwa [show b.addr + n + (b.size - n) = b.addr + b.size by omega]
    · intro c hc
      simp only [List.cons_append, List.nil_append, List.mem_append, List.mem_cons] at hc
      rcases hc with hc | rfl | rfl | hc
      · exact hsizes c (by simp [hc])
      · exact ⟨hg, hl⟩
      · exact ⟨Nat.dvd_sub hbs.1 hg, by simp only; omega⟩
      · exact hsizes c (by simp [hc])

/-! ## Giving a block back -/

/-- Join the free block `b` with its right neighbour when that is free. -/
def joinNext (b : Block) : List Block → Block × List Block
  | [] => (b, [])
  | c :: post => if c.free then ({ b with size := b.size + c.size }, post) else (b, c :: post)

/-- Join the free block `b` with its left neighbour when that is free. -/
def joinPrev (b : Block) : List Block → Block × List Block
  | [] => (b, [])
  | a :: pre => if a.free then ({ a with size := a.size + b.size }, pre) else (b, a :: pre)

/-- Give `b` back and join it with its free neighbours. -/
def release (pre : List Block) (b : Block) (post : List Block) : List Block :=
  let next := joinNext { b with free := true } post
  let prev := joinPrev next.1 pre
  prev.2.reverse ++ prev.1 :: next.2

theorem joinNext_spec {hi grain least : Nat} {b : Block} {post : List Block}
    (hs : ∀ c ∈ b :: post, grain ∣ c.size ∧ least ≤ c.size) (hb : b.free = true)
    (ht : Tiles (b.addr + b.size) post hi) (ha : post.IsChain Apart) :
    (joinNext b post).1.addr = b.addr ∧ (joinNext b post).1.free = true ∧
      b.size ≤ (joinNext b post).1.size ∧
      Tiles (b.addr + (joinNext b post).1.size) (joinNext b post).2 hi ∧
      ((joinNext b post).1 :: (joinNext b post).2).IsChain Apart ∧
      ∀ c ∈ (joinNext b post).1 :: (joinNext b post).2, grain ∣ c.size ∧ least ≤ c.size := by
  cases post with
  | nil => exact ⟨rfl, hb, Nat.le_refl _, ht, List.isChain_singleton _, hs⟩
  | cons c post =>
    have hbs := hs b (by simp)
    have hcs := hs c (by simp)
    simp only [joinNext]
    split
    · rename_i hc
      obtain ⟨hca, hcp, htr⟩ := ht
      refine ⟨rfl, hb, by simp only; omega, ?_, apart_cons_congr (hb.trans hc.symm) ha, ?_⟩
      · rwa [← Nat.add_assoc]
      · intro d hd
        rcases List.mem_cons.mp hd with rfl | hd
        · exact ⟨Nat.dvd_add hbs.1 hcs.1, by simp only; omega⟩
        · exact hs d (by simp [hd])
    · rename_i hc
      refine ⟨rfl, hb, Nat.le_refl _, ht, List.isChain_cons_cons.mpr ⟨fun hf => hc hf.2, ha⟩, hs⟩

theorem joinPrev_spec {lo grain least : Nat} {b : Block} {pre : List Block}
    (hs : ∀ c ∈ b :: pre, grain ∣ c.size ∧ least ≤ c.size) (hb : b.free = true)
    (hp : 0 < b.size) (ht : Tiles lo pre.reverse b.addr) (ha : pre.IsChain Apart) :
    (joinPrev b pre).1.addr + (joinPrev b pre).1.size = b.addr + b.size ∧
      (joinPrev b pre).1.free = true ∧ 0 < (joinPrev b pre).1.size ∧
      Tiles lo (joinPrev b pre).2.reverse (joinPrev b pre).1.addr ∧
      ((joinPrev b pre).1 :: (joinPrev b pre).2).IsChain Apart ∧
      ∀ c ∈ (joinPrev b pre).1 :: (joinPrev b pre).2, grain ∣ c.size ∧ least ≤ c.size := by
  cases pre with
  | nil => exact ⟨rfl, hb, hp, ht, List.isChain_singleton _, hs⟩
  | cons a pre =>
    have hbs := hs b (by simp)
    have has := hs a (by simp)
    simp only [joinPrev]
    split
    · rename_i hf
      obtain ⟨htl, hap, hae⟩ := tiles_snoc.mp ht
      refine ⟨by simp only; omega, hf, by simp only; omega, htl,
        show ({ a with size := a.size + b.size } :: pre).IsChain Apart from
          apart_cons_congr (a := a) rfl ha, ?_⟩
      intro d hd
      rcases List.mem_cons.mp hd with rfl | hd
      · exact ⟨Nat.dvd_add has.1 hbs.1, by simp only; omega⟩
      · exact hs d (by simp [hd])
    · rename_i hf
      exact ⟨rfl, hb, hp, ht, List.isChain_cons_cons.mpr ⟨fun h => hf h.2, ha⟩, hs⟩

theorem Layout.release {lo hi grain least : Nat} {pre post : List Block} {b : Block}
    (h : Layout lo hi grain least (pre.reverse ++ b :: post)) :
    Layout lo hi grain least (release pre b post) := by
  obtain ⟨htiles, hapart, hsizes⟩ := h
  obtain ⟨htl, hpos, htr⟩ := tiles_zipper.mp htiles
  obtain ⟨hal, har⟩ := apart_zipper.mp hapart
  have hbs := hsizes b (by simp)
  have hsn : ∀ c ∈ { b with free := true } :: post, grain ∣ c.size ∧ least ≤ c.size := by
    intro c hc
    rcases List.mem_cons.mp hc with rfl | hc
    · exact hbs
    · exact hsizes c (by simp [hc])
  obtain ⟨na, nf, nle, nt, nc, ns⟩ := joinNext_spec hsn rfl htr har.tail
  simp only [Tiling.release]
  generalize joinNext { b with free := true } post = next at na nf nle nt nc ns ⊢
  simp only at na nle nt
  have hsp : ∀ c ∈ next.1 :: pre, grain ∣ c.size ∧ least ≤ c.size := by
    intro c hc
    rcases List.mem_cons.mp hc with rfl | hc
    · exact ns _ (by simp)
    · exact hsizes c (by simp [hc])
  obtain ⟨pa, pf, pp, pt, pc, ps⟩ :=
    joinPrev_spec hsp nf (by omega) (by rwa [na]) hal.tail
  generalize joinPrev next.1 pre = prev at pa pf pp pt pc ps ⊢
  refine ⟨tiles_zipper.mpr ⟨pt, pp, ?_⟩,
    apart_zipper.mpr ⟨pc, apart_cons_congr (pf.trans nf.symm) nc⟩, ?_⟩
  · rwa [pa, na]
  · intro c hc
    simp only [List.mem_append, List.mem_reverse, List.mem_cons] at hc
    rcases hc with hc | rfl | hc
    · exact ps c (by simp [hc])
    · exact ps _ (by simp)
    · exact ns c (by simp [hc])

/-! ## The blocks in use -/

theorem mem_carve_used {n slack : Nat} {b c : Block} (hc : c.free = false) :
    c ∈ carve n slack b ↔
      c = ⟨b.addr, if b.size - n < slack then b.size else n, false⟩ := by
  unfold carve
  split
  · simp
  · simp only [List.mem_cons, List.not_mem_nil, or_false]
    refine ⟨fun h => h.resolve_right fun h => ?_, .inl⟩
    rw [h] at hc
    cases hc

/-- Giving a block back leaves the other blocks in use as they were. -/
theorem mem_release_used {pre post : List Block} {b c : Block} (hc : c.free = false) :
    c ∈ release pre b post ↔ c ∈ pre ∨ c ∈ post := by
  have hnext : (joinNext { b with free := true } post).1.free = true ∧
      (c ∈ (joinNext { b with free := true } post).2 ↔ c ∈ post) := by
    cases post with
    | nil => exact ⟨rfl, Iff.rfl⟩
    | cons d post =>
      simp only [joinNext]
      split
      · rename_i hd
        refine ⟨rfl, fun h => List.mem_cons_of_mem _ h, fun h => (List.mem_cons.mp h).resolve_left ?_⟩
        rintro rfl
        rw [hd] at hc
        cases hc
      · exact ⟨rfl, Iff.rfl⟩
  simp only [release]
  generalize joinNext { b with free := true } post = next at hnext ⊢
  have hprev : (joinPrev next.1 pre).1.free = true ∧ (c ∈ (joinPrev next.1 pre).2 ↔ c ∈ pre) := by
    cases pre with
    | nil => exact ⟨hnext.1, Iff.rfl⟩
    | cons a pre =>
      simp only [joinPrev]
      split
      · rename_i ha
        refine ⟨ha, fun h => List.mem_cons_of_mem _ h, fun h => (List.mem_cons.mp h).resolve_left ?_⟩
        rintro rfl
        rw [ha] at hc
        cases hc
      · exact ⟨hnext.1, Iff.rfl⟩
  have hne : c ≠ (joinPrev next.1 pre).1 := by
    rintro rfl
    rw [hprev.1] at hc
    cases hc
  simp [hprev.2, hnext.2, hne]

/-! ## The blocks in use determine the tiling -/

/-- Of two tilings that start together, the one with the shorter free block in
front has a block in use where the other has none. -/
theorem free_head_le {lo hi : Nat} {a b : Block} {as bs : List Block}
    (ha : Tiles lo (a :: as) hi) (hb : Tiles lo (b :: bs) hi)
    (hac : (a :: as).IsChain Apart) (hf : a.free = true)
    (hu : ∀ c : Block, c.free = false → c ∈ a :: as → c ∈ b :: bs) :
    b.size ≤ a.size := by
  by_contra hlt
  obtain ⟨haa, has, hat⟩ := ha
  obtain ⟨hba, hbs, hbt⟩ := hb
  have hle := hbt.le
  cases as with
  | nil => simp only [Tiles] at hat; omega
  | cons c as =>
    obtain ⟨hca, -, -⟩ := hat
    have hcf : c.free = false := by
      have := (List.isChain_cons_cons.mp hac).1
      simpa [Apart, hf] using this
    rcases List.mem_cons.mp (hu c hcf (by simp)) with rfl | hc
    · omega
    · have := (hbt.bounds c hc).1
      omega

/-- Two coalesced tilings with the same blocks in use begin with the same block. -/
theorem tiles_head_eq {lo hi : Nat} {a b : Block} {as bs : List Block}
    (ha : Tiles lo (a :: as) hi) (hb : Tiles lo (b :: bs) hi) (hac : (a :: as).IsChain Apart)
    (hbc : (b :: bs).IsChain Apart)
    (hu : ∀ c : Block, c.free = false → (c ∈ a :: as ↔ c ∈ b :: bs)) : a = b := by
  have haddr := ha.1.trans hb.1.symm
  cases hfa : a.free with
  | false =>
    have hm : a ∈ b :: bs := (hu a hfa).mp List.mem_cons_self
    exact hb.eq_of_addr hm List.mem_cons_self haddr
  | true =>
    cases hfb : b.free with
    | false =>
      have hm : b ∈ a :: as := (hu b hfb).mpr List.mem_cons_self
      exact ha.eq_of_addr List.mem_cons_self hm haddr
    | true =>
      have h1 := free_head_le ha hb hac hfa fun c hc => (hu c hc).mp
      have h2 := free_head_le hb ha hbc hfb fun c hc => (hu c hc).mpr
      cases a; cases b
      simp only at h1 h2 haddr hfa hfb
      simp only [Block.mk.injEq]
      exact ⟨haddr, by omega, hfa.trans hfb.symm⟩

/-- **The blocks in use determine a coalesced tiling.** -/
theorem tiles_canonical {lo hi : Nat} {as bs : List Block}
    (ha : Tiles lo as hi) (hb : Tiles lo bs hi) (hac : as.IsChain Apart) (hbc : bs.IsChain Apart)
    (hu : ∀ c : Block, c.free = false → (c ∈ as ↔ c ∈ bs)) : as = bs := by
  induction as generalizing lo bs with
  | nil =>
    cases bs with
    | nil => rfl
    | cons b bs =>
      obtain ⟨-, hs, hr⟩ := hb
      have := hr.le
      simp only [Tiles] at ha
      omega
  | cons a as ih =>
    cases bs with
    | nil =>
      obtain ⟨-, hs, hr⟩ := ha
      have := hr.le
      simp only [Tiles] at hb
      omega
    | cons b bs =>
      have hhead : a = b := tiles_head_eq ha hb hac hbc hu
      subst hhead
      congr 1
      refine ih ha.2.2 hb.2.2 hac.tail hbc.tail fun c hc => ?_
      have hna : ∀ cs, Tiles (lo + a.size) cs hi → c ∈ cs → c ≠ a := by
        rintro cs ht hm rfl
        have := (ht.bounds _ hm).1
        have := ha.1
        have := ha.2.1
        omega
      constructor
      · intro hm
        exact (List.mem_cons.mp ((hu c hc).mp (by simp [hm]))).resolve_left (hna as ha.2.2 hm)
      · intro hm
        exact (List.mem_cons.mp ((hu c hc).mpr (by simp [hm]))).resolve_left (hna bs hb.2.2 hm)

theorem Layout.canonical {lo hi grain least : Nat} {as bs : List Block}
    (ha : Layout lo hi grain least as) (hb : Layout lo hi grain least bs)
    (hu : ∀ c : Block, c.free = false → (c ∈ as ↔ c ∈ bs)) : as = bs :=
  tiles_canonical ha.tiles hb.tiles ha.apart hb.apart hu

/-! ## Stretches of free addresses -/

/-- The address lies in a free block. -/
def FreeAt (bs : List Block) (x : Nat) : Prop :=
  ∃ b ∈ bs, b.free = true ∧ b.addr ≤ x ∧ x < b.addr + b.size

/-- A stretch of free addresses that is part of no longer one. -/
structure Stretch (bs : List Block) (lo hi : Nat) : Prop where
  nonempty : lo < hi
  free : ∀ x, lo ≤ x → x < hi → FreeAt bs x
  left : ∀ x, x + 1 = lo → ¬ FreeAt bs x
  right : ¬ FreeAt bs hi

/-- Blocks that touch are not both free. -/
theorem Layout.apart_of_touch {lo hi grain least : Nat} {bs : List Block}
    (h : Layout lo hi grain least bs) {b c : Block} (hb : b ∈ bs) (hc : c ∈ bs)
    (ht : b.addr + b.size = c.addr) : Apart b c := by
  obtain ⟨l, r, rfl⟩ := List.append_of_mem hb
  rw [← List.reverse_reverse l] at h hc
  obtain ⟨-, -, htr⟩ := tiles_zipper.mp h.tiles
  obtain ⟨-, har⟩ := apart_zipper.mp h.apart
  cases r with
  | nil =>
    have hbound := h.tiles.bounds c hc
    simp only [Tiles] at htr
    omega
  | cons d r =>
    have hd : c = d := h.tiles.eq_of_addr hc (by simp) (ht.symm.trans htr.1.symm)
    rw [hd]
    exact (List.isChain_cons_cons.mp har).1

/-- **Free addresses without a gap lie in one block.** -/
theorem Layout.stretch_within {lo hi grain least x y : Nat} {bs : List Block}
    (h : Layout lo hi grain least bs) (hxy : x < y)
    (hf : ∀ z, x ≤ z → z < y → FreeAt bs z) :
    ∃ b ∈ bs, b.free = true ∧ b.addr ≤ x ∧ y ≤ b.addr + b.size := by
  obtain ⟨b, hb, hbf, hbx, hxb⟩ := hf x (Nat.le_refl x) hxy
  refine ⟨b, hb, hbf, hbx, ?_⟩
  by_contra hlt
  -- the block that holds the first address past `b` touches `b`
  obtain ⟨c, hc, hcf, hcx, hxc⟩ := hf (b.addr + b.size) (by omega) (by omega)
  have hne : b.addr ≠ c.addr := by
    intro he
    have hbc := h.tiles.eq_of_addr hb hc he
    rw [← hbc] at hxc
    omega
  have hdisj := h.tiles.disjoint hb hc hne
  exact h.apart_of_touch hb hc (by omega) ⟨hbf, hcf⟩

/-- **The stretches of a coalesced tiling are its free blocks.** -/
theorem Layout.stretch_iff {lo hi grain least x y : Nat} {bs : List Block}
    (h : Layout lo hi grain least bs) :
    Stretch bs x y ↔ ∃ b ∈ bs, b.free = true ∧ b.addr = x ∧ b.addr + b.size = y := by
  constructor
  · intro hs
    obtain ⟨b, hb, hbf, hbx, hby⟩ := h.stretch_within hs.nonempty hs.free
    refine ⟨b, hb, hbf, ?_, ?_⟩
    · by_contra hne
      exact hs.left (x - 1) (by omega) ⟨b, hb, hbf, by omega, by have := hs.nonempty; omega⟩
    · by_contra hne
      exact hs.right ⟨b, hb, hbf, by have := hs.nonempty; omega, by omega⟩
  · rintro ⟨b, hb, hbf, rfl, rfl⟩
    have hpos := (h.tiles.bounds b hb).2.2
    refine ⟨by omega, fun x hlo hhi => ⟨b, hb, hbf, hlo, hhi⟩, fun x hx hfree => ?_, fun hfree => ?_⟩
    · obtain ⟨c, hc, hcf, hcx, hxc⟩ := hfree
      have hdisj := h.tiles.disjoint hb hc (by omega)
      exact h.apart_of_touch hc hb (by omega) ⟨hcf, hbf⟩
    · obtain ⟨c, hc, hcf, hcx, hxc⟩ := hfree
      have hne : b.addr ≠ c.addr := by
        intro he
        rw [← h.tiles.eq_of_addr hb hc he] at hxc
        omega
      have hdisj := h.tiles.disjoint hb hc hne
      exact h.apart_of_touch hb hc (by omega) ⟨hbf, hcf⟩

theorem freeAt_append {l r : List Block} {x : Nat} :
    FreeAt (l ++ r) x ↔ FreeAt l x ∨ FreeAt r x := by
  simp only [FreeAt, List.mem_append, or_and_right, exists_or]

/-- What is free of a block that is carved is behind the part taken. -/
theorem freeAt_carved {n slack x : Nat} {b : Block} (hn : n ≤ b.size) :
    FreeAt (Tiling.carve n slack b) x ↔ (b.addr ≤ x ∧ x < b.addr + b.size) ∧
      ¬ (b.addr ≤ x ∧ x < b.addr + if b.size - n < slack then b.size else n) := by
  unfold Tiling.carve
  split
  · refine iff_of_false ?_ fun h => h.2 h.1
    rintro ⟨c, hc, hf, -⟩
    rw [List.mem_singleton.mp hc] at hf
    cases hf
  · simp only [FreeAt, List.mem_cons, List.not_mem_nil, or_false, exists_eq_or_imp,
      exists_eq_left, Bool.false_eq_true, false_and, false_or, true_and]
    omega

/-- The blocks around one have none of its addresses. -/
theorem Layout.freeAt_outside {lo hi grain least x : Nat} {pre post : List Block} {b : Block}
    (h : Layout lo hi grain least (pre.reverse ++ b :: post))
    (hx : FreeAt pre.reverse x ∨ FreeAt post x) : ¬ (b.addr ≤ x ∧ x < b.addr + b.size) := by
  have hord := h.tiles.ordered
  rw [List.pairwise_append, List.pairwise_cons] at hord
  obtain ⟨-, ⟨hpost, -⟩, hpre⟩ := hord
  intro hbx
  rcases hx with ⟨c, hc, -, hcx, hxc⟩ | ⟨c, hc, -, hcx, hxc⟩
  · have hbelow := hpre c hc b List.mem_cons_self
    omega
  · have habove := hpost c hc
    omega

/-- Carving takes the addresses of the block taken and no others. -/
theorem Layout.freeAt_carve {lo hi grain least n slack x : Nat} {pre post : List Block} {b : Block}
    (h : Layout lo hi grain least (pre.reverse ++ b :: post)) (hb : b.free = true)
    (hn : n ≤ b.size) :
    FreeAt (pre.reverse ++ (Tiling.carve n slack b ++ post)) x ↔
      FreeAt (pre.reverse ++ b :: post) x ∧
        ¬ (b.addr ≤ x ∧ x < b.addr + if b.size - n < slack then b.size else n) := by
  have hwhole : FreeAt [b] x ↔ b.addr ≤ x ∧ x < b.addr + b.size := by
    simp only [FreeAt, List.mem_singleton, exists_eq_left, hb, true_and]
  have hinside : (b.addr ≤ x ∧ x < b.addr + if b.size - n < slack then b.size else n) →
      b.addr ≤ x ∧ x < b.addr + b.size := by
    split
    · exact id
    · exact fun ht => ⟨ht.1, by omega⟩
  rw [← List.singleton_append, freeAt_append, freeAt_append, freeAt_append, freeAt_append, hwhole,
    freeAt_carved hn]
  constructor
  · rintro (hx | hx | hx)
    · exact ⟨.inl hx, fun ht => h.freeAt_outside (.inl hx) (hinside ht)⟩
    · exact ⟨.inr (.inl hx.1), hx.2⟩
    · exact ⟨.inr (.inr hx), fun ht => h.freeAt_outside (.inr hx) (hinside ht)⟩
  · rintro ⟨hx | hx | hx, hnot⟩
    · exact .inl hx
    · exact .inr (.inl ⟨hx, hnot⟩)
    · exact .inr (.inr hx)

end SynapseKernel.Tiling
