import SynapseKernel.Mm.KheapFrame

/-! # What a client keeps in its blocks

A client may write what it likes to a block it holds (`Reach.writes_held`), and no
other block sees it (`Extends.writes`). While nothing has been freed, the free
memory is one block at the end (`Room`), and the next request comes from its start
(`Room.kmalloc`). -/
namespace SynapseKernel.Kheap
open SynapseKernel.Word SynapseKernel.ByteMemory SynapseKernel.Tiling

def Client.setMem (s : Client) (m : Mem) : Client := ⟨{ s.heap with mem := m }, s.live⟩

@[simp] theorem Client.setMem_mem (s : Client) (m : Mem) : (s.setMem m).heap.mem = m := rfl

variable {s s' : Client} {m' : Mem} {h : Heap} {bs : List Block} {p q n k top : Nat}

/-! ## Writing to a block -/

/-- The bytes of `m'` from `p` on, as far as `k`. -/
theorem Reach.writes_upto (hr : Reach s) (hl : (p, n) ∈ s.live) (m' : Mem) (hk : k ≤ n) :
    Reach (s.setMem fun a => if p ≤ a ∧ a < p + k then m' a else s.heap.mem a) := by
  induction k with
  | zero =>
    have hsame : (fun a => if p ≤ a ∧ a < p + 0 then m' a else s.heap.mem a) = s.heap.mem := by
      funext a
      exact if_neg (by omega)
    rw [hsame]
    exact hr
  | succ k ih =>
    have hstep : (fun a => if p ≤ a ∧ a < p + (k + 1) then m' a else s.heap.mem a) =
        Function.update (fun a => if p ≤ a ∧ a < p + k then m' a else s.heap.mem a) (p + k)
          (m' (p + k)) := by
      funext a
      by_cases ha : a = p + k
      · rw [ha, Function.update_self, if_pos (by omega)]
      · rw [Function.update_of_ne ha]
        by_cases hin : p ≤ a ∧ a < p + k
        · rw [if_pos hin, if_pos (by omega)]
        · rw [if_neg hin, if_neg (by omega)]
    rw [hstep]
    exact (ih (by omega)).store hl (by omega) (by omega)

/-- **A client may write to all of a block it holds.** -/
theorem Reach.writes (hr : Reach s) (hl : (p, n) ∈ s.live)
    (hm : ∀ a, a < p ∨ p + n ≤ a → m' a = s.heap.mem a) : Reach (s.setMem m') := by
  have hall : (fun a => if p ≤ a ∧ a < p + n then m' a else s.heap.mem a) = m' := by
    funext a
    by_cases ha : p ≤ a ∧ a < p + n
    · exact if_pos ha
    · rw [if_neg ha, hm a (by omega)]
  have hreach := hr.writes_upto hl m' (Nat.le_refl n)
  rwa [hall] at hreach

/-- To every block it holds. -/
theorem Reach.writes_held (hr : Reach s)
    (hm : ∀ a, (∀ x ∈ s.live, a < x.1 ∨ x.1 + x.2 ≤ a) → m' a = s.heap.mem a) :
    Reach (s.setMem m') := by
  have hsome : ∀ l : List (Nat × Nat), (∀ x ∈ l, x ∈ s.live) →
      Reach (s.setMem fun a => if ∃ x ∈ l, x.1 ≤ a ∧ a < x.1 + x.2 then m' a else s.heap.mem a) := by
    intro l
    induction l with
    | nil =>
      intro _
      simp only [List.not_mem_nil, false_and, exists_false, if_false]
      exact hr
    | cons x l ih =>
      intro hl
      refine (ih fun y hy => hl y (List.mem_cons_of_mem _ hy)).writes (hl x List.mem_cons_self)
        fun a ha => ?_
      have hx : ¬ (x.1 ≤ a ∧ a < x.1 + x.2) := by omega
      simp only [List.exists_mem_cons_iff, hx, false_or, Client.setMem_mem]
  have hall := hsome s.live fun _ hx => hx
  have hsame : (fun a => if ∃ x ∈ s.live, x.1 ≤ a ∧ a < x.1 + x.2 then m' a else s.heap.mem a) =
      m' := by
    funext a
    by_cases ha : ∃ x ∈ s.live, x.1 ≤ a ∧ a < x.1 + x.2
    · exact if_pos ha
    · rw [if_neg ha]
      refine (hm a fun x hx => ?_).symm
      have hout : ¬ (x.1 ≤ a ∧ a < x.1 + x.2) := fun h => ha ⟨x, hx, h⟩
      omega
  rwa [hsame] at hall

theorem ClientInv.writes_held (hi : ClientInv s bs)
    (hm : ∀ a, (∀ x ∈ s.live, a < x.1 ∨ x.1 + x.2 ≤ a) → m' a = s.heap.mem a) :
    ClientInv (s.setMem m') bs := by
  refine ⟨⟨hi.heap.freeList, hi.heap.links.congr fun c hc => ?_, hi.heap.layout⟩, hi.nodup,
    hi.held, hi.used⟩
  refine header_congr fun a ha ha' => hm a fun x hx => ?_
  have hapart := hi.header_apart hc hx
  omega

/-! ## The blocks held -/

theorem Reach.bounds (hr : Reach s) (hl : (p, n) ∈ s.live) :
    kheapStart ≤ p ∧ p + n ≤ kheapStart + kheapSize := by
  obtain ⟨bs, hi⟩ := hr.inv
  exact (hi.payload hl).2

theorem Reach.apart (hr : Reach s) (hp : (p, n) ∈ s.live) (hq : (q, k) ∈ s.live) (hne : p ≠ q) :
    p + n ≤ q ∨ q + k ≤ p := by
  obtain ⟨bs, hi⟩ := hr.inv
  obtain ⟨c, hc, -, hcp, hcn⟩ := hi.held p n hp
  obtain ⟨d, hd, -, hdq, hdk⟩ := hi.held q k hq
  have := hi.heap.layout.tiles.disjoint hc hd (by omega)
  omega

theorem Reach.size_eq (hr : Reach s) (hp : (p, n) ∈ s.live) (hq : (p, k) ∈ s.live) : n = k := by
  obtain ⟨bs, hi⟩ := hr.inv
  exact congrArg Prod.snd (List.inj_on_of_nodup_map hi.nodup hp hq rfl)

/-- A block just handed out is none of the others. -/
theorem Reach.fresh {live : List (Nat × Nat)} (hr : Reach ⟨h, (p, n) :: live⟩)
    (hq : (q, k) ∈ live) : q ≠ p := by
  obtain ⟨bs, hi⟩ := hr.inv
  intro he
  exact (List.nodup_cons.mp hi.nodup).1 (List.mem_map.mpr ⟨(q, k), hq, he⟩)

/-- A request that is granted. -/
theorem Reach.kmalloc (hr : Reach s) (hn : n ≤ 0xFFFFFFE8)
    (hk : Kheap.kmalloc s.heap n = some (p, h)) (hp : p ≠ 0) : Reach ⟨h, (p, n) :: s.live⟩ := by
  have hreach := hr.malloc (.inl hn) hk
  rwa [if_neg hp] at hreach

/-- A client that came out of `s` and holds what `s` held, with the same bytes. -/
structure Extends (s s' : Client) : Prop where
  reach : Reach s'
  live : ∀ x ∈ s.live, x ∈ s'.live
  keeps : ∀ q k a, (q, k) ∈ s.live → q ≤ a → a < q + k → s'.heap.mem a = s.heap.mem a

theorem Extends.refl (hr : Reach s) : Extends s s := ⟨hr, fun _ hx => hx, fun _ _ _ _ _ _ => rfl⟩

theorem Extends.kmalloc (he : Extends s s') (hn : n ≤ 0xFFFFFFE8)
    (hk : Kheap.kmalloc s'.heap n = some (p, h)) (hp : p ≠ 0) :
    Extends s ⟨h, (p, n) :: s'.live⟩ := by
  refine ⟨he.reach.kmalloc hn hk hp, fun x hx => List.mem_cons_of_mem _ (he.live x hx), ?_⟩
  intro q k a hq ha ha'
  exact (he.reach.kmalloc_keeps (he.live _ hq) ha ha' hk).trans (he.keeps q k a hq ha ha')

/-- Writing to a block that `s` did not hold. -/
theorem Extends.writes (he : Extends s s') (hl : (p, n) ∈ s'.live)
    (hp : ∀ q k, (q, k) ∈ s.live → q ≠ p) (hm : ∀ a, a < p ∨ p + n ≤ a → m' a = s'.heap.mem a) :
    Extends s (s'.setMem m') := by
  refine ⟨he.reach.writes hl hm, he.live, fun q k a hq ha ha' => ?_⟩
  have hapart := he.reach.apart hl (he.live _ hq) (hp q k hq).symm
  exact (hm a (by omega)).trans (he.keeps q k a hq ha ha')

theorem Extends.read32 (he : Extends s s') (hq : (q, k) ∈ s.live) {o : Nat} (ho : o + 4 ≤ k) :
    read32 s'.heap.mem (q + o) = read32 s.heap.mem (q + o) :=
  readLE_congr fun a ha ha' => he.keeps q k a hq (by omega) (by omega)

/-! ## A heap that only grows -/

/-- From `top` on the heap is one free block, and before it no block is free. -/
structure Room (s : Client) (top : Nat) : Prop where
  reach : Reach s
  blocks : ∃ pre : List Block,
    ClientInv s (pre.reverse ++ [⟨top, kheapStart + kheapSize - top, true⟩]) ∧ ∀ b ∈ pre, b.free = false

theorem Room.init (m : Mem) : Room ⟨initKheap m, []⟩ kheapStart :=
  ⟨.init m, [], ClientInv.init m, fun _ hb => absurd hb List.not_mem_nil⟩

theorem Room.writes_held (hr : Room s top)
    (hm : ∀ a, (∀ x ∈ s.live, a < x.1 ∨ x.1 + x.2 ≤ a) → m' a = s.heap.mem a) :
    Room (s.setMem m') top := by
  obtain ⟨pre, hi, hpre⟩ := hr.blocks
  exact ⟨hr.reach.writes_held hm, pre, hi.writes_held hm, hpre⟩

/-- Only the last block is free. -/
theorem eq_last_of_free {pre : List Block} {b last : Block} (hpre : ∀ b ∈ pre, b.free = false)
    (hmem : b ∈ pre.reverse ++ [last]) (hb : b.free = true) : b = last := by
  rcases List.mem_append.mp hmem with hm | hm
  · rw [hpre b (List.mem_reverse.mp hm)] at hb
    cases hb
  · exact List.mem_singleton.mp hm

/-- **The next request is granted** while there is room for it. -/
theorem Room.kmalloc (hr : Room s top) (hn : n ≠ 0) (hle : n ≤ 0xFFFFFFE8)
    (hfit : top + actualSize n + 24 ≤ kheapStart + kheapSize) :
    ∃ h, Kheap.kmalloc s.heap n = some (top + headerSize, h) ∧
      Room ⟨h, (top + headerSize, n) :: s.live⟩ (top + actualSize n) := by
  obtain ⟨pre, hi, hpre⟩ := hr.blocks
  have hlast : (⟨top, kheapStart + kheapSize - top, true⟩ : Block) ∈
      pre.reverse ++ [⟨top, kheapStart + kheapSize - top, true⟩] := by simp
  rcases kmalloc_cases hi.heap hn with ⟨hnone, -⟩ | ⟨pre', b, post, he, hb, -, -, hk⟩
  · have hno := hnone _ hlast
    simp only [fits, Bool.true_and, decide_eq_false_iff_not] at hno
    omega
  · have hb' : b = ⟨top, kheapStart + kheapSize - top, true⟩ :=
      eq_last_of_free hpre (he ▸ List.mem_append_right _ List.mem_cons_self) hb
    have haddr : b.addr = top := by rw [hb']
    rw [haddr] at hk
    refine ⟨_, hk, hr.reach.kmalloc hle hk (by simp), ⟨top, actualSize n, false⟩ :: pre, ?_, ?_⟩
    · have htake := hi.take rfl hn hle (by simp only; omega)
      have hcarve : carve (actualSize n) 24 ⟨top, kheapStart + kheapSize - top, true⟩ =
          [⟨top, actualSize n, false⟩,
            ⟨top + actualSize n, kheapStart + kheapSize - (top + actualSize n), true⟩] := by
        rw [carve, if_neg (by simp only; omega)]
        simp only [Nat.sub_sub]
      rw [hcarve] at htake
      simpa using htake
    · exact List.forall_mem_cons.mpr ⟨rfl, hpre⟩

/-- It is refused where there is not. -/
theorem Room.refused (hr : Room s top) (hn : n ≠ 0)
    (hfull : kheapStart + kheapSize - top < actualSize n) :
    Kheap.kmalloc s.heap n = some (0, s.heap) := by
  obtain ⟨pre, hi, hpre⟩ := hr.blocks
  rcases kmalloc_cases hi.heap hn with ⟨-, hk⟩ | ⟨pre', b, post, he, hb, hfit, -, -⟩
  · exact hk
  · have hlast : b = ⟨top, kheapStart + kheapSize - top, true⟩ :=
      eq_last_of_free hpre (he ▸ List.mem_append_right _ List.mem_cons_self) hb
    rw [hlast] at hfit
    simp only at hfit
    omega

end SynapseKernel.Kheap
