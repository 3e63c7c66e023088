import SynapseKernel.Mm.KheapServes

/-! # Requests that are made together

Two or three requests of which all are granted or none is kept: what was granted is
freed again when a later one is refused, and the live blocks are those of before.
Every reachable kernel heap can answer them. -/
namespace SynapseKernel.Kheap

/-- Two requests; the first is undone when the second is refused. -/
def BlockHeap.takeTwo (b : BlockHeap) (m n : Nat) : Bool × BlockHeap :=
  let first := b.kmalloc m
  if first.1 = 0 then (false, first.2)
  else
    let second := first.2.kmalloc n
    if second.1 = 0 then (false, second.2.kfree first.1) else (true, second.2)

/-- Three requests; the first two are undone when the third is refused. -/
def BlockHeap.takeThree (b : BlockHeap) (m n k : Nat) : Bool × BlockHeap :=
  let first := b.kmalloc m
  if first.1 = 0 then (false, first.2)
  else
    let second := first.2.kmalloc n
    if second.1 = 0 then (false, second.2.kfree first.1)
    else
      let third := second.2.kmalloc k
      if third.1 = 0 then (false, (third.2.kfree second.1).kfree first.1) else (true, third.2)

variable {b : BlockHeap} {c : Client} {m n k i : Nat}

/-- One that is refused after two that were granted and are freed. -/
theorem BlockHeap.live_undo_two (hm : m ≠ 0) (hn : n ≠ 0)
    (hno : b.grants (b.requests + 2) = false) :
    ((((b.kmalloc m).2.kmalloc n).2.kmalloc k).2.kfree (b.requests + 2) |>.kfree
      (b.requests + 1)).Live i ↔ b.Live i := by
  have hrequests := requests_kmalloc (b := b) hm
  have hinner := @live_undo_one (b.kmalloc m).2 i n k (hrequests.symm ▸ hno) hn
  rw [hrequests] at hinner
  rw [live_kfree]
  refine (and_congr_left fun _ => hinner).trans ?_
  rw [← live_kfree]
  exact live_kmalloc_kfree

/-- Everything two requests can come to. -/
theorem BlockHeap.takeTwo_cases (b : BlockHeap) (m n : Nat)
    (hm : m ≠ 0 := by decide) (hn : n ≠ 0 := by decide) :
    (b.grants b.requests = false ∧ b.takeTwo m n = (false, (b.kmalloc m).2)) ∨
    (b.grants b.requests = true ∧ b.grants (b.requests + 1) = false ∧
      b.takeTwo m n = (false, ((b.kmalloc m).2.kmalloc n).2.kfree (b.requests + 1))) ∨
    (b.grants b.requests = true ∧ b.grants (b.requests + 1) = true ∧
      b.takeTwo m n = (true, ((b.kmalloc m).2.kmalloc n).2)) := by
  rcases b.kmalloc_cases m hm with ⟨hg, h0⟩ | ⟨hg, hnew⟩
  · exact .inl ⟨hg, if_pos h0⟩
  · have hne : (b.kmalloc m).1 ≠ 0 := hnew ▸ Nat.succ_ne_zero _
    have hsecond := (b.kmalloc m).2.kmalloc_cases n hn
    rw [requests_kmalloc hm] at hsecond
    rcases hsecond with ⟨hg', h0⟩ | ⟨hg', hnew'⟩
    · exact .inr (.inl ⟨hg, hg', (if_neg hne).trans (hnew ▸ if_pos h0)⟩)
    · have hne' : ((b.kmalloc m).2.kmalloc n).1 ≠ 0 := hnew' ▸ Nat.succ_ne_zero _
      exact .inr (.inr ⟨hg, hg', (if_neg hne).trans (if_neg hne')⟩)

/-- Everything three requests can come to. -/
theorem BlockHeap.takeThree_cases (b : BlockHeap) (m n k : Nat) (hm : m ≠ 0 := by decide)
    (hn : n ≠ 0 := by decide) (hk : k ≠ 0 := by decide) :
    (b.grants b.requests = false ∧ b.takeThree m n k = (false, (b.kmalloc m).2)) ∨
    (b.grants b.requests = true ∧ b.grants (b.requests + 1) = false ∧
      b.takeThree m n k = (false, ((b.kmalloc m).2.kmalloc n).2.kfree (b.requests + 1))) ∨
    (b.grants b.requests = true ∧ b.grants (b.requests + 1) = true ∧
      b.grants (b.requests + 2) = false ∧
      b.takeThree m n k = (false, ((((b.kmalloc m).2.kmalloc n).2.kmalloc k).2.kfree
        (b.requests + 2)).kfree (b.requests + 1))) ∨
    (b.grants b.requests = true ∧ b.grants (b.requests + 1) = true ∧
      b.grants (b.requests + 2) = true ∧
      b.takeThree m n k = (true, (((b.kmalloc m).2.kmalloc n).2.kmalloc k).2)) := by
  rcases b.kmalloc_cases m hm with ⟨hg, h0⟩ | ⟨hg, hnew⟩
  · exact .inl ⟨hg, if_pos h0⟩
  have hne : (b.kmalloc m).1 ≠ 0 := hnew ▸ Nat.succ_ne_zero _
  have hsecond := (b.kmalloc m).2.kmalloc_cases n hn
  rw [requests_kmalloc hm] at hsecond
  rcases hsecond with ⟨hg', h0⟩ | ⟨hg', hnew'⟩
  · exact .inr (.inl ⟨hg, hg', (if_neg hne).trans (hnew ▸ if_pos h0)⟩)
  have hne' : ((b.kmalloc m).2.kmalloc n).1 ≠ 0 := hnew' ▸ Nat.succ_ne_zero _
  have hcall : b.takeThree m n k =
      let third := ((b.kmalloc m).2.kmalloc n).2.kmalloc k
      if third.1 = 0 then
        (false, (third.2.kfree ((b.kmalloc m).2.kmalloc n).1).kfree (b.kmalloc m).1)
      else (true, third.2) := (if_neg hne).trans (if_neg hne')
  rw [hnew, hnew'] at hcall
  have hthird := ((b.kmalloc m).2.kmalloc n).2.kmalloc_cases k hk
  rw [requests_kmalloc hn, requests_kmalloc hm] at hthird
  rcases hthird with ⟨hg'', h0⟩ | ⟨hg'', hnew''⟩
  · exact .inr (.inr (.inl ⟨hg, hg', hg'', hcall.trans (if_pos h0)⟩))
  · have hne'' : (((b.kmalloc m).2.kmalloc n).2.kmalloc k).1 ≠ 0 := hnew'' ▸ Nat.succ_ne_zero _
    exact .inr (.inr (.inr ⟨hg, hg', hg'', hcall.trans (if_neg hne'')⟩))

/-- **What is refused is undone.** -/
theorem BlockHeap.takeTwo_undone (h : (b.takeTwo m n).1 = false) (hm : m ≠ 0 := by decide)
    (hn : n ≠ 0 := by decide) : (b.takeTwo m n).2.Live i ↔ b.Live i := by
  rcases b.takeTwo_cases m n hm hn with ⟨hg, he⟩ | ⟨-, hg, he⟩ | ⟨-, -, he⟩
  · rw [he]
    exact @live_kmalloc_refused b i m hg
  · rw [he]
    exact live_undo_one hg hm
  · rw [he] at h
    cases h

theorem BlockHeap.takeThree_undone (h : (b.takeThree m n k).1 = false) (hm : m ≠ 0 := by decide)
    (hn : n ≠ 0 := by decide) (hk : k ≠ 0 := by decide) :
    (b.takeThree m n k).2.Live i ↔ b.Live i := by
  rcases b.takeThree_cases m n k hm hn hk with ⟨hg, he⟩ | ⟨-, hg, he⟩ | ⟨-, -, hg, he⟩ |
    ⟨-, -, -, he⟩
  · rw [he]
    exact @live_kmalloc_refused b i m hg
  · rw [he]
    exact live_undo_one hg hm
  · rw [he]
    exact live_undo_two hm hn hg
  · rw [he] at h
    cases h

/-! ## The kernel heap can answer -/

/-- The next requests are answered by these pointers. -/
def BlockHeap.answered (b : BlockHeap) (ps : Nat → Nat) : BlockHeap :=
  { b with
    grants := fun i => if i < b.requests then b.grants i else decide (ps (i - b.requests) ≠ 0)
    addr := fun i => if i ≤ b.requests then b.addr i else ps (i - b.requests - 1) }

theorem BlockHeap.answered_grants (b : BlockHeap) (ps : Nat → Nat) (j : Nat) :
    (b.answered ps).grants (b.requests + j) = decide (ps j ≠ 0) := by
  have hj : b.requests + j - b.requests = j := Nat.add_sub_cancel_left _ _
  simp only [answered, if_neg (Nat.not_lt.mpr (Nat.le_add_right _ j)), hj]

theorem BlockHeap.answered_addr (b : BlockHeap) (ps : Nat → Nat) (j : Nat) :
    (b.answered ps).addr (b.requests + j + 1) = ps j := by
  have hj : b.requests + j + 1 - b.requests - 1 = j := by omega
  have hlt : ¬ b.requests + j + 1 ≤ b.requests := by omega
  simp only [answered, if_neg hlt, hj]

/-- What happens at requests not made yet does not matter. -/
theorem Views.answered (hv : Views c b) (ps : Nat → Nat) : Views c (b.answered ps) := by
  have hlive : ∀ i, (b.answered ps).Live i ↔ b.Live i := by
    intro i
    have hgr : 0 < i → i ≤ b.requests → (b.answered ps).grants (i - 1) = b.grants (i - 1) :=
      fun hpos hle => if_pos (by omega)
    exact ⟨fun hl => ⟨hl.pos, hl.le, hgr hl.pos hl.le ▸ hl.granted, hl.kept⟩,
      fun hl => ⟨hl.pos, hl.le, (hgr hl.pos hl.le).trans hl.granted, hl.kept⟩⟩
  have haddr : ∀ i, b.Live i → (b.answered ps).addr i = b.addr i := fun i hl => if_pos hl.le
  refine ⟨hv.reach, hv.sane, fun i hl => ?_, fun i j hi hj he => ?_, fun q k hq => ?_⟩
  · rw [hlive] at hl
    rw [haddr i hl]
    exact hv.held i hl
  · rw [hlive] at hi hj
    rw [haddr i hi, haddr j hj] at he
    exact hv.injective i j hi hj he
  · obtain ⟨i, hl, he⟩ := hv.covers q k hq
    exact ⟨i, (hlive i).mpr hl, (haddr i hl).trans he⟩

section Serves
variable {c' : Client} {b' : BlockHeap} {heap : Heap} {p : Nat}

/-- A request that is refused. -/
theorem Serves.refused {r : Nat} (hs : Serves c b c' b') (hr : b'.requests = r)
    (hok : SizeOk c'.heap n) (hk : Kheap.kmalloc c'.heap n = some (p, heap))
    (hg : b'.grants r = decide (p ≠ 0)) (hno : b'.grants r = false) :
    Serves c b ⟨heap, c'.live⟩ (b'.kmalloc n).2 := by
  subst hr
  have hp : p = 0 := by simpa using hg.symm.trans hno
  have hserves := hs.kmalloc hok hk (BlockHeap.kmalloc_null_iff hk hg) fun h0 => absurd hp h0
  rwa [if_pos hp] at hserves

/-- A request that is granted, and the block can be freed again. -/
theorem Serves.granted {r : Nat} (hs : Serves c b c' b') (hv : Views c b) (hr : b'.requests = r)
    (hn : n ≠ 0) (hok : SizeOk c'.heap n) (hk : Kheap.kmalloc c'.heap n = some (p, heap))
    (hg : b'.grants r = decide (p ≠ 0)) (ha : b'.addr (r + 1) = p) (hyes : b'.grants r = true) :
    Serves c b ⟨heap, (p, n) :: c'.live⟩ (b'.kmalloc n).2 ∧ (b'.kmalloc n).2.Live (r + 1) := by
  subst hr
  have hp : p ≠ 0 := by simpa using hg.symm.trans hyes
  have hserves := hs.kmalloc hok hk (BlockHeap.kmalloc_null_iff hk hg) fun _ => ha
  rw [if_neg hp] at hserves
  exact ⟨hserves, BlockHeap.live_kmalloc_new (hs.views hv).sane hyes hn⟩

end Serves

/-- **Two requests can be answered as the kernel heap does.** -/
theorem Views.serves_takeTwo (hv : Views c b) (hm : m ≤ maxSize) (hn : n ≤ maxSize)
    (hm0 : m ≠ 0 := by decide) (hn0 : n ≠ 0 := by decide) :
    ∃ ps c', Serves c (b.answered ps) c' ((b.answered ps).takeTwo m n).2 := by
  obtain ⟨bs, hi⟩ := hv.reach.inv
  obtain ⟨p₁, h₁, hk₁⟩ := kmalloc_isSome hi.heap m
  obtain ⟨bs₁, hi₁⟩ := (Reach.malloc hv.reach (.inl hm) hk₁).inv
  obtain ⟨p₂, h₂, hk₂⟩ := kmalloc_isSome hi₁.heap n
  obtain ⟨ps, rfl, rfl⟩ : ∃ ps : Nat → Nat, ps 0 = p₁ ∧ ps 1 = p₂ :=
    ⟨fun j => if j = 0 then p₁ else p₂, rfl, rfl⟩
  have hv₀ := hv.answered ps
  have hg₁ := b.answered_grants ps 0
  have hg₂ := b.answered_grants ps 1
  have ha₁ := b.answered_addr ps 0
  have ha₂ := b.answered_addr ps 1
  have hreq₁ := BlockHeap.requests_kmalloc (b := b.answered ps) hm0
  refine ⟨ps, ?_⟩
  rcases (b.answered ps).takeTwo_cases m n hm0 hn0 with ⟨hno, he⟩ | ⟨hyes, hno, he⟩ | ⟨hyes, hyes', he⟩
  · rw [he]
    exact ⟨_, Serves.refl.refused rfl (.inl hm) hk₁ hg₁ hno⟩
  · rw [he]
    obtain ⟨hs₁, hl₁⟩ := Serves.refl.granted hv₀ rfl hm0 (.inl hm) hk₁ hg₁ ha₁ hyes
    have hs₂ := hs₁.refused hreq₁ (.inl hn) hk₂ hg₂ hno
    have hl₂ := (@BlockHeap.live_kmalloc_of_le _ _ n hl₁.le).mpr hl₁
    exact ⟨_, hs₂.kfree hl₂ (List.mem_cons.mpr (.inl (Prod.ext ha₁ rfl)))⟩
  · rw [he]
    obtain ⟨hs₁, -⟩ := Serves.refl.granted hv₀ rfl hm0 (.inl hm) hk₁ hg₁ ha₁ hyes
    exact ⟨_, (hs₁.granted hv₀ hreq₁ hn0 (.inl hn) hk₂ hg₂ ha₂ hyes').1⟩

/-- **Three requests can be answered as the kernel heap does.** -/
theorem Views.serves_takeThree (hv : Views c b) (hm : m ≤ maxSize) (hn : n ≤ maxSize)
    (hk : k ≤ maxSize) (hm0 : m ≠ 0 := by decide) (hn0 : n ≠ 0 := by decide)
    (hk0 : k ≠ 0 := by decide) :
    ∃ ps c', Serves c (b.answered ps) c' ((b.answered ps).takeThree m n k).2 := by
  obtain ⟨bs, hi⟩ := hv.reach.inv
  obtain ⟨p₁, h₁, hk₁⟩ := kmalloc_isSome hi.heap m
  have hr₁ := Reach.malloc hv.reach (.inl hm) hk₁
  obtain ⟨bs₁, hi₁⟩ := hr₁.inv
  obtain ⟨p₂, h₂, hk₂⟩ := kmalloc_isSome hi₁.heap n
  obtain ⟨bs₂, hi₂⟩ := (Reach.malloc hr₁ (.inl hn) hk₂).inv
  obtain ⟨p₃, h₃, hk₃⟩ := kmalloc_isSome hi₂.heap k
  obtain ⟨ps, rfl, rfl, rfl⟩ : ∃ ps : Nat → Nat, ps 0 = p₁ ∧ ps 1 = p₂ ∧ ps 2 = p₃ :=
    ⟨fun j => if j = 0 then p₁ else if j = 1 then p₂ else p₃, rfl, rfl, rfl⟩
  have hv₀ := hv.answered ps
  have hg₁ := b.answered_grants ps 0
  have hg₂ := b.answered_grants ps 1
  have hg₃ := b.answered_grants ps 2
  have ha₁ := b.answered_addr ps 0
  have ha₂ := b.answered_addr ps 1
  have ha₃ := b.answered_addr ps 2
  have hreq₁ := BlockHeap.requests_kmalloc (b := b.answered ps) hm0
  have hreq₂ := (BlockHeap.requests_kmalloc (b := ((b.answered ps).kmalloc m).2) hn0).trans
    (congrArg Nat.succ hreq₁)
  refine ⟨ps, ?_⟩
  rcases (b.answered ps).takeThree_cases m n k hm0 hn0 hk0 with ⟨hno, he⟩ | ⟨hyes, hno, he⟩ |
    ⟨hyes, hyes', hno, he⟩ | ⟨hyes, hyes', hyes'', he⟩
  · rw [he]
    exact ⟨_, Serves.refl.refused rfl (.inl hm) hk₁ hg₁ hno⟩
  · rw [he]
    obtain ⟨hs₁, hl₁⟩ := Serves.refl.granted hv₀ rfl hm0 (.inl hm) hk₁ hg₁ ha₁ hyes
    have hs₂ := hs₁.refused hreq₁ (.inl hn) hk₂ hg₂ hno
    have hl₂ := (@BlockHeap.live_kmalloc_of_le _ _ n hl₁.le).mpr hl₁
    exact ⟨_, hs₂.kfree hl₂ (List.mem_cons.mpr (.inl (Prod.ext ha₁ rfl)))⟩
  · rw [he]
    obtain ⟨hs₁, hl₁⟩ := Serves.refl.granted hv₀ rfl hm0 (.inl hm) hk₁ hg₁ ha₁ hyes
    obtain ⟨hs₂, hl₂⟩ := hs₁.granted hv₀ hreq₁ hn0 (.inl hn) hk₂ hg₂ ha₂ hyes'
    have hs₃ := hs₂.refused hreq₂ (.inl hk) hk₃ hg₃ hno
    have hl₁' := (@BlockHeap.live_kmalloc_of_le _ _ n hl₁.le).mpr hl₁
    have hl₁'' := (@BlockHeap.live_kmalloc_of_le _ _ k hl₁'.le).mpr hl₁'
    have hl₂' := (@BlockHeap.live_kmalloc_of_le _ _ k hl₂.le).mpr hl₂
    -- the second block goes back first
    have hs₄ := hs₃.kfree hl₂' (List.mem_cons.mpr (.inl (Prod.ext ha₂ rfl)))
    have hlive := BlockHeap.live_kfree.mpr ⟨hl₁'', Nat.ne_of_lt (Nat.lt_succ_self _)⟩
    have hmem : ((b.answered ps).addr (b.requests + 0 + 1), m) ∈ ((ps 1, n) :: (ps 0, m) ::
        c.live).erase ((b.answered ps).addr (b.requests + 1 + 1), n) := by
      rw [ha₁, ha₂, List.erase_cons_head]
      exact List.mem_cons_self
    exact ⟨_, hs₄.kfree hlive hmem⟩
  · rw [he]
    obtain ⟨hs₁, -⟩ := Serves.refl.granted hv₀ rfl hm0 (.inl hm) hk₁ hg₁ ha₁ hyes
    obtain ⟨hs₂, -⟩ := hs₁.granted hv₀ hreq₁ hn0 (.inl hn) hk₂ hg₂ ha₂ hyes'
    exact ⟨_, (hs₂.granted hv₀ hreq₂ hk0 (.inl hk) hk₃ hg₃ ha₃ hyes'').1⟩

end SynapseKernel.Kheap
