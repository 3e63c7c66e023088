import SynapseKernel.Lib.Runs
import SynapseKernel.Mm.KheapServes

/-! # A run of the kernel heap as a run of numbered blocks

The callers of `kmalloc` in this development run on a heap of numbered blocks whose answers
are fixed beforehand. For every run of calls on the heap of kernel/mm/kheap.c that asks for
sizes `kmalloc` can take there are such answers: on both heaps every request returns the same
pointer, and the same blocks are held at every point of the run (`callersRun_seen`). -/
namespace SynapseKernel.Kheap
open SynapseKernel.ByteMemory SynapseKernel.Runs

/-- A call of those who hold blocks. A block has the number of the request for it; `0` is
`NULL`. -/
inductive BlockCall
  | kmalloc (n : Nat)
  | kfree (block : Nat)
  | store (block offset : Nat) (v : UInt8)

/-- The pointer that the request for a block returned, and the size. -/
def answerOf (answers : List (Nat × Nat)) : Nat → Nat × Nat
  | 0 => (0, 0)
  | i + 1 => answers.getD i (0, 0)

/-- The heap of kheap.c, the pointer and the size of every request so far, the first one first,
and the blocks that were freed. No bytes are no request: both heaps return `NULL` for them and
stay as they are. -/
structure Callers where
  heap : Heap
  answers : List (Nat × Nat)
  freed : List Nat

def callersInit (m : Mem) : Callers := ⟨initKheap m, [], []⟩

/-- The block was handed out and not freed since. -/
structure Callers.Holds (s : Callers) (block : Nat) : Prop where
  pointer : (answerOf s.answers block).1 ≠ 0
  kept : block ∉ s.freed

/-- Requests are of sizes that `kmalloc` can take, only `NULL` and what is held is freed, and
stores go into payloads that are held. -/
def Callers.Permitted (s : Callers) : BlockCall → Prop
  | .kmalloc n => SizeOk s.heap n
  | .kfree block => block = 0 ∨ s.Holds block
  | .store block offset _ => s.Holds block ∧ offset < (answerOf s.answers block).2

def callersStep (s : Callers) : BlockCall → Callers
  | .kmalloc n =>
    match kmalloc s.heap n with
    | none => s
    | some (p, heap) =>
      { s with heap := heap, answers := if n = 0 then s.answers else s.answers ++ [(p, n)] }
  | .kfree block =>
    { s with heap := kfree s.heap (answerOf s.answers block).1, freed := block :: s.freed }
  | .store block offset v =>
    { s with heap := { s.heap with
        mem := Function.update s.heap.mem ((answerOf s.answers block).1 + offset) v } }

/-- The same on numbered blocks. -/
structure Blocks where
  heap : BlockHeap
  answers : List (Nat × Nat)

def blocksStep (b : Blocks) : BlockCall → Blocks
  | .kmalloc n =>
    let (block, heap) := b.heap.kmalloc n
    ⟨heap, if n = 0 then b.answers
      else b.answers ++ [(if block = 0 then 0 else heap.addr block, n)]⟩
  | .kfree block => { b with heap := b.heap.kfree block }
  | .store _ _ _ => b

/-- The heap of blocks whose answers are those at the end of a run. -/
def answering (final : List (Nat × Nat)) (requests : Nat) (freed : List Nat) : BlockHeap where
  grants := fun i => decide ((answerOf final (i + 1)).1 ≠ 0)
  addr := fun block => (answerOf final block).1
  requests := requests
  freed := freed

variable {m : Mem} {final l : List (Nat × Nat)} {s s' : Callers} {b : Blocks} {call : BlockCall}
  {block n p : Nat} {heap : Heap}

/-! ## Answers -/

theorem answerOf_of_beginning (h : l <+: final) (hle : block ≤ l.length) :
    answerOf final block = answerOf l block := by
  obtain ⟨rest, rfl⟩ := h
  cases block with
  | zero => rfl
  | succ i => rw [answerOf, answerOf, List.getD_append _ _ _ _ hle]

theorem answerOf_append_last (l : List (Nat × Nat)) (a : Nat × Nat) :
    answerOf (l ++ [a]) (l.length + 1) = a := by
  rw [answerOf, List.getD_append_right _ _ _ _ (Nat.le_refl _), Nat.sub_self]
  rfl

theorem answerOf_append_of_le (a : Nat × Nat) (hle : block ≤ l.length) :
    answerOf (l ++ [a]) block = answerOf l block :=
  answerOf_of_beginning (List.prefix_append l [a]) hle

/-- A block with a pointer was requested. -/
theorem bounds_of_pointer (h : (answerOf l block).1 ≠ 0) : 0 < block ∧ block ≤ l.length := by
  cases block with
  | zero => exact absurd rfl h
  | succ i =>
    refine ⟨Nat.succ_pos i, Nat.succ_le_of_lt (Nat.lt_of_not_le fun hle => h ?_)⟩
    rw [answerOf, List.getD_eq_default _ _ hle]

theorem answers_callersStep (s : Callers) (call : BlockCall) :
    s.answers <+: (callersStep s call).answers := by
  cases call with
  | kmalloc n =>
    rw [callersStep]
    split
    · exact List.prefix_rfl
    · simp only
      split
      · exact List.prefix_rfl
      · exact List.prefix_append _ _
  | kfree block => exact List.prefix_rfl
  | store block offset v => exact List.prefix_rfl

theorem answers_callersRun (s : Callers) (calls : List BlockCall) :
    s.answers <+: (calls.foldl callersStep s).answers := by
  induction calls generalizing s with
  | nil => exact List.prefix_rfl
  | cons call calls ih => exact (answers_callersStep s call).trans (ih _)

/-! ## The two heaps in step -/

/-- The blocks are those of the answers, and the heap of kheap.c is seen so. -/
structure Seen (final : List (Nat × Nat)) (s : Callers) (b : Blocks) : Prop where
  heap : b.heap = answering final s.answers.length s.freed
  answers : b.answers = s.answers
  views : ∃ live, Views ⟨s.heap, live⟩ b.heap ∧ ∀ i, b.heap.Live i → answerOf s.answers i ∈ live

/-- While the answers are the first ones of the run, the live blocks are those held. -/
theorem live_answering_iff (h : s.answers <+: final) :
    (answering final s.answers.length s.freed).Live block ↔ s.Holds block := by
  constructor
  · rintro ⟨hpos, hle, hgr, hkept⟩
    refine ⟨?_, hkept⟩
    have hpointer : (answerOf final (block - 1 + 1)).1 ≠ 0 := of_decide_eq_true hgr
    rwa [Nat.sub_add_cancel hpos, answerOf_of_beginning h hle] at hpointer
  · rintro ⟨hpointer, hkept⟩
    obtain ⟨hpos, hle⟩ := bounds_of_pointer hpointer
    refine ⟨hpos, hle, decide_eq_true ?_, hkept⟩
    rwa [Nat.sub_add_cancel hpos, answerOf_of_beginning h hle]

theorem Seen.live_iff (h : Seen final s b) (hl : s.answers <+: final) :
    b.heap.Live block ↔ s.Holds block := by
  rw [h.heap]
  exact live_answering_iff hl

theorem seen_init (m : Mem) (final : List (Nat × Nat)) :
    Seen final (callersInit m) ⟨answering final 0 [], []⟩ := by
  have hnone : ∀ i, ¬ (answering final 0 []).Live i := fun i hl =>
    absurd hl.le (Nat.not_le_of_lt hl.pos)
  refine ⟨rfl, rfl, [], ⟨.init m, fun p hp => absurd hp List.not_mem_nil, fun i hl => ?_,
    fun i _ hl => ?_, fun p n hm => absurd hm List.not_mem_nil⟩, fun i hl => ?_⟩
  · exact absurd hl (hnone i)
  · exact absurd hl (hnone i)
  · exact absurd hl (hnone i)

/-- The request is granted or refused as the heap of kheap.c does. -/
theorem Seen.kmalloc (h : Seen final s b) (hok : SizeOk s.heap n)
    (hl : (callersStep s (.kmalloc n)).answers <+: final) :
    Seen final (callersStep s (.kmalloc n)) (blocksStep b (.kmalloc n)) := by
  by_cases hn : n = 0
  · subst hn
    exact h
  obtain ⟨live, hv, hanswer⟩ := h.views
  obtain ⟨bs, hi⟩ := hv.reach.inv
  obtain ⟨p, heap, hk⟩ := kmalloc_isSome hi.heap n
  have hstep : callersStep s (.kmalloc n) =
      { s with heap := heap, answers := s.answers ++ [(p, n)] } := by
    simp only [callersStep, hk, if_neg hn]
  rw [hstep] at hl ⊢
  have hreq : b.heap.requests = s.answers.length := by
    rw [h.heap]
    rfl
  have hlast : answerOf final (s.answers.length + 1) = (p, n) := by
    rw [answerOf_of_beginning hl (by rw [List.length_append]; exact Nat.le_refl _)]
    exact answerOf_append_last s.answers (p, n)
  have hgrant : b.heap.grants b.heap.requests = decide (p ≠ 0) := by
    rw [hreq, h.heap]
    exact congrArg (fun a => decide (a.1 ≠ 0)) hlast
  have haddr : b.heap.addr (b.heap.requests + 1) = p := by
    rw [hreq, h.heap]
    exact congrArg Prod.fst hlast
  have hanswers : b.answers ++ [(if (b.heap.kmalloc n).1 = 0 then 0
      else (b.heap.kmalloc n).2.addr (b.heap.kmalloc n).1, n)] = s.answers ++ [(p, n)] := by
    rw [h.answers]
    congr 3
    by_cases hp : p = 0
    · rw [if_pos (BlockHeap.kmalloc_refused (hgrant.trans (by simp [hp])) n), hp]
    · rw [BlockHeap.kmalloc_granted (hgrant.trans (by simp [hp])) n hn,
        if_neg (Nat.succ_ne_zero _)]
      exact haddr
  have hnull := BlockHeap.kmalloc_null_iff hk hgrant
  have hserves := (Serves.refl.kmalloc hok hk hnull fun _ => haddr).views hv
  refine ⟨?_, (if_neg hn).trans hanswers, _, hserves, fun i hlive => ?_⟩
  · simp only [blocksStep, h.heap, BlockHeap.kmalloc, answering, List.length_append,
      List.length_singleton, if_neg hn]
  · have hlive : (b.heap.kmalloc n).2.Live i := hlive
    by_cases hle : i ≤ s.answers.length
    · have hold := (BlockHeap.live_kmalloc_of_le (hreq ▸ hle)).mp hlive
      have hm := hanswer i hold
      rw [← answerOf_append_of_le (p, n) hle] at hm
      split
      · exact hm
      · exact List.mem_cons_of_mem _ hm
    · have hlt : i ≤ b.heap.requests + 1 := Nat.le_trans hlive.le (b.heap.kmalloc_requests_le n)
      obtain rfl : i = s.answers.length + 1 := by omega
      have hnew : decide (p ≠ 0) = true := by
        rw [← hgrant, hreq]
        exact hlive.granted
      rw [if_neg (of_decide_eq_true hnew), answerOf_append_last]
      exact List.mem_cons_self

theorem Seen.kfree (h : Seen final s b) (hl : s.answers <+: final)
    (hp : block = 0 ∨ s.Holds block) :
    Seen final (callersStep s (.kfree block)) (blocksStep b (.kfree block)) := by
  obtain ⟨live, hv, hanswer⟩ := h.views
  have hheap : b.heap.kfree block = answering final s.answers.length (block :: s.freed) := by
    rw [h.heap]
    rfl
  have hkept : ∀ i, (b.heap.kfree block).Live i → answerOf s.answers i ∈ live ∧ i ≠ block :=
    fun i hi => ⟨hanswer i (BlockHeap.live_kfree.mp hi).1, (BlockHeap.live_kfree.mp hi).2⟩
  rcases hp with rfl | hheld
  · have hs := (Serves.refl (c := ⟨s.heap, live⟩) (b := b.heap)).kfreeNull
    exact ⟨hheap, h.answers, live, hs.views hv, fun i hi => (hkept i hi).1⟩
  · have hlive := (h.live_iff hl).mpr hheld
    have haddr : ∀ i, b.heap.Live i → b.heap.addr i = (answerOf s.answers i).1 := by
      intro i hi
      have hle : i ≤ s.answers.length := by
        have hle := hi.le
        rwa [h.heap] at hle
      rw [h.heap]
      exact congrArg Prod.fst (answerOf_of_beginning hl hle)
    have hm : (b.heap.addr block, (answerOf s.answers block).2) ∈ live := by
      rw [haddr block hlive]
      exact hanswer block hlive
    have hs := (Serves.refl (c := ⟨s.heap, live⟩) (b := b.heap)).kfree hlive hm
    rw [haddr block hlive] at hs
    refine ⟨hheap, h.answers, _, hs.views hv, fun i hi => ?_⟩
    obtain ⟨hin, hne⟩ := hkept i hi
    refine (List.mem_erase_of_ne fun he => hne ?_).mpr hin
    have hi' := (BlockHeap.live_kfree.mp hi).1
    refine hv.injective i block hi' hlive ?_
    rw [haddr i hi', haddr block hlive]
    exact congrArg Prod.fst he

theorem Seen.store (h : Seen final s b) (hl : s.answers <+: final) (hp : s.Holds block)
    {offset : Nat} (hlt : offset < (answerOf s.answers block).2) (v : UInt8) :
    Seen final (callersStep s (.store block offset v)) (blocksStep b (.store block offset v)) := by
  obtain ⟨live, hv, hanswer⟩ := h.views
  have hm := hanswer block ((h.live_iff hl).mpr hp)
  have hs := (Serves.refl (c := ⟨s.heap, live⟩) (b := b.heap)).store (v := v) hm
    (Nat.le_add_right _ offset) (Nat.add_lt_add_left hlt _)
  exact ⟨h.heap, h.answers, live, hs.views hv, hanswer⟩

theorem Seen.step (h : Seen final s b) (hp : s.Permitted call)
    (hl : (callersStep s call).answers <+: final) :
    Seen final (callersStep s call) (blocksStep b call) := by
  have hold := (answers_callersStep s call).trans hl
  cases call with
  | kmalloc n => exact h.kmalloc hp hl
  | kfree block => exact h.kfree hold hp
  | store block offset v => exact h.store hold hp.1 hp.2 v

theorem Seen.run (h : Seen final s b) (pre post : List BlockCall)
    (hg : Guarded callersStep Callers.Permitted s (pre ++ post))
    (hl : ((pre ++ post).foldl callersStep s).answers <+: final) :
    Seen final (pre.foldl callersStep s) (pre.foldl blocksStep b) ∧
      (pre.foldl callersStep s).answers <+: final := by
  induction pre generalizing s b with
  | nil => exact ⟨h, (answers_callersRun s post).trans hl⟩
  | cons call pre ih =>
    have hnext : (callersStep s call).answers <+: final :=
      (answers_callersRun (callersStep s call) (pre ++ post)).trans hl
    exact ih (h.step hg.1 hnext) hg.2 hl

/-- **A run of the kernel heap is a run of numbered blocks.** For every run of calls from
`init_kheap` there is a heap of blocks, with nothing requested or freed yet, on which the same
calls get the same answers: after each of them every request so far has returned the same
pointer on both, the live blocks are those held, and the heap of kheap.c is seen as the
blocks are. -/
theorem callersRun_seen (m : Mem) (calls : List BlockCall)
    (hg : Guarded callersStep Callers.Permitted (callersInit m) calls) :
    ∃ b₀ : BlockHeap, b₀.requests = 0 ∧ b₀.freed = [] ∧ ∀ pre post, calls = pre ++ post →
      let s := pre.foldl callersStep (callersInit m)
      let b := pre.foldl blocksStep ⟨b₀, []⟩
      b.answers = s.answers ∧ (∀ block, b.heap.Live block ↔ s.Holds block) ∧
        (∀ block, s.Holds block → b.heap.addr block = (answerOf s.answers block).1) ∧
        ∃ live, Views ⟨s.heap, live⟩ b.heap := by
  refine ⟨answering (calls.foldl callersStep (callersInit m)).answers 0 [], rfl, rfl, ?_⟩
  rintro pre post rfl s b
  obtain ⟨h, hl⟩ := (seen_init m _).run pre post hg List.prefix_rfl
  obtain ⟨live, hv, -⟩ := h.views
  refine ⟨h.answers, fun block => h.live_iff hl, fun block hb => ?_, live, hv⟩
  rw [h.heap]
  exact congrArg Prod.fst (answerOf_of_beginning hl (bounds_of_pointer hb.pointer).2)

/-- A block of 24 bytes is requested, written to and freed, and a byte is requested. -/
def fourCalls : List BlockCall := [.kmalloc 24, .store 1 23 7, .kfree 1, .kmalloc 1]

theorem permitted_fourCalls (m : Mem) :
    Guarded callersStep Callers.Permitted (callersInit m) fourCalls := by
  have hfirst : callersStep (callersInit m) (.kmalloc 24) =
      ⟨afterTake (initKheap m) kheapStart 24, [(kheapStart + headerSize, 24)], []⟩ := by
    simp only [callersStep, callersInit, kmalloc_init m (by decide : 24 ≠ 0) (by decide)]
    rfl
  have hsmall : ∀ s : Callers, s.Permitted (.kmalloc 1) := fun s => .inl (by decide)
  refine ⟨.inl (by decide), ?_⟩
  rw [hfirst]
  have hpointer : kheapStart + headerSize ≠ 0 := by decide
  have hlast : 23 < 24 := by decide
  exact ⟨⟨⟨hpointer, List.not_mem_nil⟩, hlast⟩, .inr ⟨hpointer, List.not_mem_nil⟩, hsmall _,
    trivial⟩

theorem callersRun_seen_four :
    ∃ b₀ : BlockHeap, b₀.requests = 0 ∧ b₀.freed = [] ∧ ∀ pre post, fourCalls = pre ++ post →
      let s := pre.foldl callersStep (callersInit fun _ => 0)
      let b := pre.foldl blocksStep ⟨b₀, []⟩
      b.answers = s.answers ∧ (∀ block, b.heap.Live block ↔ s.Holds block) ∧
        (∀ block, s.Holds block → b.heap.addr block = (answerOf s.answers block).1) ∧
        ∃ live, Views ⟨s.heap, live⟩ b.heap :=
  callersRun_seen (fun _ => 0) fourCalls (permitted_fourCalls _)

end SynapseKernel.Kheap
