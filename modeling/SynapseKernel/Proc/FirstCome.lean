import SynapseKernel.Proc.Policies

/-! # First come, first served

`schedule` runs the loop of the round robin for `SCHEDULER_FCFS`, too: it goes for the
first ready process behind the current one in ring order. From its head on the ring is
in the order of creation (`Arrived`), so that process is the one created earliest unless
there are ready processes on both sides of the current one (`fcfs_earliest_iff`). -/
namespace SynapseKernel.Process
open SynapseKernel.Kheap SynapseKernel.Ring

/-- The processes created so far, oldest first, terminated or not. -/
def arrivals (s : Procs) (created : List Nat) : ProcOp → List Nat
  | .create name priority =>
    let (process, _) := createProcess s name priority
    if process = 0 then created else created ++ [process]
  | .terminate _ => created
  | .schedule _ _ => created
  | .setScheduler _ => created

/-- A step with the arrivals beside it. -/
def arrivalRun (x : Procs × List Nat) (op : ProcOp) : Procs × List Nat :=
  (procStep x.1 op, arrivals x.1 x.2 op)

/-- The state a run ends in and the processes it created, the kernel process first. -/
def arrivalsAfter (heap : BlockHeap) (ops : List ProcOp) : Procs × List Nat :=
  ops.foldl arrivalRun (initProcessManagement (.boot heap),
    if (heap.kmalloc pcbSize).1 = 0 then [] else [(heap.kmalloc pcbSize).1])

/-- A call of `schedule` under `SCHEDULER_FCFS` with these states and this process current. -/
def Procs.atCall (s : Procs) (state : Nat → ProcessState) (current : Nat) : Procs :=
  { s with
    pcb := fun p => { s.pcb p with state := state p }
    currentProcess := current
    currentScheduler := .fcfs }

def CreatedBefore (created : List Nat) (p q : Nat) : Prop := [p, q].Sublist created

/-- The ready process of the ring that was created earliest. -/
def Earliest (s : Procs) (ring created : List Nat) (p : Nat) : Prop :=
  p ∈ ring ∧ (s.pcb p).state = .ready ∧
    ∀ q ∈ ring, (s.pcb q).state = .ready → q ≠ p → CreatedBefore created p q

/-- `schedule` switches to the ready process that was created earliest. -/
def ServesFirst (s : Procs) (ring created : List Nat) (esp ebp : Nat) : Prop :=
  ∃ s', schedule s esp ebp = some s' ∧
    ((∃ p, Earliest s ring created p ∧ s' = switchedTo s p esp ebp) ∨
      (∀ q ∈ ring, (s.pcb q).state ≠ .ready) ∧ s' = s)

/-- A ready process was created before the current one and another one after it. -/
def ReadyAround (s : Procs) (ring created : List Nat) : Prop :=
  ∃ p ∈ ring, ∃ q ∈ ring, (s.pcb p).state = .ready ∧ (s.pcb q).state = .ready ∧
    CreatedBefore created p s.currentProcess ∧ CreatedBefore created s.currentProcess q

variable {s s' : Procs} {ring created pre post : List Nat} {p q : Nat} {x : Procs × List Nat}

/-! ## The ring is in the order of creation -/

/-- In a list in ascending order, what comes first is what is smaller. -/
theorem createdBefore_iff (h : created.Pairwise (· < ·)) (hp : p ∈ created) (hq : q ∈ created) :
    CreatedBefore created p q ↔ p < q := by
  refine ⟨fun hs => ?_, fun hlt => ?_⟩
  · exact List.rel_of_pairwise_cons (h.sublist hs) (List.mem_singleton.mpr rfl)
  · obtain ⟨l, r, rfl⟩ := List.append_of_mem hp
    have hr : q ∈ r := by
      rcases List.mem_append.mp hq with hl | hr
      · have hqp := (List.pairwise_append.mp h).2.2 q hl p List.mem_cons_self
        exact absurd hqp (Nat.lt_asymm hlt)
      · exact (List.mem_cons.mp hr).resolve_left (Nat.ne_of_gt hlt)
    have hpair : [p, q].Sublist (p :: r) := (List.singleton_sublist.mpr hr).cons_cons p
    exact hpair.trans (List.sublist_append_right l (p :: r))

/-- Later requests of the heap have larger numbers, and the ring keeps their order. -/
structure Arrived (x : Procs × List Nat) (ring : List Nat) : Prop where
  procs : ProcInv x.1 ring
  sub : ring.Sublist x.2
  sorted : x.2.Pairwise (· < ·)
  le : ∀ p ∈ x.2, p ≤ x.1.heap.requests

/-- Processes may leave the ring. -/
theorem Arrived.fewer {ring' : List Nat} (h : Arrived x ring) (hprocs : ProcInv s' ring')
    (hsub : ring'.Sublist ring) (hle : x.1.heap.requests ≤ s'.heap.requests) :
    Arrived (s', x.2) ring' :=
  ⟨hprocs, hsub.trans h.sub, h.sorted, fun p hp => Nat.le_trans (h.le p hp) hle⟩

theorem Arrived.create (h : Arrived x ring) (name : ProcessName) (priority : Nat) :
    ∃ ring', Arrived (arrivalRun x (.create name priority)) ring' := by
  rcases createProcess_cases x.1 name priority with ⟨hg, he⟩ | ⟨h0, hr⟩
  · have hrun : arrivalRun x (.create name priority) =
        (withProcess x.1 name priority, x.2 ++ [x.1.heap.requests + 1]) := by
      simp only [arrivalRun, procStep, arrivals, he, if_neg (Nat.succ_ne_zero _)]
    rw [hrun]
    have hrequests : (withProcess x.1 name priority).heap.requests = x.1.heap.requests + 3 :=
      congrArg BlockHeap.requests addProcessToList_heap
    refine ⟨_, h.procs.withProcess hg name priority, h.sub.append_right _, ?_, fun p hp => ?_⟩
    · refine List.pairwise_append.mpr ⟨h.sorted, List.pairwise_singleton _ _, fun p hp q hq => ?_⟩
      rw [List.mem_singleton.mp hq]
      exact Nat.lt_succ_of_le (h.le p hp)
    · simp only [hrequests]
      rcases List.mem_append.mp hp with hp | hp
      · exact Nat.le_add_right_of_le (h.le p hp)
      · rw [List.mem_singleton.mp hp]
        exact Nat.le_add_right _ 2
  · have hrun : arrivalRun x (.create name priority) =
        ((createProcess x.1 name priority).2, x.2) := by
      simp only [arrivalRun, procStep, arrivals, h0, if_true]
    rw [hrun]
    exact ⟨ring, h.fewer (h.procs.refused hr) (List.Sublist.refl _) hr.heap.le⟩

/-- A termination takes one process out of the ring or does nothing. -/
theorem ProcInv.procStep_terminate (h : ProcInv s ring) (pid : Nat) :
    (∃ pre y post, ring = pre ++ y :: post ∧
        procStep s (.terminate pid) = Process.endProcess s y) ∨
      procStep s (.terminate pid) = s := by
  by_cases hnil : ring = []
  · subst hnil
    have hfind : findProcess s pid = none := if_pos h.head
    right
    rw [procStep, terminateProcess, hfind]
    split <;> rfl
  · rcases h.terminateProcess_cases hnil pid with ⟨-, pre, y, post, he, -, -, -, hr⟩ | ⟨-, hr⟩
    · exact .inl ⟨pre, y, post, he, by rw [procStep, hr, Option.getD_some]⟩
    · exact .inr (by rw [procStep, hr, Option.getD_some])

/-- **One step** keeps the order of creation. -/
theorem Arrived.step (h : Arrived x ring) (op : ProcOp) :
    ∃ ring', Arrived (arrivalRun x op) ring' := by
  cases op with
  | create name priority => exact h.create name priority
  | terminate pid =>
    rw [arrivalRun, arrivals]
    rcases h.procs.procStep_terminate pid with ⟨pre, y, post, rfl, he⟩ | he
    · rw [he]
      exact ⟨_, h.fewer h.procs.endProcess ((List.sublist_cons_self y post).append_left pre)
        (Nat.le_of_eq h.procs.ended.requests.symm)⟩
    · rw [he]
      exact ⟨ring, h⟩
  | schedule esp ebp =>
    rw [arrivalRun, arrivals, procStep]
    cases hs : schedule x.1 esp ebp with
    | none => exact ⟨ring, h⟩
    | some s' =>
      have hsame := sameList_schedule hs
      exact ⟨ring, h.fewer (h.procs.same hsame) (List.Sublist.refl _)
        (Nat.le_of_eq (congrArg BlockHeap.requests hsame.heap.symm))⟩
  | setScheduler type =>
    refine ⟨ring, h.fewer (h.procs.same ?_) (List.Sublist.refl _) (Nat.le_refl _)⟩
    exact ⟨rfl, rfl, rfl, rfl, rfl, fun _ => rfl, fun _ => rfl⟩

theorem Arrived.init {heap : BlockHeap} (hs : heap.Sane) :
    ∃ ring, Arrived (arrivalsAfter heap []) ring := by
  rw [arrivalsAfter, List.foldl_nil]
  rcases ProcInv.init hs with ⟨-, h0, hi, -⟩ | ⟨-, hk, hi, -, -⟩
  · rw [if_pos h0]
    exact ⟨[], hi, List.Sublist.refl _, List.Pairwise.nil, fun p hp => absurd hp List.not_mem_nil⟩
  · rw [hk, if_neg (Nat.succ_ne_zero _)]
    refine ⟨_, hi, List.Sublist.refl _, List.pairwise_singleton _ _, fun p hp => ?_⟩
    rw [List.mem_singleton.mp hp]
    exact (hi.live _ (List.mem_singleton.mpr rfl)).le

/-- **In every run** the ring is in the order of creation. -/
theorem Arrived.after {heap : BlockHeap} (hs : heap.Sane) (ops : List ProcOp) :
    ∃ ring, Arrived (arrivalsAfter heap ops) ring := by
  induction ops using List.reverseRecOn with
  | nil => exact Arrived.init hs
  | append_singleton ops op ih =>
    obtain ⟨ring, h⟩ := ih
    rw [arrivalsAfter, List.foldl_append]
    exact h.step op

/-! ## The choice -/

theorem PcbRing.atCall (h : PcbRing s ring) (state : Nat → ProcessState) (current : Nat) :
    PcbRing (s.atCall state current) ring := ⟨h.links, h.head, h.live⟩

/-- The order of the ring is told by the numbers of its processes. -/
theorem Arrived.before_iff (h : Arrived x ring) (hp : p ∈ ring) (hq : q ∈ ring) :
    CreatedBefore x.2 p q ↔ p < q :=
  createdBefore_iff h.sorted (h.sub.subset hp) (h.sub.subset hq)

/-- The first ready process of the ring is the one created earliest. -/
theorem Arrived.earliest_of_first (h : Arrived x ring) (hp : FirstReady s ring p) :
    Earliest s ring x.2 p := by
  obtain ⟨l₁, l₂, rfl, hready, hno⟩ := hp
  have hmem : p ∈ l₁ ++ p :: l₂ := List.mem_append_right _ List.mem_cons_self
  refine ⟨hmem, hready, fun q hq hqr hne => (h.before_iff hmem hq).mpr ?_⟩
  rcases List.mem_append.mp hq with hl | hl
  · exact absurd hqr (hno q hl)
  · have hsorted := (List.pairwise_append.mp (h.sorted.sublist h.sub)).2.1
    exact List.rel_of_pairwise_cons hsorted ((List.mem_cons.mp hl).resolve_left hne)

/-- Ready processes on both sides are ready processes in front of and behind the current one. -/
theorem Arrived.readyAround_iff (h : Arrived x (pre ++ s.currentProcess :: post))
    (hc : (s.pcb s.currentProcess).state ≠ .ready) :
    ReadyAround s (pre ++ s.currentProcess :: post) x.2 ↔
      (∃ p ∈ pre, (s.pcb p).state = .ready) ∧ ∃ q ∈ post, (s.pcb q).state = .ready := by
  have hsorted := List.pairwise_append.mp (h.sorted.sublist h.sub)
  have hcur : s.currentProcess ∈ pre ++ s.currentProcess :: post :=
    List.mem_append_right _ List.mem_cons_self
  constructor
  · rintro ⟨p, hp, q, hq, hpr, hqr, hpc, hcq⟩
    rw [h.before_iff hp hcur] at hpc
    rw [h.before_iff hcur hq] at hcq
    refine ⟨⟨p, ?_, hpr⟩, q, ?_, hqr⟩
    · refine (List.mem_append.mp hp).resolve_right fun hm => ?_
      rcases List.mem_cons.mp hm with rfl | hm
      · exact hc hpr
      · exact absurd (List.rel_of_pairwise_cons hsorted.2.1 hm) (Nat.lt_asymm hpc)
    · rcases List.mem_append.mp hq with hm | hm
      · exact absurd (hsorted.2.2 q hm _ List.mem_cons_self) (Nat.lt_asymm hcq)
      · exact (List.mem_cons.mp hm).resolve_left (Nat.ne_of_gt hcq)
  · rintro ⟨⟨p, hp, hpr⟩, q, hq, hqr⟩
    have hpm : p ∈ pre ++ s.currentProcess :: post := List.mem_append_left _ hp
    have hqm : q ∈ pre ++ s.currentProcess :: post :=
      List.mem_append_right _ (List.mem_cons_of_mem _ hq)
    refine ⟨p, hpm, q, hqm, hpr, hqr, (h.before_iff hpm hcur).mpr ?_,
      (h.before_iff hcur hqm).mpr ?_⟩
    · exact hsorted.2.2 p hp _ List.mem_cons_self
    · exact List.rel_of_pairwise_cons hsorted.2.1 hq

/-- With ready processes on one side only, the first one behind the current process in
ring order is the first one of the ring. -/
theorem firstReady_of_oneSide (hc : (s.pcb q).state ≠ .ready)
    (hside : ¬ ((∃ p ∈ pre, (s.pcb p).state = .ready) ∧ ∃ q ∈ post, (s.pcb q).state = .ready))
    (hp : FirstReady s (post ++ pre) p) : FirstReady s (pre ++ q :: post) p := by
  obtain ⟨l₁, l₂, he, hready, hno⟩ := hp
  rcases List.append_eq_append_iff.mp he with ⟨m, rfl, hm⟩ | ⟨m, rfl, hm⟩
  · -- the choice is in front, and nothing behind is ready
    refine ⟨m, l₂ ++ q :: post, ?_, hready, fun y hy => hno y (List.mem_append_right _ hy)⟩
    rw [hm, List.append_assoc, List.cons_append]
  · cases m with
    | nil =>
      obtain rfl : pre = p :: l₂ := (List.nil_append pre ▸ hm).symm
      exact ⟨[], l₂ ++ q :: (l₁ ++ []), rfl, hready, fun y hy => absurd hy List.not_mem_nil⟩
    | cons y m =>
      obtain ⟨rfl, rfl⟩ := List.cons.inj hm
      -- the choice is behind, so nothing in front is ready
      have hpre : ∀ y ∈ pre, (s.pcb y).state ≠ .ready := fun y hy hyr =>
        hside ⟨⟨y, hy, hyr⟩, p, List.mem_append_right _ List.mem_cons_self, hready⟩
      refine ⟨pre ++ q :: l₁, m, by rw [List.append_assoc, List.cons_append], hready, ?_⟩
      exact List.forall_mem_append.mpr ⟨hpre, List.forall_mem_cons.mpr ⟨hc, hno⟩⟩

/-- The first ready process of a list is in the part that has one. -/
theorem FirstReady.mem_of_ready (hp : FirstReady s (post ++ pre) p) (hq : q ∈ post)
    (hqr : (s.pcb q).state = .ready) : p ∈ post := by
  obtain ⟨l₁, l₂, he, -, hno⟩ := hp
  rcases List.append_eq_append_iff.mp he with ⟨m, rfl, -⟩ | ⟨m, rfl, hm⟩
  · exact absurd hqr (hno q (List.mem_append_left _ hq))
  · cases m with
    | nil => exact absurd hqr (hno q (List.append_nil l₁ ▸ hq))
    | cons y m =>
      rw [(List.cons.inj hm).1]
      exact List.mem_append_right _ List.mem_cons_self

/-- A process behind the current one was not created before one in front of it. -/
theorem Arrived.not_earliest_of_behind {c : Nat} (h : Arrived x (pre ++ c :: post)) (hp : p ∈ pre)
    (hpr : (s.pcb p).state = .ready) (hq : q ∈ post) :
    ¬ Earliest s (pre ++ c :: post) x.2 q := by
  intro hearliest
  have hpm : p ∈ pre ++ c :: post := List.mem_append_left _ hp
  have hsorted := (List.pairwise_append.mp (h.sorted.sublist h.sub)).2.2
  have hlt := hsorted p hp q (List.mem_cons_of_mem _ hq)
  have hbefore := hearliest.2.2 p hpm hpr (Nat.ne_of_lt hlt)
  rw [h.before_iff hearliest.1 hpm] at hbefore
  exact absurd hbefore (Nat.lt_asymm hlt)

/-- The pointers of a state have one ring. -/
theorem PcbRing.unique {ring' : List Nat} (h : PcbRing s ring) (h' : PcbRing s ring') :
    ring = ring' := by
  have hhead := h.head.symm.trans h'.head
  cases ring with
  | nil =>
    cases ring' with
    | nil => rfl
    | cons b m => exact absurd hhead.symm (h'.pos b List.mem_cons_self)
  | cons a l =>
    cases ring' with
    | nil => exact absurd hhead (h.pos a List.mem_cons_self)
    | cons b m =>
      obtain rfl : a = b := hhead
      rw [h.links.tail_unique h'.links]

/-- **First come, first served.** In the state after any run, with any states of the processes
and any process of the ring current that is not ready, `SCHEDULER_FCFS` selects the ready process
created earliest if and only if ready processes do not stand on both sides of the current one. -/
theorem fcfs_earliest_iff {heap : BlockHeap} (hs : heap.Sane) (ops : List ProcOp) (ring : List Nat)
    (hring : PcbRing (arrivalsAfter heap ops).1 ring) (state : Nat → ProcessState) (current : Nat)
    (hcurrent : current ∈ ring) (hready : state current ≠ .ready) (esp ebp : Nat) :
    ServesFirst ((arrivalsAfter heap ops).1.atCall state current) ring (arrivalsAfter heap ops).2
        esp ebp ↔
      ¬ ReadyAround ((arrivalsAfter heap ops).1.atCall state current) ring
        (arrivalsAfter heap ops).2 := by
  obtain ⟨ring', h⟩ := Arrived.after hs ops
  obtain rfl := hring.unique h.procs.pcbRing
  obtain ⟨pre, post, rfl⟩ := List.append_of_mem hcurrent
  have hcall := hring.atCall state current
  set s := (arrivalsAfter heap ops).1.atCall state current
  have hc : (s.pcb s.currentProcess).state ≠ .ready := hready
  have hchoose : chooseProcess s = nextReady s s.heap.requests (s.next s.currentProcess) :=
    if_neg (hcall.pos _ (List.mem_append_right _ List.mem_cons_self))
  obtain ⟨s', hsched, hcases⟩ := @PcbRing.schedule_round s pre post hcall hchoose esp ebp
  have haround : ReadyAround s (pre ++ current :: post) (arrivalsAfter heap ops).2 ↔ _ :=
    @Arrived.readyAround_iff s pre post _ h hc
  rw [haround]
  constructor
  · rintro ⟨s'', hsched', hserves⟩ ⟨⟨p, hp, hpr⟩, q, hq, hqr⟩
    obtain rfl := Option.some.inj (hsched.symm.trans hsched')
    rcases hcases with ⟨p₀, hfirst, rfl⟩ | ⟨hnone, -⟩
    · rcases hserves with ⟨p₁, hearliest, he⟩ | ⟨hnone, -⟩
      · obtain rfl : p₀ = p₁ := congrArg Procs.currentProcess he
        exact h.not_earliest_of_behind hp hpr (hfirst.mem_of_ready hq hqr) hearliest
      · exact hnone p (List.mem_append_left _ hp) hpr
    · exact hnone q (List.mem_append_left _ hq) hqr
  · intro hno
    refine ⟨s', hsched, ?_⟩
    rcases hcases with ⟨p, hp, he⟩ | ⟨hnone, he⟩
    · exact .inl ⟨p, h.earliest_of_first (firstReady_of_oneSide hc hno hp), he⟩
    · refine .inr ⟨?_, he⟩
      obtain ⟨hpost, hpre⟩ := List.forall_mem_append.mp hnone
      exact List.forall_mem_append.mpr ⟨hpre, List.forall_mem_cons.mpr ⟨hc, hpost⟩⟩

/-- Three processes are created next to the kernel process. -/
def threeCreated : List ProcOp :=
  [.create kernelName 5, .create kernelName 5, .create kernelName 5]

theorem pcbRing_threeCreated : PcbRing (arrivalsAfter roomyHeap threeCreated).1 [1, 2, 5, 8] := by
  have hlinks : IsRing (arrivalsAfter roomyHeap threeCreated).1.next
      (arrivalsAfter roomyHeap threeCreated).1.prev [1, 2, 5, 8] := by
    refine ⟨by decide, ?_, fun x hx y hy => ?_⟩
    · refine List.isChain_cons_cons.mpr ⟨⟨by decide, by decide⟩, ?_⟩
      refine List.isChain_cons_cons.mpr ⟨⟨by decide, by decide⟩, ?_⟩
      exact List.isChain_pair.mpr ⟨by decide, by decide⟩
    · obtain rfl := Option.some.inj hx
      obtain rfl := Option.some.inj hy
      exact ⟨by decide, by decide⟩
  refine ⟨hlinks, by decide, fun p hp => ?_⟩
  have hnew : 0 < p ∧ p ≤ 10 ∧ p ∉ ([] : List Nat) := by
    revert p
    decide
  exact ⟨hnew.1, hnew.2.1, rfl, hnew.2.2⟩

/-- The kernel process runs, and the process at block `b` is blocked. -/
def statesWith (b p : Nat) : ProcessState :=
  if p = 1 then .running else if p = b then .blocked else .ready

/-- The first of the three is blocked and current, and the other two are ready. -/
theorem fcfs_earliest_iff_three :
    ServesFirst ((arrivalsAfter roomyHeap threeCreated).1.atCall (statesWith 2) 2) [1, 2, 5, 8]
        [1, 2, 5, 8] 0 0 ↔
      ¬ ReadyAround ((arrivalsAfter roomyHeap threeCreated).1.atCall (statesWith 2) 2) [1, 2, 5, 8]
        [1, 2, 5, 8] :=
  fcfs_earliest_iff roomyHeap_sane threeCreated [1, 2, 5, 8] pcbRing_threeCreated (statesWith 2) 2
    (by decide) (by decide) 0 0

/-- With the second one blocked and current the third is selected before the first. -/
theorem not_servesFirst_three :
    ¬ ServesFirst ((arrivalsAfter roomyHeap threeCreated).1.atCall (statesWith 5) 5) [1, 2, 5, 8]
        (arrivalsAfter roomyHeap threeCreated).2 0 0 := by
  set s := (arrivalsAfter roomyHeap threeCreated).1.atCall (statesWith 5) 5
  rintro ⟨s', hsched, hserves⟩
  have hthird : (schedule s 0 0).map Procs.currentProcess = some 8 := by decide
  rw [hsched, Option.map_some, Option.some.injEq] at hthird
  rcases hserves with ⟨p, ⟨-, -, hfirst⟩, rfl⟩ | ⟨hnone, -⟩
  · obtain rfl : p = 8 := hthird
    have hbefore : CreatedBefore [1, 2, 5, 8] 8 2 := hfirst 2 (by decide) (by decide) (by decide)
    exact absurd ((createdBefore_iff (by decide) (by decide) (by decide)).mp hbefore) (by decide)
  · exact hnone 2 (by decide) (by decide)

end SynapseKernel.Process
