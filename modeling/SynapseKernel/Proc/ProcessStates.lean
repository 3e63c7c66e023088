import SynapseKernel.Proc.ProcessSchedule

/-! # Running and ready processes

`switch_process` moves `current_process` and leaves every `state` as it is. The
kernel process is made as the running one and every other process as a ready one,
so the states agree with `current_process` until the first switch
(`onlyRunning_iff_no_ready`), and never again after it. -/
namespace SynapseKernel.Process
open SynapseKernel.Word SynapseKernel.Kheap SynapseKernel.Ring SynapseKernel.Search
open SynapseKernel.Runs

variable {s s' : Procs} {ring pre post l : List Nat} {p c x : Nat}

/-- The process is met on the way along the list. -/
def Listed (s : Procs) (p : Nat) : Prop := s.processList ≠ 0 ∧ ∃ i, s.next^[i] s.processList = p

/-- The current process is the one process of the list that is running. -/
structure OnlyRunning (s : Procs) : Prop where
  listed : Listed s s.currentProcess
  running : (s.pcb s.currentProcess).state = .running
  only : ∀ p, Listed s p → (s.pcb p).state = .running → p = s.currentProcess

/-- A process that loses the processor in this step is ready after it. -/
def LeavesReady (s : Procs) (op : ProcOp) : Prop :=
  (procStep s op).currentProcess ≠ s.currentProcess →
    ((procStep s op).pcb s.currentProcess).state = .ready

/-- `schedule` is called while a process of the list is ready. -/
def FindsReady (s : Procs) : ProcOp → Prop
  | .schedule _ _ => ∃ p, Listed s p ∧ (s.pcb p).state = .ready
  | .create _ _ => False
  | .terminate _ => False
  | .setScheduler _ => False

theorem ProcInv.listed_iff (h : ProcInv s ring) : Listed s p ↔ p ∈ ring := by
  have hhead := h.head
  have hlinks := h.links
  constructor
  · rintro ⟨hne, i, rfl⟩
    cases ring with
    | nil => exact absurd hhead hne
    | cons a l =>
      have ha : s.processList = a := hhead
      rw [ha]
      exact hlinks.iterate_mem List.mem_cons_self i
  · intro hp
    refine ⟨h.processList_ne (List.ne_nil_of_mem hp), ?_⟩
    obtain ⟨i, hi⟩ := List.mem_iff_getElem?.mp hp
    cases ring with
    | nil => cases hp
    | cons a l =>
      have ha : s.processList = a := hhead
      exact ⟨i, ha ▸ hlinks.iterate_eq hi⟩

/-! ## What the loops find -/

/-- The round robin comes to a ready process if there is one besides the current. -/
theorem ProcInv.nextReady_ready (h : ProcInv s ring) (hc : s.currentProcess ∈ ring)
    (hready : ∀ q ∈ ring, q ≠ s.currentProcess → (s.pcb q).state = .ready)
    (hp : p ∈ ring) (hne : p ≠ s.currentProcess) :
    ∃ q ∈ ring, q ≠ s.currentProcess ∧
      nextReady s s.heap.requests (s.next s.currentProcess) = some q := by
  obtain ⟨l₁, l₂, rfl⟩ := List.append_of_mem hc
  have hrot : IsRing s.next s.prev (s.currentProcess :: (l₂ ++ l₁)) := h.links.rotate
  have hmem : ∀ q, q ∈ s.currentProcess :: (l₂ ++ l₁) ↔ q ∈ l₁ ++ s.currentProcess :: l₂ := by
    intro q
    simp only [List.mem_cons, List.mem_append]
    tauto
  have hnil : l₂ ++ l₁ ≠ [] := by
    intro hnil
    have hp' := (hmem p).mpr hp
    rw [hnil] at hp'
    exact hne (List.mem_singleton.mp hp')
  obtain ⟨⟨t, ht⟩, -⟩ := hrot.head_links hnil
  have hq : s.next s.currentProcess ∈ l₂ ++ l₁ := ht ▸ List.mem_cons_self
  have hqc : s.next s.currentProcess ≠ s.currentProcess :=
    fun he => (List.nodup_cons.mp hrot.nodup).1 (he ▸ hq)
  have hqr := (hmem _).mp (List.mem_cons_of_mem _ hq)
  refine ⟨_, hqr, hqc, ?_⟩
  have hlen := h.length_le
  rw [List.length_append, List.length_cons] at hlen
  obtain ⟨fuel, hfuel⟩ := Nat.exists_eq_succ_of_ne_zero (n := s.heap.requests) (by omega)
  rw [hfuel, nextReady, if_neg fun hgo => hgo.1 (hready _ hqr hqc)]

/-- The loop over all priorities comes to a ready process if there is one. -/
theorem foldlM_higherPriority_ready (hpos : ∀ q ∈ l, q ≠ 0) {best : Nat}
    (hbest : best ≠ 0 → (s.pcb best).state = .ready)
    (hready : best ≠ 0 ∨ ∃ q ∈ l, (s.pcb q).state = .ready) :
    ∃ q, l.foldlM (higherPriority s) best = .ok q ∧ q ≠ 0 ∧ (s.pcb q).state = .ready := by
  induction l generalizing best with
  | nil =>
    have hb : best ≠ 0 := hready.resolve_right fun ⟨q, hq, _⟩ => absurd hq List.not_mem_nil
    exact ⟨best, rfl, hb, hbest hb⟩
  | cons a l ih =>
    obtain ⟨ha, hl⟩ := List.forall_mem_cons.mp hpos
    rw [List.foldlM_cons]
    by_cases hgo : (s.pcb a).state = .ready ∧
        (best = 0 ∨ (s.pcb a).priority < (s.pcb best).priority)
    · have hbody : higherPriority s best a = .ok a := if_pos hgo
      rw [hbody]
      exact ih hl (fun _ => hgo.1) (.inl ha)
    · have hbody : higherPriority s best a = .ok best := if_neg hgo
      rw [hbody]
      refine ih hl hbest ?_
      by_contra hno
      obtain ⟨hb, hno⟩ := not_or.mp hno
      have hb : best = 0 := not_not.mp hb
      obtain ⟨q, hq, hqr⟩ := hready.resolve_left (not_not.mpr hb)
      rcases List.mem_cons.mp hq with rfl | hq
      · exact hgo ⟨hqr, .inl hb⟩
      · exact hno ⟨q, hq, hqr⟩

/-! ## The invariant -/

/-- The states are as the processes were made. -/
structure StatesInv (s : Procs) (ring : List Nat) : Prop where
  procs : ProcInv s ring
  current : s.currentProcess ∈ ring
  running : (s.pcb s.currentProcess).state = .running
  others : ∀ p ∈ ring, p ≠ s.currentProcess → (s.pcb p).state = .ready

theorem StatesInv.onlyRunning (h : StatesInv s ring) : OnlyRunning s := by
  refine ⟨h.procs.listed_iff.mpr h.current, h.running, fun p hp hrun => ?_⟩
  by_contra hne
  have hready := h.others p (h.procs.listed_iff.mp hp) hne
  rw [hrun] at hready
  cases hready

theorem StatesInv.ready_iff (h : StatesInv s ring) :
    (s.pcb p).state = .ready ∧ p ∈ ring ↔ p ∈ ring ∧ p ≠ s.currentProcess := by
  constructor
  · rintro ⟨hready, hp⟩
    refine ⟨hp, ?_⟩
    rintro rfl
    rw [h.running] at hready
    cases hready
  · rintro ⟨hp, hne⟩
    exact ⟨h.others p hp hne, hp⟩

/-- `schedule` leaves the processor alone when nobody on the list is ready. -/
theorem StatesInv.schedule_stays (h : StatesInv s ring) (hno : ∀ q ∈ ring, (s.pcb q).state ≠ .ready)
    (esp ebp : Nat) : schedule s esp ebp = some s := by
  obtain ⟨p, hchoose, hp⟩ := h.procs.chooseProcess_cases h.current
  have hgo : ¬ (p ≠ 0 ∧ (s.pcb p).state = .ready ∧ p ≠ s.currentProcess) :=
    fun hgo => hno p (hp.resolve_left hgo.1) hgo.2.1
  rw [schedule, if_neg (h.procs.processList_ne (List.ne_nil_of_mem h.current)), hchoose]
  exact if_neg hgo

theorem StatesInv.chooseProcess_ready (h : StatesInv s ring) (hp : p ∈ ring)
    (hready : (s.pcb p).state = .ready) :
    ∃ q, chooseProcess s = some q ∧ q ≠ 0 ∧ q ≠ s.currentProcess ∧ (s.pcb q).state = .ready := by
  have hne := (h.ready_iff.mp ⟨hready, hp⟩).2
  have hc := h.procs.pos _ h.current
  obtain ⟨q, hq, hqc, hr⟩ := h.procs.nextReady_ready h.current h.others hp hne
  have hround : some q = some q ∧ q ≠ 0 ∧ q ≠ s.currentProcess ∧ (s.pcb q).state = .ready :=
    ⟨rfl, h.procs.pos q hq, hqc, h.others q hq hqc⟩
  cases htype : s.currentScheduler with
  | roundRobin =>
    refine ⟨q, ?_, hround.2⟩
    simp only [chooseProcess, htype, if_neg hc, hr]
  | fcfs =>
    refine ⟨q, ?_, hround.2⟩
    simp only [chooseProcess, htype, if_neg hc, hr]
  | priority =>
    obtain ⟨r, hr, hr0, hrr⟩ := @foldlM_higherPriority_ready s ring h.procs.pos 0
      (fun h0 => absurd rfl h0) (.inr ⟨p, hp, hready⟩)
    have hlen := h.procs.length_le
    have hlinks := h.procs.links
    have hhead := h.procs.head
    refine ⟨r, ?_, hr0, ?_, hrr⟩
    · cases ring with
      | nil => cases hp
      | cons a l =>
        have ha : s.processList = a := hhead
        simp only [chooseProcess, htype, ha, hlinks.walk_eq (Nat.lt_of_succ_le hlen), hr]
    · rintro rfl
      rw [h.running] at hrr
      cases hrr

/-- With a ready process on the list `schedule` gives it the processor, as it is. -/
theorem StatesInv.schedule_switches (h : StatesInv s ring) (hp : p ∈ ring)
    (hready : (s.pcb p).state = .ready) (esp ebp : Nat) :
    ∃ s', schedule s esp ebp = some s' ∧ (s'.pcb s'.currentProcess).state = .ready := by
  obtain ⟨q, hchoose, h0, hqc, hq⟩ := h.chooseProcess_ready hp hready
  have hc := h.procs.pos _ h.current
  have hswitch : schedule s esp ebp =
      some { s.modify s.currentProcess fun r => { r with esp := esp, ebp := ebp } with
        currentProcess := q } := by
    rw [schedule, if_neg (h.procs.processList_ne (List.ne_nil_of_mem hp)), hchoose]
    refine (if_pos ⟨h0, hq, hqc⟩).trans ?_
    rw [switchProcess, if_neg (not_or.mpr ⟨h0, hqc.symm⟩), if_neg hc]
  refine ⟨_, hswitch, ?_⟩
  simp only [Procs.modify, Function.update_of_ne hqc]
  exact hq

theorem StatesInv.same (h : StatesInv s ring) (hs : SameList s s')
    (hcurrent : s'.currentProcess = s.currentProcess)
    (hstate : ∀ p, (s'.pcb p).state = (s.pcb p).state) : StatesInv s' ring := by
  refine ⟨h.procs.same hs, hcurrent ▸ h.current, ?_, fun p hp hne => ?_⟩
  · rw [hstate, hcurrent]
    exact h.running
  · rw [hcurrent] at hne
    rw [hstate]
    exact h.others p hp hne

theorem StatesInv.create (h : StatesInv s ring) (name : ProcessName) (priority : Nat) :
    ∃ ring', StatesInv (createProcess s name priority).2 ring' := by
  rcases createProcess_cases s name priority with ⟨hg, he⟩ | ⟨-, hr⟩
  · have hcurrent := withProcess_currentProcess s name priority
    have hold : ∀ p ∈ ring, (Process.withProcess s name priority).pcb p = s.pcb p :=
      fun p hp => h.procs.withProcess_old name priority hp
    refine ⟨ring ++ [s.heap.requests + 1], ?_⟩
    rw [he]
    refine ⟨h.procs.withProcess hg name priority, ?_, ?_, fun p hp hne => ?_⟩
    · rw [hcurrent]
      exact List.mem_append_left _ h.current
    · rw [hcurrent, hold _ h.current]
      exact h.running
    · rw [hcurrent] at hne
      rcases List.mem_append.mp hp with hp | hp
      · rw [hold p hp]
        exact h.others p hp hne
      · rw [List.mem_singleton.mp hp, withProcess_new]
        rfl
  · have hsame : ∀ p ∈ ring, (createProcess s name priority).2.pcb p = s.pcb p :=
      fun p hp => hr.pcb p (h.procs.live p hp).le
    refine ⟨ring, h.procs.refused hr, hr.currentProcess ▸ h.current, ?_, fun p hp hne => ?_⟩
    · rw [hr.currentProcess, hsame _ h.current]
      exact h.running
    · rw [hr.currentProcess] at hne
      rw [hsame p hp]
      exact h.others p hp hne

theorem StatesInv.terminate (h : StatesInv s ring) {pid : Nat}
    (hop : ¬ TerminatesCurrent s (.terminate pid)) :
    ∃ ring', StatesInv (procStep s (.terminate pid)) ring' ∧
      (procStep s (.terminate pid)).currentProcess = s.currentProcess := by
  rw [h.procs.terminatesCurrent_iff h.current] at hop
  rcases h.procs.terminateProcess_cases (List.ne_nil_of_mem h.current) pid with
    ⟨h0, pre, x, post, rfl, -, -, hfind, hr⟩ | ⟨-, hr⟩
  · have hend := h.procs.ended
    have hx : s.currentProcess ≠ x := fun he => hop ⟨h0, he ▸ hfind⟩
    rw [procStep, hr, Option.getD_some]
    refine ⟨pre ++ post, ⟨h.procs.endProcess, ?_, ?_, fun p hp hne => ?_⟩, hend.currentProcess⟩
    · rw [hend.currentProcess]
      rcases List.mem_append.mp h.current with hm | hm
      · exact List.mem_append_left _ hm
      · exact List.mem_append_right _ ((List.mem_cons.mp hm).resolve_left hx)
    · rw [hend.currentProcess, hend.pcb _ hx]
      exact h.running
    · obtain ⟨hpx, hpm⟩ := h.procs.other p hp
      rw [hend.currentProcess] at hne
      rw [hend.pcb p hpx]
      exact h.others p hpm hne
  · rw [procStep, hr, Option.getD_some]
    exact ⟨ring, h, rfl⟩

/-- **One step** that does not call `schedule` with a ready process leaves the current
process and the states as they are. -/
theorem StatesInv.step (h : StatesInv s ring) {op : ProcOp} (hlawful : ¬ TerminatesCurrent s op)
    (hop : ¬ FindsReady s op) :
    ∃ ring', StatesInv (procStep s op) ring' ∧
      (procStep s op).currentProcess = s.currentProcess := by
  cases op with
  | create name priority =>
    obtain ⟨ring', h'⟩ := h.create name priority
    refine ⟨ring', h', ?_⟩
    rw [procStep]
    rcases createProcess_cases s name priority with ⟨-, he⟩ | ⟨-, hr⟩
    · rw [he, withProcess_currentProcess]
    · exact hr.currentProcess
  | terminate pid => exact h.terminate hlawful
  | schedule esp ebp =>
    have hno : ∀ q ∈ ring, (s.pcb q).state ≠ .ready :=
      fun q hq hready => hop ⟨q, h.procs.listed_iff.mpr hq, hready⟩
    rw [procStep, h.schedule_stays hno, Option.getD_some]
    exact ⟨ring, h, rfl⟩
  | setScheduler type =>
    exact ⟨ring, h.same ⟨rfl, rfl, rfl, rfl, rfl, fun _ => rfl, fun _ => rfl⟩ rfl fun _ => rfl, rfl⟩

/-- A call of `schedule` with a ready process makes a process the current one that is
not running. -/
theorem StatesInv.not_onlyRunning (h : StatesInv s ring) {op : ProcOp} (hop : FindsReady s op) :
    ¬ OnlyRunning (procStep s op) := by
  cases op with
  | schedule esp ebp =>
    obtain ⟨p, hp, hready⟩ := hop
    obtain ⟨s', hs, hstate⟩ := h.schedule_switches (h.procs.listed_iff.mp hp) hready esp ebp
    intro honly
    rw [procStep, hs, Option.getD_some] at honly
    have hrun := honly.running
    rw [hstate] at hrun
    cases hrun
  | create name priority => exact absurd hop id
  | terminate pid => exact absurd hop id
  | setScheduler type => exact absurd hop id

theorem running_init {heap : BlockHeap} (hg : heap.grants heap.requests = true) :
    ((initProcessManagement (.boot heap)).pcb (heap.requests + 1)).state = .running := by
  simp (disch := decide) only [initProcessManagement, Procs.boot, Procs.clear, Procs.modify,
    addProcessToList, BlockHeap.kmalloc_of_ne_zero, hg, if_true, Nat.succ_ne_zero, if_false,
    Function.update_idem, Function.update_self]

/-- **Running and ready.** In a run from `init_process_management` without a
`terminate_process` for the current process, that process is the only running one in
every state and whoever loses the processor is ready, if and only if the kernel
process got its record and `schedule` never finds a ready process. -/
theorem onlyRunning_iff_no_ready {heap : BlockHeap} (hs : heap.Sane) (ops : List ProcOp)
    (hlawful : Guarded procStep (fun s op => ¬ TerminatesCurrent s op)
      (initProcessManagement (.boot heap)) ops) :
    (Always procStep OnlyRunning (initProcessManagement (.boot heap)) ops ∧
        Guarded procStep LeavesReady (initProcessManagement (.boot heap)) ops) ↔
      heap.grants heap.requests = true ∧
        Guarded procStep (fun s op => ¬ FindsReady s op)
          (initProcessManagement (.boot heap)) ops := by
  rcases ProcInv.init hs with ⟨hno, -, h, -⟩ | ⟨hyes, -, h, hk, -⟩
  · refine ⟨fun ⟨ha, _⟩ => ?_, fun hg => ?_⟩
    · exact absurd (h.listed_iff.mp ha.head.listed) List.not_mem_nil
    · rw [hno] at hg
      cases hg.1
  · rw [and_iff_right hyes]
    have hinv : ∃ ring, StatesInv (initProcessManagement (.boot heap)) ring := by
      refine ⟨_, h, ?_, ?_, fun p hp hne => ?_⟩
      · rw [hk]
        exact List.mem_singleton.mpr rfl
      · rw [hk]
        exact running_init hyes
      · rw [hk] at hne
        exact absurd (List.mem_singleton.mp hp) hne
    have hiff := @always_iff_guarded_within _ _ procStep OnlyRunning
      (fun s op => ¬ FindsReady s op) (fun s => ∃ ring, StatesInv s ring)
      (fun s op => ¬ TerminatesCurrent s op) (fun _ ⟨_, h⟩ => h.onlyRunning)
      (fun _ _ ⟨_, h⟩ hl hop => (h.step hl hop).imp fun _ h' => h'.1)
      (fun _ _ ⟨_, h⟩ _ hop => h.not_onlyRunning (not_not.mp hop)) _ hinv ops hlawful
    refine ⟨fun ⟨ha, _⟩ => hiff.mp ha, fun hg => ⟨hiff.mpr hg, ?_⟩⟩
    refine @Guarded.imp _ _ procStep _ (fun s => ∃ ring, StatesInv s ring) LeavesReady
      (fun s op h hop => ?_) (fun s op h hop hne => ?_) _ hinv _ (hlawful.and hg)
    · obtain ⟨_, h⟩ := h
      exact (h.step hop.1 hop.2).imp fun _ h' => h'.1
    · obtain ⟨_, h⟩ := h
      obtain ⟨-, -, hcurrent⟩ := h.step hop.1 hop.2
      exact absurd hcurrent hne

/-- With a process that is created and a change of the policy. -/
theorem onlyRunning_iff_no_ready_one :
    (Always procStep OnlyRunning (initProcessManagement (.boot roomyHeap))
        [.create kernelName 5, .setScheduler .priority] ∧
      Guarded procStep LeavesReady (initProcessManagement (.boot roomyHeap))
        [.create kernelName 5, .setScheduler .priority]) ↔
      roomyHeap.grants roomyHeap.requests = true ∧
        Guarded procStep (fun s op => ¬ FindsReady s op) (initProcessManagement (.boot roomyHeap))
          [.create kernelName 5, .setScheduler .priority] :=
  onlyRunning_iff_no_ready roomyHeap_sane _ ⟨id, id, trivial⟩

/-- A process is created and gets the processor: it stays ready, and the kernel
process stays running. -/
theorem not_onlyRunning_after_switch :
    ¬ Always procStep OnlyRunning (initProcessManagement (.boot roomyHeap))
        [.create kernelName 5, .schedule 0 0] ∧
      ¬ Guarded procStep LeavesReady (initProcessManagement (.boot roomyHeap))
        [.create kernelName 5, .schedule 0 0] := by
  set s := procStep (initProcessManagement (.boot roomyHeap)) (.create kernelName 5) with hs
  have hcurrent : s.currentProcess = 1 ∧ (procStep s (.schedule 0 0)).currentProcess = 2 := by
    rw [hs]
    exact ⟨by decide, by decide⟩
  have hstates : ((procStep s (.schedule 0 0)).pcb 1).state = .running ∧
      ((procStep s (.schedule 0 0)).pcb 2).state = .ready := by
    rw [hs]
    exact ⟨by decide, by decide⟩
  refine ⟨fun h => ?_, fun h => ?_⟩
  · have honly : OnlyRunning (procStep s (.schedule 0 0)) := h.2.2
    have hrun := honly.running
    rw [hcurrent.2, hstates.2] at hrun
    cases hrun
  · have hleaves : LeavesReady s (.schedule 0 0) := h.2.1
    have hready := hleaves (by rw [hcurrent.1, hcurrent.2]; decide)
    rw [hcurrent.1, hstates.1] at hready
    cases hready

end SynapseKernel.Process
