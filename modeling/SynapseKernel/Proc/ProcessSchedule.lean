import SynapseKernel.Lib.Runs
import SynapseKernel.Proc.ProcessRing

/-! # The current process

The loops of `schedule` stop at `current_process` at the latest, so they end as
long as it is in the ring. `terminate_process` does not look at it: if it is the
process found, `current_process` goes on pointing to the freed record. This is the
only way to lose it (`currentOk_iff_not_terminatesCurrent`). -/
namespace SynapseKernel.Process
open SynapseKernel.Word SynapseKernel.Kheap SynapseKernel.Ring SynapseKernel.Search
open SynapseKernel.Runs

variable {s s' : Procs} {ring pre post l : List Nat} {p c x : Nat}

/-- The current process is a live member of the ring, the loop of the round robin
and of first come, first served ends, and `schedule` returns. -/
structure CurrentOk (s : Procs) : Prop where
  member : ∃ ring, IsRing s.next s.prev ring ∧ ring.head? = some s.processList ∧
    s.currentProcess ∈ ring
  live : s.heap.Live s.currentProcess
  ends : ∃ fuel p, nextReady s fuel (s.next s.currentProcess) = some p
  returns : ∀ type esp ebp, ∃ s', schedule (setSchedulerType s type) esp ebp = some s'

/-- The current process has the pid, and no process before it in the list does. -/
def TerminatesCurrent (s : Procs) : ProcOp → Prop
  | .terminate pid => pid ≠ 0 ∧ (s.pcb s.currentProcess).pid = pid ∧
    ∀ i, (∀ j ≤ i, s.next^[j] s.processList ≠ s.currentProcess) →
      (s.pcb (s.next^[i] s.processList)).pid ≠ pid
  | .create _ _ => False
  | .schedule _ _ => False
  | .setScheduler _ => False

/-! ## The loops end -/

/-- From a process of the ring on the loop comes to a ready process or back to the
current one. -/
theorem nextReady_suffix (h : IsRing s.next s.prev (c :: l)) (hc : s.currentProcess = c)
    (he : l = pre ++ post) {fuel : Nat} (hf : post.length < fuel) :
    ∃ p ∈ c :: l, nextReady s fuel (post.headD c) = some p := by
  induction post generalizing pre fuel with
  | nil =>
    cases fuel with
    | zero => exact absurd hf (Nat.not_lt_zero _)
    | succ fuel =>
      refine ⟨c, List.mem_cons_self, ?_⟩
      rw [List.headD_nil, nextReady, if_neg fun hgo => hgo.2 hc.symm]
  | cons y post ih =>
    cases fuel with
    | zero => exact absurd hf (Nat.not_lt_zero _)
    | succ fuel =>
      rw [List.headD_cons, nextReady]
      by_cases hgo : (s.pcb y).state ≠ .ready ∧ y ≠ s.currentProcess
      · have hy : c :: l = (c :: pre) ++ y :: post := by rw [he, List.cons_append]
        rw [if_pos hgo, h.next_eq hy]
        have hl : l = (pre ++ [y]) ++ post := by rw [he, List.append_cons]
        exact ih hl (Nat.lt_of_succ_lt_succ hf)
      · rw [if_neg hgo]
        refine ⟨y, List.mem_cons_of_mem _ ?_, rfl⟩
        rw [he]
        exact List.mem_append_right _ List.mem_cons_self

/-- **The round robin ends**, at a process of the ring. -/
theorem ProcInv.nextReady_cases (h : ProcInv s ring) (hc : s.currentProcess ∈ ring) :
    ∃ p ∈ ring, nextReady s s.heap.requests (s.next s.currentProcess) = some p := by
  obtain ⟨l₁, l₂, rfl⟩ := List.append_of_mem hc
  have hrot : IsRing s.next s.prev (s.currentProcess :: (l₂ ++ l₁)) := h.links.rotate
  have hlen := h.length_le
  have hfuel : (l₂ ++ l₁).length < s.heap.requests := by
    rw [List.length_append, List.length_cons] at hlen
    rw [List.length_append]
    omega
  obtain ⟨p, hp, hr⟩ := nextReady_suffix hrot rfl (List.nil_append _).symm hfuel
  rw [← hrot.next_eq (List.nil_append _).symm] at hr
  refine ⟨p, ?_, hr⟩
  rw [List.mem_append, or_comm]
  exact List.mem_append.mp hp

/-- The loop over all priorities picks from the list. -/
theorem foldlM_higherPriority (s : Procs) (l : List Nat) (best : Nat) :
    ∃ p, l.foldlM (higherPriority s) best = .ok p ∧ (p = best ∨ p ∈ l) := by
  induction l generalizing best with
  | nil => exact ⟨best, rfl, .inl rfl⟩
  | cons a l ih =>
    have hbody : ∃ b, higherPriority s best a = .ok b ∧ (b = best ∨ b = a) := by
      unfold higherPriority
      split
      · exact ⟨a, rfl, .inr rfl⟩
      · exact ⟨best, rfl, .inl rfl⟩
    obtain ⟨b, hb, hba⟩ := hbody
    obtain ⟨p, hp, hpb⟩ := ih b
    rw [List.foldlM_cons, hb]
    refine ⟨p, hp, ?_⟩
    rcases hpb with rfl | hpl
    · rcases hba with rfl | rfl
      · exact .inl rfl
      · exact .inr List.mem_cons_self
    · exact .inr (List.mem_cons_of_mem _ hpl)

theorem ProcInv.chooseProcess_cases (h : ProcInv s ring) (hc : s.currentProcess ∈ ring) :
    ∃ p, chooseProcess s = some p ∧ (p = 0 ∨ p ∈ ring) := by
  have hround := h.nextReady_cases hc
  have hcurrent := h.pos _ hc
  obtain ⟨p, hp, hr⟩ := hround
  cases htype : s.currentScheduler with
  | roundRobin =>
    refine ⟨p, ?_, .inr hp⟩
    simp only [chooseProcess, htype, if_neg hcurrent, hr]
  | fcfs =>
    refine ⟨p, ?_, .inr hp⟩
    simp only [chooseProcess, htype, if_neg hcurrent, hr]
  | priority =>
    obtain ⟨q, hq, hmem⟩ := foldlM_higherPriority s ring 0
    refine ⟨q, ?_, hmem⟩
    have hlen := h.length_le
    have hlinks := h.links
    have hhead := h.head
    cases ring with
    | nil => cases hc
    | cons a l =>
      have ha : s.processList = a := hhead
      simp only [chooseProcess, htype, ha, hlinks.walk_eq (Nat.lt_of_succ_le hlen), hq]

/-- **`schedule` returns**, and the current process is in the ring again. -/
theorem ProcInv.schedule_cases (h : ProcInv s ring) (hc : s.currentProcess ∈ ring)
    (esp ebp : Nat) : ∃ s', schedule s esp ebp = some s' ∧ s'.currentProcess ∈ ring := by
  obtain ⟨p, hchoose, hp⟩ := h.chooseProcess_cases hc
  have hlist := h.processList_ne (List.ne_nil_of_mem hc)
  rw [schedule, if_neg hlist, hchoose]
  by_cases hgo : p ≠ 0 ∧ (s.pcb p).state = .ready ∧ p ≠ s.currentProcess
  · obtain ⟨h0, -, hne⟩ := id hgo
    have hswitch : switchProcess s p esp ebp =
        some { s.modify s.currentProcess fun q => { q with esp := esp, ebp := ebp } with
          currentProcess := p } := by
      rw [switchProcess, if_neg (not_or.mpr ⟨h0, hne.symm⟩), if_neg (h.pos _ hc)]
    exact ⟨_, (if_pos hgo).trans hswitch, hp.resolve_left h0⟩
  · exact ⟨s, if_neg hgo, hc⟩

theorem ProcInv.currentOk (h : ProcInv s ring) (hc : s.currentProcess ∈ ring) : CurrentOk s := by
  obtain ⟨p, -, hr⟩ := h.nextReady_cases hc
  refine ⟨⟨ring, h.links, ?_, hc⟩, h.live _ hc, ⟨_, p, hr⟩, fun type esp ebp => ?_⟩
  · rw [h.head]
    cases ring with
    | nil => cases hc
    | cons a l => rfl
  · have h' : ProcInv (setSchedulerType s type) ring :=
      h.same ⟨rfl, rfl, rfl, rfl, rfl, fun _ => rfl, fun _ => rfl⟩
    obtain ⟨s', hs, -⟩ := h'.schedule_cases hc esp ebp
    exact ⟨s', hs⟩

/-! ## Losing the current process -/

/-- The processes before `x` are met before `x`. -/
theorem ProcInv.iterate_before (h : ProcInv s (pre ++ x :: post)) :
    (∀ j < pre.length, s.next^[j] s.processList ∈ pre) ∧
      s.next^[pre.length] s.processList = x := by
  have hat : ∀ {k y : Nat}, (pre ++ x :: post)[k]? = some y → s.next^[k] s.processList = y := by
    intro k y hk
    have hhead := h.head
    have hlinks := h.links
    generalize pre ++ x :: post = r at hk hhead hlinks
    cases r with
    | nil => cases hk
    | cons a l =>
      rw [hhead]
      exact hlinks.iterate_eq hk
  refine ⟨fun j hj => ?_, hat ?_⟩
  · have hget : (pre ++ x :: post)[j]? = some pre[j] := by
      rw [List.getElem?_append_left hj, List.getElem?_eq_getElem hj]
    rw [hat hget]
    exact List.getElem_mem hj
  · rw [List.getElem?_append_right (Nat.le_refl _), Nat.sub_self, List.getElem?_cons_zero]

/-- The condition is about what the search of `terminate_process` finds. -/
theorem ProcInv.terminatesCurrent_iff (h : ProcInv s ring) (hc : s.currentProcess ∈ ring)
    (pid : Nat) : TerminatesCurrent s (.terminate pid) ↔
      pid ≠ 0 ∧ findProcess s pid = some (.error s.currentProcess) := by
  refine and_congr_right fun _ => ?_
  rcases h.findProcess_cases (List.ne_nil_of_mem hc) pid with
    ⟨pre, x, post, rfl, hx, hpre, hr⟩ | ⟨hno, hr⟩
  · obtain ⟨hbefore, hat⟩ := h.iterate_before
    rw [hr]
    constructor
    · intro ⟨hpid, hfirst⟩
      by_contra hne
      have hxc : x ≠ s.currentProcess := fun he => hne (by rw [he])
      -- otherwise `x` comes first
      refine hfirst pre.length (fun j hj he => ?_) (hat ▸ hx)
      rcases Nat.lt_or_eq_of_le hj with hj | rfl
      · exact hpre _ (he ▸ hbefore j hj) hpid
      · exact hxc (hat.symm.trans he)
    · intro he
      have hxc : x = s.currentProcess := Except.error.inj (Option.some.inj he)
      refine ⟨hxc ▸ hx, fun i hi => ?_⟩
      by_cases hlt : i < pre.length
      · exact hpre _ (hbefore i hlt)
      · exact absurd (hat.trans hxc) (hi _ (Nat.le_of_not_lt hlt))
  · rw [hr]
    exact ⟨fun hf => absurd hf.1 (hno _ hc), fun he => (nomatch he)⟩

/-- The invariant. -/
def CurrentInv (s : Procs) : Prop := ∃ ring, ProcInv s ring ∧ s.currentProcess ∈ ring

/-- **One step** that does not terminate the current process keeps it in the ring. -/
theorem CurrentInv.step (h : CurrentInv s) {op : ProcOp} (hop : ¬ TerminatesCurrent s op) :
    CurrentInv (procStep s op) := by
  obtain ⟨ring, h, hc⟩ := h
  cases op with
  | create name priority =>
    rcases createProcess_cases s name priority with ⟨hg, he⟩ | ⟨-, hr⟩
    · rw [procStep, he]
      refine ⟨_, h.withProcess hg name priority, ?_⟩
      rw [withProcess_currentProcess]
      exact List.mem_append_left _ hc
    · refine ⟨ring, h.refused hr, ?_⟩
      rw [procStep, hr.currentProcess]
      exact hc
  | terminate pid =>
    rw [h.terminatesCurrent_iff hc] at hop
    rcases h.terminateProcess_cases (List.ne_nil_of_mem hc) pid with
      ⟨h0, pre, x, post, rfl, -, -, hfind, hr⟩ | ⟨-, hr⟩
    · rw [procStep, hr]
      refine ⟨_, h.endProcess, ?_⟩
      have hx : s.currentProcess ≠ x := fun he => hop ⟨h0, he ▸ hfind⟩
      rw [Option.getD_some, h.ended.currentProcess]
      rcases List.mem_append.mp hc with hm | hm
      · exact List.mem_append_left _ hm
      · exact List.mem_append_right _ ((List.mem_cons.mp hm).resolve_left hx)
    · rw [procStep, hr]
      exact ⟨ring, h, hc⟩
  | schedule esp ebp =>
    obtain ⟨s', hs, hc'⟩ := h.schedule_cases hc esp ebp
    rw [procStep, hs]
    exact ⟨ring, h.same (sameList_schedule hs), hc'⟩
  | setScheduler type =>
    exact ⟨ring, h.same ⟨rfl, rfl, rfl, rfl, rfl, fun _ => rfl, fun _ => rfl⟩, hc⟩

/-- Terminating the current process leaves a pointer to a freed record. -/
theorem CurrentInv.not_currentOk (h : CurrentInv s) {op : ProcOp} (hop : TerminatesCurrent s op) :
    ¬ CurrentOk (procStep s op) := by
  obtain ⟨ring, h, hc⟩ := h
  cases op with
  | terminate pid =>
    obtain ⟨h0, hfind⟩ := (h.terminatesCurrent_iff hc pid).mp hop
    have hstep : procStep s (.terminate pid) = endProcess s s.currentProcess := by
      rw [procStep, terminateProcess, if_neg h0, hfind]
      rfl
    obtain ⟨pre, post, he⟩ := List.append_of_mem hc
    rw [he] at h
    intro hok
    have hlive := hok.live
    rw [hstep, h.ended.currentProcess] at hlive
    exact h.ended.freed hlive
  | create name priority => exact absurd hop id
  | schedule esp ebp => exact absurd hop id
  | setScheduler type => exact absurd hop id

/-- **The current process.** In a run from `init_process_management` it is a live
member of the ring in every state, and the loops of `schedule` end, if and only if
the kernel process got its record and no `terminate_process` is for a pid of which
the current process is the first. -/
theorem currentOk_iff_not_terminatesCurrent {heap : BlockHeap} (hs : heap.Sane)
    (ops : List ProcOp) :
    Always procStep CurrentOk (initProcessManagement (.boot heap)) ops ↔
      heap.grants heap.requests = true ∧
        Guarded procStep (fun s op => ¬ TerminatesCurrent s op)
          (initProcessManagement (.boot heap)) ops := by
  rcases ProcInv.init hs with ⟨hno, -, -, h0⟩ | ⟨hyes, -, h, hk, -⟩
  · refine ⟨fun ha => ?_, fun hg => ?_⟩
    · have hpos := ha.head.live.pos
      rw [h0] at hpos
      exact absurd hpos (Nat.lt_irrefl 0)
    · rw [hno] at hg
      cases hg.1
  · rw [and_iff_right hyes]
    refine always_iff_guarded CurrentInv (fun _ ⟨_, h, hc⟩ => h.currentOk hc)
      (fun _ _ h hop => h.step hop) (fun _ _ h hop => h.not_currentOk (not_not.mp hop)) ?_ ops
    refine ⟨_, h, ?_⟩
    rw [hk]
    exact List.mem_singleton.mpr rfl

/-- With a process that is created and gets the processor. -/
theorem currentOk_iff_not_terminatesCurrent_one :
    Always procStep CurrentOk (initProcessManagement (.boot roomyHeap))
      [.create kernelName 5, .schedule 0 0] ↔
    roomyHeap.grants roomyHeap.requests = true ∧
      Guarded procStep (fun s op => ¬ TerminatesCurrent s op)
        (initProcessManagement (.boot roomyHeap)) [.create kernelName 5, .schedule 0 0] :=
  currentOk_iff_not_terminatesCurrent roomyHeap_sane _

/-- A process is created, gets the processor and is terminated while it runs. -/
def strayCurrent : Procs :=
  [.create kernelName 5, .schedule 0 0, .terminate 1].foldl procStep
    (initProcessManagement (.boot roomyHeap))

/-- Its record still leads to the kernel process, which is alone and not ready. -/
theorem strayCurrent_links :
    strayCurrent.currentProcess = 2 ∧ strayCurrent.next 2 = 1 ∧ strayCurrent.next 1 = 1 ∧
      (strayCurrent.pcb 1).state = .running ∧ 2 ∈ strayCurrent.heap.freed :=
  ⟨by decide, by decide, by decide, by decide, by decide⟩

/-- The next call of `schedule` does not leave its loop. -/
theorem nextReady_strayCurrent (fuel : Nat) : nextReady strayCurrent fuel 1 = none := by
  obtain ⟨hc, -, hn, hs, -⟩ := strayCurrent_links
  induction fuel with
  | zero => rfl
  | succ fuel ih =>
    have hgo : (strayCurrent.pcb 1).state ≠ .ready ∧ 1 ≠ strayCurrent.currentProcess := by
      rw [hs, hc]
      decide
    rw [nextReady, if_pos hgo, hn]
    exact ih

theorem not_currentOk_strayCurrent :
    ¬ Always procStep CurrentOk (initProcessManagement (.boot roomyHeap))
        [.create kernelName 5, .schedule 0 0, .terminate 1] ∧
      ∀ fuel, nextReady strayCurrent fuel (strayCurrent.next strayCurrent.currentProcess) =
        none := by
  obtain ⟨hc, hn, -, -, hfreed⟩ := strayCurrent_links
  refine ⟨fun h => ?_, fun fuel => ?_⟩
  · have hok : CurrentOk strayCurrent := h.2.2.2
    have hlive := hok.live
    rw [hc] at hlive
    exact hlive.kept hfreed
  · rw [hc, hn]
    exact nextReady_strayCurrent fuel

end SynapseKernel.Process
