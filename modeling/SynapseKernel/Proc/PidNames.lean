import SynapseKernel.Proc.Executor
import SynapseKernel.Proc.IdleReuse
import SynapseKernel.Proc.PageDirs

/-! # What a pid names

`create_task` counts pids up and the idle tasks all have pid 0, so until the counter
comes around a pid other than 0 names one task. `/proc/<pid>/status` finds it when it is
current or queued; the executor's pause and resume look through the queues only, and leave
the task alone that is running (`pid_names_one`). -/
namespace SynapseKernel.Proc
open SynapseKernel.Word SynapseKernel.Kheap SynapseKernel.Search

variable {s s' s'' : Sched} {q : Nat → List Nat} {t : Nat} {cpu : RegsContext} {regs : Regs}

/-! ## The counter -/

theorem nextPid_createTask (s : Sched) (entry : Nat) (name : TaskName) (priority : Nat) :
    (createTask s entry name priority).2.nextPid = s.nextPid ∨
      (createTask s entry name priority).2.nextPid = u32 (s.nextPid + 1) := by
  rw [createTask]
  split
  · exact .inl rfl
  · dsimp only
    split
    · exact .inl rfl
    · split
      · exact .inr rfl
      · split
        · exact .inr rfl
        · exact .inr rfl

theorem nextPid_createIdleTask (s : Sched) : (createIdleTask s).2.nextPid = s.nextPid := by
  rw [createIdleTask]
  dsimp only
  split
  · rfl
  · split
    · rfl
    · rfl

theorem nextPid_afterSlice (s : Sched) : (afterSlice s).nextPid = s.nextPid := by
  rw [afterSlice]
  split
  · rfl
  · rfl

theorem nextPid_dispatch (s : Sched) (cpu : RegsContext) (t : Nat) :
    (dispatch s cpu t).nextPid = s.nextPid := by
  simp only [dispatch, switchRecords]
  split
  · split
    · rfl
    · rfl
  · rfl

/-! ## One operation -/

/-- The tasks have the pids they had; one may be new, with pid 0 or the next one. -/
structure PidStep (s s' : Sched) : Prop where
  pid : ∀ t ∈ s.created, (s'.tcb t).pid = (s.tcb t).pid
  added : s'.created = s.created ∧
      (s'.nextPid = s.nextPid ∨ s'.nextPid = u32 (s.nextPid + 1)) ∨
    ∃ t, s'.created = t :: s.created ∧
      ((s'.tcb t).pid = 0 ∧ s'.nextPid = s.nextPid ∨
        (s'.tcb t).pid = s.nextPid ∧ s'.nextPid = u32 (s.nextPid + 1))

/-- Neither tasks nor pids change. -/
structure SamePids (s s' : Sched) : Prop where
  created : s'.created = s.created
  nextPid : s'.nextPid = s.nextPid
  pid : ∀ t ∈ s.created, (s'.tcb t).pid = (s.tcb t).pid

theorem SamePids.refl (s : Sched) : SamePids s s := ⟨rfl, rfl, fun _ _ => rfl⟩

theorem SamePids.trans (h : SamePids s s') (h' : SamePids s' s'') : SamePids s s'' :=
  ⟨h'.created.trans h.created, h'.nextPid.trans h.nextPid, fun t ht =>
    (h'.pid t (h.created ▸ ht)).trans (h.pid t ht)⟩

theorem SamePids.step (h : SamePids s s') : PidStep s s' :=
  ⟨h.pid, .inl ⟨h.created, .inl h.nextPid⟩⟩

theorem PidStep.after (h : SamePids s s') (h' : PidStep s' s'') : PidStep s s'' := by
  refine ⟨fun t ht => (h'.pid t (h.created ▸ ht)).trans (h.pid t ht), ?_⟩
  have hadd := h'.added
  rwa [h.created, h.nextPid] at hadd

theorem PidStep.before (h : PidStep s s') (h' : SamePids s' s'') : PidStep s s'' := by
  have hold : ∀ t ∈ s.created, t ∈ s'.created := fun t ht => by
    rcases h.added with ⟨hc, -⟩ | ⟨u, hc, -⟩
    · exact hc ▸ ht
    · exact hc ▸ List.mem_cons_of_mem u ht
  refine ⟨fun t ht => (h'.pid t (hold t ht)).trans (h.pid t ht), ?_⟩
  rcases h.added with ⟨hc, hn⟩ | ⟨u, hc, hn⟩
  · exact .inl ⟨h'.created.trans hc, h'.nextPid ▸ hn⟩
  · refine .inr ⟨u, h'.created.trans hc, ?_⟩
    rwa [h'.pid u (hc ▸ List.mem_cons_self), h'.nextPid]

theorem pidStep_refused (hi : SchedInv s q) (hr : Refused s s')
    (hn : s'.nextPid = s.nextPid ∨ s'.nextPid = u32 (s.nextPid + 1)) : PidStep s s' :=
  ⟨fun t ht => by rw [hr.tcb t (hi.handed t ht).2], .inl ⟨hr.created, hn⟩⟩

theorem pidStep_withTask (hi : SchedInv s q) (entry : Nat) (name : TaskName) (p : Nat) :
    PidStep s (withTask s entry name p) := by
  have hnew : (withTask s entry name p).tcb (s.heap.requests + 1) = newTask s entry name p :=
    Function.update_self _ _ _
  refine ⟨fun t ht => congrArg Task.pid (hi.update_old ht),
    .inr ⟨_, rfl, .inr ⟨?_, rfl⟩⟩⟩
  rw [hnew]
  rfl

theorem pidStep_withIdleTask (hi : SchedInv s q) : PidStep s (withIdleTask s) := by
  have hnew : (withIdleTask s).tcb (s.heap.requests + 1) = newIdleTask s :=
    Function.update_self _ _ _
  refine ⟨fun t ht => congrArg Task.pid (hi.update_old ht), .inr ⟨_, rfl, .inl ⟨?_, rfl⟩⟩⟩
  rw [hnew]
  rfl

theorem samePids_dispatch (s : Sched) (cpu : RegsContext) (t : Nat) :
    SamePids s (dispatch s cpu t) :=
  ⟨(touches_dispatch s cpu t).created, nextPid_dispatch s cpu t, fun x _ => pid_dispatch s cpu t x⟩

theorem samePids_afterSlice (s : Sched) : SamePids s (afterSlice s) :=
  ⟨(touches_afterSlice s).created, nextPid_afterSlice s, fun t _ => pid_afterSlice s t⟩

theorem pidStep_schedule (h : Sound s) (cpu : RegsContext) : PidStep s (schedule s cpu) := by
  obtain ⟨q, hi, hon⟩ := h
  by_cases h0 : s.currentTask = 0
  · rw [schedule, if_pos h0]
    exact (SamePids.refl s).step
  obtain ⟨q₁, h₁⟩ := exists_afterSlice hi h0 hon
  refine .after (samePids_afterSlice s) ?_
  rcases schedule_cases h0 h₁ cpu with ⟨p, t, rest, -, -, he⟩ | ⟨hempty, -⟩
  · have hpop : SamePids (afterSlice s) (popped (afterSlice s) p t) :=
      ⟨rfl, rfl, fun x _ => pid_popped (afterSlice s) p t x⟩
    rw [he]
    exact (hpop.trans (samePids_dispatch _ cpu t)).step
  · rcases schedule_none h0 h₁ hempty cpu with ⟨-, he⟩ | ⟨-, he, hr⟩
    · rw [he]
      exact (pidStep_withIdleTask h₁).before (samePids_dispatch _ cpu _)
    · exact pidStep_refused h₁ hr (.inl (he ▸ nextPid_createIdleTask _))

theorem samePids_setTaskState (s : Sched) (t : Nat) (state : TaskState) :
    SamePids s (setTaskState s t state) := by
  refine ⟨rfl, rfl, fun x _ => ?_⟩
  refine s.modify_field Task.pid ?_ t x
  exact fun _ => rfl

theorem samePids_releaseCurrent (s : Sched) : SamePids s (releaseCurrent s) := by
  have hzombie : ∀ t, ((s.modify s.currentTask fun x => { x with state := .zombie }).tcb t).pid =
      (s.tcb t).pid := by
    refine s.modify_field Task.pid ?_ s.currentTask
    exact fun _ => rfl
  rcases releaseCurrent_cases s with ⟨-, he⟩ | ⟨b, -, -, he⟩
  · rw [he]
    exact ⟨rfl, rfl, fun t _ => hzombie t⟩
  · rw [he]
    exact ⟨rfl, rfl, fun t _ => hzombie t⟩

theorem pidStep_exit (h : Sound s) (h0 : s.currentTask ≠ 0) (cpu : RegsContext) :
    PidStep s (schedule (releaseCurrent s) cpu) :=
  .after (samePids_releaseCurrent s) (pidStep_schedule (h.releaseCurrent h0) cpu)

theorem pidStep_schedStep (h : Sound s) (op : SchedOp) : PidStep s (schedStep s op) := by
  have hinv := h
  obtain ⟨q, hi, -⟩ := hinv
  cases op with
  | create entry name priority =>
    rcases createTask_cases s entry name priority with ⟨-, -, hc⟩ | ⟨-, -, hr⟩
    · rw [schedStep, hc]
      exact pidStep_withTask hi entry name priority
    · exact pidStep_refused hi hr (nextPid_createTask s entry name priority)
  | fork regs =>
    by_cases h0 : s.currentTask = 0
    · simp only [schedStep, sysForkHandler, if_pos h0]
      exact (SamePids.refl s).step
    · rcases fork_cases h h0 regs with ⟨-, he⟩ | ⟨-, hr⟩
      · rw [he]
        have hsame : SamePids (withTask s regs.eip ⟨"forked", forked_fits⟩
            (s.tcb s.currentTask).priority) (forked s regs) := by
          refine ⟨rfl, rfl, fun x _ => Sched.modify_field Task.pid ?_ _ _ x⟩
          exact fun _ => rfl
        exact (pidStep_withTask hi _ _ _).before hsame
      · refine pidStep_refused hi hr ?_
        simp only [schedStep, sysForkHandler, if_neg h0]
        split
        · exact nextPid_createTask s _ _ _
        · exact nextPid_createTask s _ _ _
  | schedule cpu => exact pidStep_schedule h cpu
  | tick regs cpu =>
    have hsave : SamePids s (atInterrupt s regs) := by
      refine ⟨(sameQueues_atInterrupt s regs).created, ?_, fun t _ => pid_saveInterrupted _ regs t⟩
      obtain ⟨f, -, -, he⟩ :=
        saveInterrupted_eq { s with systemTicks := u32 (s.systemTicks + 1) } regs
      rw [atInterrupt, he]
      rfl
    exact .after hsave (pidStep_schedule (h.atInterrupt regs) cpu)
  | exit cpu =>
    by_cases h0 : s.currentTask = 0
    · simp only [schedStep, taskExit, if_pos h0]
      exact (SamePids.refl s).step
    · rw [schedStep_exit h0]
      exact pidStep_exit h h0 cpu

/-- **Every operation**, those of the executor and of `sleep` included. -/
theorem pidStep_taskStep (h : Sound s) (op : TaskOp) : PidStep s (taskStep s op) := by
  cases op with
  | sched op => exact pidStep_schedStep h op
  | execute action c cpu =>
    show PidStep s ((executeAction s action c cpu).getD s)
    by_cases hk : KillsCurrent s action c
    · rw [executeAction_kill hk cpu]
      exact pidStep_exit h hk.2.2.1 cpu
    · rcases executeAction_cases h hk cpu with ⟨t, state, -, -, -, -, he⟩ | ⟨-, he⟩
      · rw [he]
        exact (samePids_setTaskState s t state).step
      · rw [he]
        exact (SamePids.refl s).step
  | sleep regs =>
    simp only [taskStep, sleepStart]
    split
    · exact (SamePids.refl s).step
    · exact (samePids_setTaskState _ _ _).step
  | sleepRound endTicks cpu =>
    simp only [taskStep, sleepRound]
    split
    · exact pidStep_schedule h cpu
    · split
      · exact (SamePids.refl s).step
      · exact (samePids_setTaskState _ _ _).step

/-! ## Runs -/

/-- After `n` counts the counter has not come around, and a pid other than 0 names one
task. -/
structure PidsNamed (n : Nat) (s : Sched) : Prop where
  sound : Sound s
  pos : 0 < s.nextPid
  le : s.nextPid ≤ n
  below : ∀ t ∈ s.created, (s.tcb t).pid < s.nextPid
  distinct : ∀ t ∈ s.created, ∀ u ∈ s.created, (s.tcb t).pid = (s.tcb u).pid →
    (s.tcb t).pid ≠ 0 → t = u

theorem PidsNamed.step {n : Nat} (h : PidsNamed n s) (hn : n + 1 < 2 ^ 32) (hs : Sound s')
    (hstep : PidStep s s') : PidsNamed (n + 1) s' := by
  have hle := h.le
  have hpos := h.pos
  have hcount : u32 (s.nextPid + 1) = s.nextPid + 1 := u32_of_lt (by omega)
  have hbelow : ∀ t ∈ s.created, (s'.tcb t).pid < s.nextPid := fun t ht => by
    rw [hstep.pid t ht]
    exact h.below t ht
  have hold : ∀ t ∈ s.created, ∀ u ∈ s.created, (s'.tcb t).pid = (s'.tcb u).pid →
      (s'.tcb t).pid ≠ 0 → t = u := fun t ht u hu => by
    rw [hstep.pid t ht, hstep.pid u hu]
    exact h.distinct t ht u hu
  rcases hstep.added with ⟨hc, hnext⟩ | ⟨x, hc, hnext⟩
  · rw [hcount] at hnext
    have hup : s.nextPid ≤ s'.nextPid ∧ s'.nextPid ≤ n + 1 := by omega
    refine ⟨hs, by omega, hup.2, fun t ht => ?_, ?_⟩
    · exact Nat.lt_of_lt_of_le (hbelow t (hc ▸ ht)) hup.1
    · rw [hc]
      exact hold
  · rw [hcount] at hnext
    have hup : s.nextPid ≤ s'.nextPid ∧ s'.nextPid ≤ n + 1 ∧ (s'.tcb x).pid < s'.nextPid := by
      omega
    refine ⟨hs, by omega, hup.2.1, fun t ht => ?_, fun t ht u hu heq h0 => ?_⟩
    · rw [hc] at ht
      rcases List.mem_cons.mp ht with rfl | ht
      · exact hup.2.2
      · exact Nat.lt_of_lt_of_le (hbelow t ht) hup.1
    · rw [hc] at ht hu
      rcases List.mem_cons.mp ht with htx | ht
      · rcases List.mem_cons.mp hu with hux | hu
        · exact htx.trans hux.symm
        · -- the new pid is 0 or above all others
          have hlt := hbelow u hu
          rw [htx] at heq h0
          omega
      · rcases List.mem_cons.mp hu with hux | hu
        · have hlt := hbelow t ht
          rw [hux] at heq
          omega
        · exact hold t ht u hu heq h0

theorem PidsNamed.run {n : Nat} (h : PidsNamed n s) (ops : List TaskOp)
    (hn : n + ops.length < 2 ^ 32) : PidsNamed (n + ops.length) (ops.foldl taskStep s) := by
  induction ops generalizing n s with
  | nil => exact h
  | cons op ops ih =>
    rw [List.length_cons] at hn ⊢
    have h' := h.step (by omega) (h.sound.taskStep op) (pidStep_taskStep h.sound op)
    have hrest := ih h' (by omega)
    rwa [Nat.add_assoc, Nat.add_comm 1] at hrest

theorem nextPid_schedInit (s : Sched) : (schedInit s).nextPid = s.nextPid ∨
    (schedInit s).nextPid = u32 (s.nextPid + 1) := by
  have hidle := nextPid_createIdleTask { s with readyQueue := fun _ => 0 }
  simp only [schedInit]
  split
  · exact .inl hidle
  · split
    · exact (nextPid_createTask _ _ _ _).imp (·.trans hidle) (·.trans (by rw [hidle]))
    · exact (nextPid_createTask _ _ _ _).imp (·.trans hidle) (·.trans (by rw [hidle]))

theorem pidsNamed_schedInit {heap : BlockHeap} (hs : heap.Sane) (i j : Nat) :
    PidsNamed 3 (schedInit (.boot heap i j)) := by
  have hboot := schedInv_boot hs i j
  have hsound := Sound.schedInit hs i j
  set s₀ : Sched := { Sched.boot heap i j with readyQueue := fun _ => 0 }
  have hnone : PidsNamed 1 s₀ := by
    refine ⟨⟨_, hboot, .inl fun p hp => ?_⟩, Nat.one_pos, Nat.le_refl 1, fun t ht => ?_,
      fun t ht => ?_⟩
    · cases hp
    · cases ht
    · cases ht
  have hinv := hboot.queuedIdle rfl
  have hqueued : SamePids (withIdleTask s₀) (queuedIdle s₀) := ⟨rfl, rfl, fun _ _ => rfl⟩
  have hidle : PidsNamed 2 (queuedIdle s₀) :=
    hnone.step (by decide) ⟨_, hinv, .inl fun p hp => (hinv.list p).ne_zero _ hp rfl⟩
      ((pidStep_withIdleTask hboot).before hqueued)
  rcases schedInit_cases (.boot heap i j) with hr | hr | ⟨-, he⟩
  · -- the idle task was refused, too
    have hnext := nextPid_schedInit (.boot heap i j)
    have h := hnone.step (by decide) hsound (pidStep_refused hboot hr hnext)
    exact { h with le := Nat.le_succ_of_le h.le }
  · refine hidle.step (by decide) hsound (pidStep_refused hinv hr ?_)
    exact nextPid_schedInit (.boot heap i j)
  · have hsame : SamePids (withTask (queuedIdle s₀) s₀.initEntry ⟨"init", init_fits⟩ 5)
        (started s₀) := ⟨rfl, rfl, fun _ _ => rfl⟩
    have hstep := (pidStep_withTask hinv s₀.initEntry ⟨"init", init_fits⟩ 5).before hsame
    rw [he] at hsound ⊢
    exact hidle.step (by decide) hsound hstep

/-! ## Looking a pid up -/

/-- The search through the queues finds the one task, if it is queued. -/
theorem PidsNamed.findTask {n : Nat} (h : PidsNamed n s) (ht : t ∈ s.created)
    (h0 : (s.tcb t).pid ≠ 0) :
    (Queued s t → Proc.findTask s (s.tcb t).pid = some (.error t)) ∧
      (¬ Queued s t → Proc.findTask s (s.tcb t).pid = some (.ok ())) := by
  obtain ⟨q, hinv, -⟩ := h.sound
  have hline : ∀ x, x ∈ (List.range maxPriority).flatMap q ↔ Queued s x := fun x => by
    rw [hinv.queued_iff]
    constructor
    · intro hx
      obtain ⟨p, -, hp⟩ := List.mem_flatMap.mp hx
      exact ⟨p, hp⟩
    · rintro ⟨p, hp⟩
      refine List.mem_flatMap.mpr ⟨p, List.mem_range.mpr (not_le.mp fun hle => ?_), hp⟩
      rw [hinv.empty_of_le hle] at hp
      cases hp
  rw [Proc.findTask, hinv.walkQueues_eq]
  rcases foldlM_search (fun x => (s.tcb x).pid = (s.tcb t).pid)
      ((List.range maxPriority).flatMap q) with ⟨pre, x, post, hl, hx, -, hr⟩ | ⟨hno, hr⟩
  · have hmem : x ∈ (List.range maxPriority).flatMap q :=
      hl ▸ List.mem_append_right _ List.mem_cons_self
    obtain ⟨p, hp⟩ := hinv.queued_iff.mp ((hline x).mp hmem)
    have hxt : x = t := (h.distinct t ht x (hinv.queued p x hp) hx.symm h0).symm
    subst hxt
    rw [hr]
    exact ⟨fun _ => rfl, fun hnot => absurd ((hline x).mp hmem) hnot⟩
  · rw [hr]
    exact ⟨fun hyes => absurd rfl (hno t ((hline t).mpr hyes)), fun _ => rfl⟩

theorem PidsNamed.findStatusTask {n : Nat} (h : PidsNamed n s) (ht : t ∈ s.created)
    (h0 : (s.tcb t).pid ≠ 0) :
    (t = s.currentTask ∨ Queued s t → Proc.findStatusTask s (s.tcb t).pid = some t) ∧
      (t ≠ s.currentTask → ¬ Queued s t → Proc.findStatusTask s (s.tcb t).pid = some 0) := by
  obtain ⟨hfound, hgone⟩ := h.findTask ht h0
  have hcurrent : s.currentTask ≠ 0 ∧ (s.tcb s.currentTask).pid = (s.tcb t).pid ↔
      t = s.currentTask := by
    constructor
    · rintro ⟨hne, hpid⟩
      exact h.distinct t ht _ (h.sound.current hne) hpid.symm h0
    · rintro rfl
      obtain ⟨q, hinv, -⟩ := h.sound
      exact ⟨Nat.ne_of_gt (hinv.handed _ ht).1, rfl⟩
  rw [Proc.findStatusTask]
  by_cases hc : t = s.currentTask
  · rw [if_pos (hcurrent.mpr hc)]
    exact ⟨fun _ => by rw [hc], fun hne => absurd hc hne⟩
  · rw [if_neg (mt hcurrent.mp hc)]
    refine ⟨fun hr => ?_, fun _ hno => ?_⟩
    · rw [hfound (hr.resolve_left hc)]
    · rw [hgone hno]

/-- A confirmed pause or resume changes the state of the one task, if it is queued. -/
theorem PidsNamed.execute {n : Nat} (h : PidsNamed n s) (ht : t ∈ s.created)
    (h0 : (s.tcb t).pid ≠ 0) {action : AiAction} {c : Char} {state : TaskState}
    (htype : action.type = .pause ∧ state = .blocked ∨ action.type = .resume ∧ state = .ready)
    (hpid : action.pid = (s.tcb t).pid) (hc : Confirms c) :
    (Queued s t → executeAction s action c cpu = some (setTaskState s t state)) ∧
      (¬ Queued s t → executeAction s action c cpu = some s) := by
  obtain ⟨hfound, hgone⟩ := h.findTask ht h0
  have hset : executeAction s action c cpu = setFoundState s (s.tcb t).pid state := by
    rcases htype with ⟨hp, rfl⟩ | ⟨hp, rfl⟩
    · simp only [executeAction, hp, if_pos hc, hpid]
    · simp only [executeAction, hp, if_pos hc, hpid]
  rw [hset, setFoundState]
  exact ⟨fun hyes => by rw [hfound hyes], fun hno => by rw [hgone hno]⟩

/-- **What a pid names.** In every run of the scheduler, the executor and `sleep` in which
the counter does not come around and no directory is freed twice, a pid other than 0 is that
of one task. Its status file finds the task if and only if it is current or queued; a
confirmed pause or resume of it sets the state if it is queued and does nothing if it is
not, as when it is running. -/
theorem pid_names_one {heap : BlockHeap} (hs : heap.Sane) (idleEntry initEntry : Nat)
    (ops : List TaskOp) (hn : ops.length + 3 < 2 ^ 32) :
    let s := ops.foldl taskStep (schedInit (.boot heap idleEntry initEntry))
    s.freedDirs.Nodup → ∀ t ∈ s.created, (s.tcb t).pid ≠ 0 →
      (∀ u ∈ s.created, (s.tcb u).pid = (s.tcb t).pid → u = t) ∧
      ((t = s.currentTask ∨ Queued s t → findStatusTask s (s.tcb t).pid = some t) ∧
        (t ≠ s.currentTask → ¬ Queued s t → findStatusTask s (s.tcb t).pid = some 0)) ∧
      ∀ (action : AiAction) (c : Char) (cpu : RegsContext) (state : TaskState),
        action.type = .pause ∧ state = .blocked ∨ action.type = .resume ∧ state = .ready →
        action.pid = (s.tcb t).pid → Confirms c →
        (Queued s t → executeAction s action c cpu = some (setTaskState s t state)) ∧
          (¬ Queued s t → executeAction s action c cpu = some s) := by
  intro s _ t ht h0
  have h : PidsNamed (3 + ops.length) s := (pidsNamed_schedInit hs idleEntry initEntry).run ops
    (by omega)
  refine ⟨fun u hu heq => (h.distinct t ht u hu heq.symm h0).symm, h.findStatusTask ht h0,
    fun action c cpu state htype hpid hc => ?_⟩
  exact h.execute ht h0 htype hpid hc

/-- The init task, pid 1, forked and was killed; its child runs. -/
theorem pid_names_one_running :
    let s := [TaskOp.sched (.schedule .zero), .sched (.fork zeroRegs),
      .execute ⟨.kill, 1, [], []⟩ 'y' .zero].foldl taskStep
        (schedInit (.boot grantingHeap 0 0))
    ∀ t ∈ s.created, (s.tcb t).pid ≠ 0 →
      (∀ u ∈ s.created, (s.tcb u).pid = (s.tcb t).pid → u = t) ∧
      ((t = s.currentTask ∨ Queued s t → findStatusTask s (s.tcb t).pid = some t) ∧
        (t ≠ s.currentTask → ¬ Queued s t → findStatusTask s (s.tcb t).pid = some 0)) ∧
      ∀ (action : AiAction) (c : Char) (cpu : RegsContext) (state : TaskState),
        action.type = .pause ∧ state = .blocked ∨ action.type = .resume ∧ state = .ready →
        action.pid = (s.tcb t).pid → Confirms c →
        (Queued s t → executeAction s action c cpu = some (setTaskState s t state)) ∧
          (¬ Queued s t → executeAction s action c cpu = some s) :=
  pid_names_one sane_grantingHeap 0 0 _ (by decide) (by decide)

end SynapseKernel.Proc
