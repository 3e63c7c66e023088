import SynapseKernel.Lib.Runs
import SynapseKernel.Proc.SchedStep

/-! # Runs of the scheduler

The operations that reach the scheduler, in any order and with any arguments,
from the state `sched_init` leaves. `Sound.step` says that the queues stay
well formed through all of them. -/
namespace SynapseKernel.Proc
open SynapseKernel.Word SynapseKernel.Kheap SynapseKernel.Links SynapseKernel.Runs

variable {s s' : Sched} {q : Nat → List Nat} {p t : Nat} {cpu : RegsContext} {regs : Regs}

/-- An operation, with the registers of the interrupted code and those at the
call of `switch_to`. -/
inductive SchedOp
  | create (entry : Nat) (name : TaskName) (priority : Nat)
  | fork (regs : Regs)
  | schedule (cpu : RegsContext)
  | tick (regs : Regs) (cpu : RegsContext)
  | exit (cpu : RegsContext)

/-- An operation that would read through `NULL` is not carried out. -/
def schedStep (s : Sched) : SchedOp → Sched
  | .create entry name priority => (createTask s entry name priority).2
  | .fork regs => ((sysForkHandler s regs).map Prod.snd).getD s
  | .schedule cpu => schedule s cpu
  | .tick regs cpu => timerInterruptHandler s regs cpu
  | .exit cpu => (taskExit s cpu).getD s

/-! ## sched_init -/

/-- The idle task is made and queued. -/
def queuedIdle (s : Sched) : Sched :=
  { withIdleTask s with
    readyQueue := Function.update s.readyQueue 0 (s.heap.requests + 1) }

/-- What a `sched_init` leaves that is refused nothing. -/
def started (s : Sched) : Sched :=
  { withTask (queuedIdle s) s.initEntry ⟨"init", init_fits⟩ 5 with
    currentTask := s.heap.requests + 1 }

/-- Everything `sched_init` can do. -/
theorem schedInit_cases (s : Sched) :
    let s₀ : Sched := { s with readyQueue := fun _ => 0 }
    Refused s₀ (schedInit s) ∨ Refused (queuedIdle s₀) (schedInit s) ∨
      (queuedIdle s₀).heap.GrantsNext 3 ∧ schedInit s = started s₀ := by
  intro s₀
  rcases createIdleTask_cases s₀ with ⟨-, hidle⟩ | ⟨-, hnull, hr⟩
  · have htail : schedInit s =
        if (createTask (queuedIdle s₀) s.initEntry ⟨"init", init_fits⟩ 5).1 = 0 then
          (createTask (queuedIdle s₀) s.initEntry ⟨"init", init_fits⟩ 5).2
        else { (createTask (queuedIdle s₀) s.initEntry ⟨"init", init_fits⟩ 5).2 with
          readyQueue := Function.update
            (createTask (queuedIdle s₀) s.initEntry ⟨"init", init_fits⟩ 5).2.readyQueue 5
            (createTask (queuedIdle s₀) s.initEntry ⟨"init", init_fits⟩ 5).1
          currentTask := s₀.heap.requests + 1 } := by
      simp only [schedInit]
      rw [hidle, if_neg (Nat.succ_ne_zero _)]
      rfl
    rcases createTask_cases (queuedIdle s₀) s.initEntry ⟨"init", init_fits⟩ 5 with
      ⟨-, hg, hc⟩ | ⟨-, hc, hr⟩
    · rw [hc, if_neg (Nat.succ_ne_zero _)] at htail
      refine .inr (.inr ⟨hg, htail.trans ?_⟩)
      simp only [withTask, Function.update_idem, started]
      rfl
    · rw [if_pos hc] at htail
      exact .inr (.inl (htail ▸ hr))
  · have hfail : schedInit s = (createIdleTask s₀).2 := by
      simp only [schedInit]
      exact if_pos hnull
    exact .inl (hfail ▸ hr)

theorem schedInv_boot {heap : BlockHeap} (hs : heap.Sane) (i j : Nat) :
    SchedInv { Sched.boot heap i j with readyQueue := fun _ => 0 } fun _ => [] := by
  refine ⟨⟨fun _ => rfl, fun _ t ht => ?_⟩, hs, fun _ t ht => ?_, fun t ht => ?_, fun t ht => ?_,
    .inl rfl⟩
  all_goals cases ht

theorem SchedInv.queuedIdle (h : SchedInv s q) (hq : s.readyQueue 0 = 0) :
    SchedInv (queuedIdle s) (Function.update q 0 ((s.heap.requests + 1) :: q 0)) := by
  have hidle := h.withIdleTask
  have hnew : (Proc.withIdleTask s).tcb (s.heap.requests + 1) = newIdleTask s :=
    Function.update_self _ _ _
  refine ⟨hidle.toQueues.push (Nat.succ_ne_zero _) h.fresh_off rfl ?_ ?_ fun _ _ => rfl,
    hidle.sane, fun p t ht => ?_, hidle.handed, hidle.fit, hidle.current⟩
  · exact (congrArg Task.siblingNext hnew).trans hq.symm
  · exact congrArg Task.priority hnew
  · by_cases hp : p = 0
    · subst hp
      rw [Function.update_self] at ht
      rcases List.mem_cons.mp ht with rfl | ht
      · exact List.mem_cons_self
      · exact hidle.queued 0 t ht
    · rw [Function.update_of_ne hp] at ht
      exact hidle.queued p t ht

theorem queuedIdle_ne (s : Sched) : s.heap.requests + 1 ≠ (queuedIdle s).heap.requests + 1 := by
  have hreq : (queuedIdle s).heap.requests = s.heap.requests + 2 := rfl
  omega

/-- The idle task after `sched_init`. -/
theorem started_idle (s : Sched) : (started s).tcb (s.heap.requests + 1) = newIdleTask s := by
  have hidle : (queuedIdle s).tcb (s.heap.requests + 1) = newIdleTask s :=
    Function.update_self _ _ _
  exact (Function.update_of_ne (queuedIdle_ne s) _ _).trans hidle

/-- The queues after `sched_init`: idle at priority 0, init at 5. -/
def startedQueues (s : Sched) : Nat → List Nat :=
  Function.update (Function.update (fun _ => []) 0 [s.heap.requests + 1]) 5
    [s.heap.requests + 3]

theorem SchedInv.started (h : SchedInv s fun _ => []) (hq : s.readyQueue 0 = 0) :
    SchedInv (started s) (startedQueues s) ∧ AtBoot (started s) (startedQueues s) := by
  have hinit := (h.queuedIdle hq).withTask s.initEntry ⟨"init", init_fits⟩ (by decide : 5 < maxPriority)
  refine ⟨hinit.congr hinit.sane rfl rfl rfl rfl (.inr ?_), ?_, ?_, ?_⟩
  · exact List.mem_cons_of_mem _ List.mem_cons_self
  · exact List.mem_cons_self
  · exact congrArg Task.timeSlice (started_idle s)
  · exact List.cons_ne_nil _ _

/-! ## The queues through a run -/

/-- The scheduler's data is in order. -/
def Sound (s : Sched) : Prop := ∃ q, SchedInv s q ∧ (Off s q ∨ AtBoot s q)

theorem AtBoot.congr (h : AtBoot s q) (hc : s'.currentTask = s.currentTask)
    (hs : (s'.tcb s.currentTask).timeSlice = (s.tcb s.currentTask).timeSlice) : AtBoot s' q := by
  refine ⟨?_, ?_, h.init⟩
  · rw [hc]
    exact h.idle
  · rw [hc, hs]
    exact h.slice

theorem Off.congr (h : Off s q) (hc : s'.currentTask = s.currentTask) : Off s' q := by
  intro p
  rw [hc]
  exact h p

theorem Sound.schedInit {heap : BlockHeap} (hs : heap.Sane) (i j : Nat) :
    Sound (schedInit (.boot heap i j)) := by
  have hboot := schedInv_boot hs i j
  rcases schedInit_cases (.boot heap i j) with hr | hr | ⟨-, he⟩
  · refine ⟨_, hboot.refused hr, .inl fun p hp => ?_⟩
    cases hp
  · have hidle := hboot.queuedIdle rfl
    refine ⟨_, hidle.refused hr, .inl fun p hp => ?_⟩
    rw [hr.currentTask] at hp
    exact ((hidle.refused hr).list p).ne_zero 0 hp rfl
  · rw [he]
    exact ⟨_, (hboot.started rfl).1, .inr (hboot.started rfl).2⟩

theorem Sound.refused (h : Sound s) (hr : Refused s s') : Sound s' := by
  obtain ⟨q, h, hon⟩ := h
  refine ⟨q, h.refused hr, hon.imp (·.congr hr.currentTask) fun hb => hb.congr hr.currentTask ?_⟩
  rw [hr.tcb _ (h.handed _ (h.queued 0 _ hb.idle)).2]

theorem SchedInv.current_ne (h : SchedInv s q) : s.currentTask ≠ s.heap.requests + 1 := by
  rcases h.current with h0 | hm
  · omega
  · have := (h.handed _ hm).2
    omega

theorem subset_push (q : Nat → List Nat) (p x r : Nat) :
    q r ⊆ Function.update q p (x :: q p) r := by
  intro y hy
  by_cases hr : r = p
  · subst hr
    rw [Function.update_self]
    exact List.mem_cons_of_mem _ hy
  · rw [Function.update_of_ne hr]
    exact hy

theorem Off.withTask (hoff : Off s q) (h : SchedInv s q) (entry : Nat) (name : TaskName) :
    Off (withTask s entry name p) (Function.update q p ((s.heap.requests + 1) :: q p)) := by
  intro r hr
  have hcur : (Proc.withTask s entry name p).currentTask = s.currentTask := rfl
  rw [hcur] at hr
  by_cases hrp : r = p
  · subst hrp
    rw [Function.update_self] at hr
    exact (List.mem_cons.mp hr).elim h.current_ne (hoff r)
  · rw [Function.update_of_ne hrp] at hr
    exact hoff r hr

theorem AtBoot.withTask (hb : AtBoot s q) (h : SchedInv s q) (entry : Nat) (name : TaskName) :
    AtBoot (withTask s entry name p) (Function.update q p ((s.heap.requests + 1) :: q p)) := by
  refine ⟨subset_push q p _ 0 hb.idle, ?_, fun hnil => hb.init ?_⟩
  · exact (congrArg Task.timeSlice (Function.update_of_ne h.current_ne _ _)).trans hb.slice
  · exact List.subset_nil.mp (hnil ▸ subset_push q p _ 5)

theorem Sound.withTask (h : Sound s) (entry : Nat) (name : TaskName) (hp : p < maxPriority) :
    Sound (withTask s entry name p) := by
  obtain ⟨q, h, hon⟩ := h
  exact ⟨_, h.withTask entry name hp,
    hon.imp (·.withTask h entry name) (·.withTask h entry name)⟩

theorem Sound.modify (h : Sound s) {task : Nat} {f : Task → Task} (hf : Inert f)
    (hd : task ∈ s.created → ∀ b, (f (s.tcb task)).pageDir = .heap b →
      0 < b ∧ b ≤ s.heap.requests) : Sound (s.modify task f) := by
  obtain ⟨q, h, hon⟩ := h
  refine ⟨q, h.inert hf hd, hon.imp (·.congr rfl) (·.congr rfl ?_)⟩
  exact s.modify_field _ hf.timeSlice task _

theorem Sound.congr (h : Sound s) (hsane : s'.heap.Sane)
    (hreq : s'.heap.requests = s.heap.requests) (htcb : s'.tcb = s.tcb)
    (hqueue : s'.readyQueue = s.readyQueue) (hcreated : s'.created = s.created)
    (hcurrent : s'.currentTask = s.currentTask) : Sound s' := by
  obtain ⟨q, h, hon⟩ := h
  refine ⟨q, h.congr hsane hreq htcb hqueue hcreated (hcurrent ▸ h.current), ?_⟩
  exact hon.imp (·.congr hcurrent) fun hb => hb.congr hcurrent (by rw [htcb])

/-- After a call of `schedule` the current task is in no queue. -/
theorem schedule_off (h : SchedInv s q) (h0 : s.currentTask ≠ 0)
    (hon : Off s q ∨ AtBoot s q) (cpu : RegsContext) :
    ∃ q', SchedInv (schedule s cpu) q' ∧ Off (schedule s cpu) q' := by
  obtain ⟨q₁, h₁⟩ := exists_afterSlice h h0 hon
  rcases schedule_cases h0 h₁ cpu with ⟨p, t, rest, hq, -, he⟩ | ⟨hempty, he | hr⟩
  · have ht : t ∈ (afterSlice s).created := h₁.queued p t (hq ▸ List.mem_cons_self)
    refine ⟨_, he ▸ (h₁.popped hq).dispatch ht, fun r => ?_⟩
    rw [he, currentTask_dispatch]
    exact h₁.toQueues.popped_off hq r
  · have hidle : SchedInv (dispatch (withIdleTask (afterSlice s)) cpu
        ((afterSlice s).heap.requests + 1)) q₁ := h₁.withIdleTask.dispatch List.mem_cons_self
    rw [(touches_afterSlice s).heap] at hidle
    refine ⟨q₁, he ▸ hidle, fun r hr => ?_⟩
    rw [hempty] at hr
    cases hr
  · refine ⟨q₁, h₁.refused hr, fun r hr => ?_⟩
    rw [hempty] at hr
    cases hr

theorem Sound.schedule (h : Sound s) (cpu : RegsContext) : Sound (schedule s cpu) := by
  obtain ⟨q, hinv, hon⟩ := h
  by_cases h0 : s.currentTask = 0
  · rw [Proc.schedule, if_pos h0]
    exact ⟨q, hinv, hon⟩
  · obtain ⟨q', hinv', hoff⟩ := schedule_off hinv h0 hon cpu
    exact ⟨q', hinv', .inl hoff⟩

theorem Sound.current (h : Sound s) (h0 : s.currentTask ≠ 0) : s.currentTask ∈ s.created := by
  obtain ⟨q, hinv, -⟩ := h
  exact hinv.current.resolve_left h0

theorem Sound.fit (h : Sound s) (ht : t ∈ s.created) : Fit s.heap.requests (s.tcb t) := by
  obtain ⟨q, hinv, -⟩ := h
  exact hinv.fit t ht

theorem Sound.sane (h : Sound s) : s.heap.Sane := by
  obtain ⟨q, hinv, -⟩ := h
  exact hinv.sane

/-! ### Each operation -/

/-- A fork that is granted its three blocks. -/
def forked (s : Sched) (regs : Regs) : Sched :=
  (withTask s regs.eip ⟨"forked", forked_fits⟩ (s.tcb s.currentTask).priority).modify
    (s.heap.requests + 1) (inherit (s.tcb s.currentTask) regs)

/-- Everything `fork` can do with a current task. -/
theorem fork_cases (h : Sound s) (h0 : s.currentTask ≠ 0) (regs : Regs) :
    (s.heap.GrantsNext 3 ∧ schedStep s (.fork regs) = forked s regs) ∨
    (¬ s.heap.GrantsNext 3 ∧ Refused s (schedStep s (.fork regs))) := by
  have hlow := (h.fit (h.current h0)).low
  rcases createTask_cases s regs.eip ⟨"forked", forked_fits⟩ (s.tcb s.currentTask).priority with
    ⟨-, hg, hc⟩ | ⟨hno, hc, hr⟩
  · refine .inl ⟨hg, ?_⟩
    simp only [schedStep, sysForkHandler, if_neg h0]
    rw [hc, if_neg (Nat.succ_ne_zero _)]
    rfl
  · refine .inr ⟨fun hg => hno ⟨hlow, hg⟩, ?_⟩
    simp only [schedStep, sysForkHandler, if_neg h0]
    rw [if_pos hc]
    exact hr

theorem inert_inherit (parent : Task) (regs : Regs) : Inert (inherit parent regs) :=
  ⟨fun _ => rfl, fun _ => rfl, fun _ => rfl⟩

/-- The child's page directory is the parent's. -/
theorem SchedInv.forked (h : SchedInv s q) (hm : s.currentTask ∈ s.created) (regs : Regs) :
    SchedInv (forked s regs) (Function.update q (s.tcb s.currentTask).priority
      ((s.heap.requests + 1) :: q (s.tcb s.currentTask).priority)) := by
  have hfit := h.fit _ hm
  refine (h.withTask regs.eip _ hfit.low).inert (inert_inherit _ regs) fun _ b hb => ?_
  obtain ⟨hpos, hle⟩ := hfit.dir b hb
  exact ⟨hpos, Nat.le_trans hle (Nat.le_add_right _ 3)⟩

theorem Sound.create (h : Sound s) (entry : Nat) (name : TaskName) (priority : Nat) :
    Sound (createTask s entry name priority).2 := by
  rcases createTask_cases s entry name priority with ⟨hp, -, hc⟩ | ⟨-, -, hr⟩
  · rw [hc]
    exact h.withTask entry name hp
  · exact h.refused hr

theorem Sound.fork (h : Sound s) (regs : Regs) : Sound (schedStep s (.fork regs)) := by
  by_cases h0 : s.currentTask = 0
  · simp only [schedStep, sysForkHandler, if_pos h0]
    exact h
  · rcases fork_cases h h0 regs with ⟨-, he⟩ | ⟨-, hr⟩
    · have hm := h.current h0
      obtain ⟨q, hinv, hon⟩ := h
      rw [he]
      refine ⟨_, hinv.forked hm regs, hon.imp (fun hoff => ?_) fun hb => ?_⟩
      · exact (hoff.withTask hinv regs.eip ⟨"forked", forked_fits⟩).congr rfl
      · exact (hb.withTask hinv regs.eip ⟨"forked", forked_fits⟩).congr rfl
          (Sched.modify_field _ (inert_inherit _ regs).timeSlice _ _ _)
    · exact h.refused hr

theorem saveInterrupted_eq (s : Sched) (regs : Regs) :
    ∃ f, Inert f ∧ (∀ x, (f x).pageDir = x.pageDir) ∧
      saveInterrupted s regs = s.modify s.currentTask f := by
  rw [saveInterrupted]
  split
  · refine ⟨_, ?_, ?_, rfl⟩
    · exact ⟨fun _ => rfl, fun _ => rfl, fun _ => rfl⟩
    · exact fun _ => rfl
  · refine ⟨id, ⟨fun _ => rfl, fun _ => rfl, fun _ => rfl⟩, fun _ => rfl, ?_⟩
    simp only [Sched.modify, id_eq, Function.update_eq_self]

theorem Sound.saveInterrupted (h : Sound s) (regs : Regs) :
    Sound (saveInterrupted { s with systemTicks := u32 (s.systemTicks + 1) } regs) := by
  have hticks : Sound { s with systemTicks := u32 (s.systemTicks + 1) } :=
    h.congr h.sane rfl rfl rfl rfl rfl
  obtain ⟨f, hf, hdir, he⟩ :=
    saveInterrupted_eq { s with systemTicks := u32 (s.systemTicks + 1) } regs
  rw [he]
  exact hticks.modify hf fun hm b hb => (h.fit hm).dir b ((hdir _).symm.trans hb)

/-- The handler's own stores are to `system_ticks` and to the saved registers of
the current task. -/
theorem timerInterruptHandler_eq (s : Sched) (regs : Regs) :
    ∃ f, Inert f ∧ (∀ x, (f x).pageDir = x.pageDir) ∧ ∀ cpu, timerInterruptHandler s regs cpu =
      schedule ({ s with systemTicks := u32 (s.systemTicks + 1) }.modify s.currentTask f) cpu := by
  obtain ⟨f, hf, hdir, he⟩ :=
    saveInterrupted_eq { s with systemTicks := u32 (s.systemTicks + 1) } regs
  refine ⟨f, hf, hdir, fun cpu => ?_⟩
  rw [timerInterruptHandler, he]

/-- A timer interrupt is a call of `schedule` in a state that has the same tasks. -/
theorem Sound.interrupted (h : Sound s) (regs : Regs) :
    ∃ s₁, Sound s₁ ∧ Touches s s₁ ∧
      ∀ cpu, timerInterruptHandler s regs cpu = Proc.schedule s₁ cpu := by
  obtain ⟨f, hf, hdir, he⟩ :=
    saveInterrupted_eq { s with systemTicks := u32 (s.systemTicks + 1) } regs
  have htouch : Touches s (s.modify s.currentTask f) := .modify fun x => ⟨hf.priority x, hdir x⟩
  refine ⟨_, h.saveInterrupted regs, ?_, fun cpu => rfl⟩
  rw [he]
  exact ⟨rfl, rfl, rfl, rfl, htouch.priority, htouch.pageDir⟩

theorem Sound.tick (h : Sound s) (regs : Regs) (cpu : RegsContext) :
    Sound (timerInterruptHandler s regs cpu) := by
  obtain ⟨s₁, h₁, -, he⟩ := h.interrupted regs
  rw [he]
  exact h₁.schedule cpu

/-- Everything `task_exit` does before it calls `schedule`. -/
theorem releaseCurrent_cases (s : Sched) :
    ((s.tcb s.currentTask).pageDir = .kernel ∨ (s.tcb s.currentTask).pageDir = .null) ∧
      releaseCurrent s = { s.modify s.currentTask (fun t => { t with state := .zombie }) with
        exited := s.currentTask :: s.exited } ∨
    ∃ b, b ≠ 0 ∧ (s.tcb s.currentTask).pageDir = .heap b ∧
      releaseCurrent s = { s.modify s.currentTask (fun t => { t with state := .zombie }) with
        exited := s.currentTask :: s.exited
        heap := s.heap.kfree b
        freedDirs := b :: s.freedDirs } := by
  cases hd : (s.tcb s.currentTask).pageDir with
  | kernel =>
    refine .inl ⟨.inl rfl, ?_⟩
    simp only [releaseCurrent, Sched.modify, Function.update_self, hd]
  | heap b =>
    by_cases hb : b = 0
    · refine .inl ⟨.inr (hb ▸ rfl), ?_⟩
      simp only [releaseCurrent, Sched.modify, Function.update_self, hd, if_pos hb]
    · refine .inr ⟨b, hb, rfl, ?_⟩
      simp only [releaseCurrent, Sched.modify, Function.update_self, hd, if_neg hb, kfreePageDir]

theorem Sound.releaseCurrent (h : Sound s) (h0 : s.currentTask ≠ 0) :
    Sound (releaseCurrent s) := by
  have hzombie : Sound (s.modify s.currentTask fun t => { t with state := .zombie }) :=
    h.modify ⟨fun _ => rfl, fun _ => rfl, fun _ => rfl⟩ fun hm => (h.fit hm).dir
  rcases releaseCurrent_cases s with ⟨-, he⟩ | ⟨b, -, hb, he⟩
  · rw [he]
    exact hzombie.congr h.sane rfl rfl rfl rfl rfl
  · rw [he]
    have hle := ((h.fit (h.current h0)).dir b hb).2
    exact hzombie.congr (h.sane.kfree hle) rfl rfl rfl rfl rfl

theorem schedStep_exit (h0 : s.currentTask ≠ 0) (cpu : RegsContext) :
    schedStep s (.exit cpu) = schedule (releaseCurrent s) cpu := by
  rw [schedStep, taskExit, if_neg h0]
  rfl

theorem Sound.exit (h : Sound s) (cpu : RegsContext) : Sound (schedStep s (.exit cpu)) := by
  by_cases h0 : s.currentTask = 0
  · simp only [schedStep, taskExit, if_pos h0]
    exact h
  · rw [schedStep_exit h0]
    exact (h.releaseCurrent h0).schedule cpu

/-- **Every operation keeps the scheduler's data in order.** -/
theorem Sound.step (h : Sound s) (op : SchedOp) : Sound (schedStep s op) := by
  cases op with
  | create entry name priority => exact h.create entry name priority
  | fork regs => exact h.fork regs
  | schedule cpu => exact h.schedule cpu
  | tick regs cpu => exact h.tick regs cpu
  | exit cpu => exact h.exit cpu

/-- A heap that grants every request. -/
def grantingHeap : BlockHeap := ⟨fun _ => true, fun block => 0x200000 + 4096 * block, 0, []⟩

theorem sane_grantingHeap : grantingHeap.Sane := fun _ hp => by cases hp

end SynapseKernel.Proc
