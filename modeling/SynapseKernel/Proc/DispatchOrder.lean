import SynapseKernel.Proc.Executor
import SynapseKernel.Proc.IdleReuse

/-! # The order of dispatch

A task displaced with time left is put in no queue, and every task that is queued
has more than one tick left. So the tasks leave the queues one for each call of
`schedule`, the highest queue first, and none comes back: no task is dispatched
twice (`dispatches_once`), and what the timer will dispatch is the line of waiting
tasks and then one new idle task after the other (`ticks_dispatch`). -/
namespace SynapseKernel.Proc
open SynapseKernel.Word SynapseKernel.Kheap SynapseKernel.Links SynapseKernel.Runs

variable {s s' s₁ : Sched} {q q' : Nat → List Nat} {log : List Nat} {p t : Nat}
  {cpu : RegsContext} {regs : Regs}

/-- The tasks that become current in a run, in order. -/
def dispatches : Sched → List SchedOp → List Nat
  | _, [] => []
  | s, op :: ops =>
    let s' := schedStep s op
    if op.dispatches ∧ s.currentTask ≠ 0 then s'.currentTask :: dispatches s' ops
    else dispatches s' ops

/-- A call of `schedule` that finds nothing queued has memory for an idle task, and no
directory is freed a second time. -/
structure Supplied (s : Sched) (op : SchedOp) : Prop where
  idle : op.dispatches = true → s.currentTask ≠ 0 → (∀ t, ¬ Queued s t) → s.heap.GrantsNext 2
  frees : (schedStep s op).freedDirs.Nodup

/-- The queues from the highest to the lowest, in one list. -/
def lineOf (q : Nat → List Nat) : List Nat := (List.range maxPriority).reverse.flatMap q

def collect (line : List Nat) (t : Nat) : Except Unit (List Nat) := .ok (line ++ [t])

/-- The tasks that wait in the ready queues, as the scan of `schedule` meets them. -/
def waitingLine (s : Sched) : List Nat :=
  match walkQueues collect s (List.range maxPriority).reverse [] with
  | some (.ok line) => line
  | _ => []

/-! ## The line -/

theorem foldlM_collect (l acc : List Nat) : l.foldlM collect acc = .ok (acc ++ l) := by
  induction l generalizing acc with
  | nil => rw [List.append_nil]; rfl
  | cons x l ih =>
    rw [List.foldlM_cons]
    exact (ih _).trans (by rw [List.append_assoc, List.singleton_append])

theorem SchedInv.waitingLine_eq (h : SchedInv s q) : waitingLine s = lineOf q := by
  rw [waitingLine, h.walkQueues_eq, foldlM_collect]
  rfl

theorem flatMap_range_pop {rest : List Nat} (n : Nat) (hp : p < n) (hq : q p = t :: rest)
    (habove : ∀ r, p < r → q r = []) : (List.range n).reverse.flatMap q =
      t :: (List.range n).reverse.flatMap (Function.update q p rest) := by
  induction n with
  | zero => exact absurd hp (Nat.not_lt_zero p)
  | succ n ih =>
    rw [List.range_succ, List.reverse_append, List.reverse_singleton, List.singleton_append,
      List.flatMap_cons, List.flatMap_cons]
    rcases Nat.lt_succ_iff_lt_or_eq.mp hp with hlt | rfl
    · rw [Function.update_of_ne (Nat.ne_of_gt hlt), habove n hlt, ih hlt]
      rfl
    · -- the queues below are as they were
      have hbelow : (List.range p).reverse.flatMap (Function.update q p rest) =
          (List.range p).reverse.flatMap q := by
        refine List.flatMap_congr fun r hr => Function.update_of_ne ?_ _ _
        exact Nat.ne_of_lt (List.mem_range.mp (List.mem_reverse.mp hr))
      rw [Function.update_self, hbelow, hq]
      rfl

/-- Taking the head of the highest nonempty queue takes the head of the line. -/
theorem SchedInv.lineOf_pop (h : SchedInv s q) {rest : List Nat} (hq : q p = t :: rest)
    (habove : ∀ r, p < r → q r = []) : lineOf q = t :: lineOf (Function.update q p rest) := by
  refine flatMap_range_pop maxPriority (not_le.mp fun hp => ?_) hq habove
  rw [h.empty_of_le hp] at hq
  cases hq

theorem lineOf_empty (hempty : ∀ p, q p = []) : lineOf q = [] :=
  List.flatMap_eq_nil_iff.mpr fun p _ => hempty p

/-! ## What no operation changes -/

/-- The tasks of `log` were dispatched, and are queued no more; the other ones still
wait. Nobody who waits or runs is at the last tick of a time slice. -/
structure OnceEach (s : Sched) (q : Nat → List Nat) (log : List Nat) : Prop where
  inv : SchedInv s q
  place : Off s q ∨ AtBoot s q
  waiting : ∀ p, ∀ t ∈ q p, 1 < (s.tcb t).timeSlice
  running : s.currentTask ≠ 0 → 1 < (s.tcb s.currentTask).timeSlice
  nodup : log.Nodup
  made : ∀ t ∈ log, t ∈ s.created
  gone : ∀ t ∈ log, ∀ p, t ∉ q p
  rest : ∀ t ∈ s.created, t ∉ log → ∃ p, t ∈ q p

theorem OnceEach.sound (h : OnceEach s q log) : Sound s := ⟨q, h.inv, h.place⟩

theorem OnceEach.congr (h : OnceEach s q log) (hinv : SchedInv s' q) (hs : SameTasks s s') :
    OnceEach s' q log := by
  have hslice : ∀ p, ∀ t ∈ q p, 1 < (s'.tcb t).timeSlice := fun p t ht => by
    rw [hs.timeSlice t (h.inv.queued p t ht)]
    exact h.waiting p t ht
  refine ⟨hinv, h.place.imp (·.congr hs.currentTask) fun hb => ?_, hslice, fun h0 => ?_, h.nodup,
    fun t ht => ?_, h.gone, fun t ht => ?_⟩
  · exact hb.congr hs.currentTask (hs.timeSlice _ (h.inv.queued 0 _ hb.idle))
  · rw [hs.currentTask] at h0 ⊢
    rw [hs.timeSlice _ (h.inv.current.resolve_left h0)]
    exact h.running h0
  · rw [hs.created]
    exact h.made t ht
  · rw [hs.created] at ht
    exact h.rest t ht

theorem OnceEach.withTask (h : OnceEach s q log) (entry : Nat) (name : TaskName)
    (hp : p < maxPriority) : OnceEach (withTask s entry name p)
      (Function.update q p ((s.heap.requests + 1) :: q p)) log := by
  have hnew : ((Proc.withTask s entry name p).tcb (s.heap.requests + 1)).timeSlice =
      taskTimeSlice := by
    simp only [Proc.withTask, Function.update_self, newTask]
  have hqueued : ∀ r, ∀ t ∈ Function.update q p ((s.heap.requests + 1) :: q p) r,
      t = s.heap.requests + 1 ∨ t ∈ q r := by
    intro r t ht
    by_cases hr : r = p
    · subst hr
      rw [Function.update_self] at ht
      exact List.mem_cons.mp ht
    · rw [Function.update_of_ne hr] at ht
      exact .inr ht
  refine ⟨h.inv.withTask entry name hp, ?_, fun r t ht => ?_, fun h0 => ?_, h.nodup,
    fun t ht => List.mem_cons_of_mem _ (h.made t ht), fun t ht r hr => ?_, fun t ht hlog => ?_⟩
  · exact h.place.imp (·.withTask h.inv entry name) (·.withTask h.inv entry name)
  · rcases hqueued r t ht with rfl | ht
    · rw [hnew]
      decide
    · rw [withTask_old entry name h.inv (h.inv.queued r t ht)]
      exact h.waiting r t ht
  · have hm := h.inv.current.resolve_left h0
    exact (h.running h0).trans_eq
      (congrArg Task.timeSlice (withTask_old entry name h.inv hm)).symm
  · rcases hqueued r t hr with rfl | hr
    · exact h.inv.fresh (h.made _ ht)
    · exact h.gone t ht r hr
  · rcases List.mem_cons.mp ht with rfl | ht
    · refine ⟨p, ?_⟩
      rw [Function.update_self]
      exact List.mem_cons_self
    · obtain ⟨r, hr⟩ := h.rest t ht hlog
      exact ⟨r, subset_push q p _ r hr⟩

/-- Creating tasks dispatches none. -/
theorem OnceEach.create (h : OnceEach s q log) {op : SchedOp} (hop : op.dispatches = false) :
    ∃ q', OnceEach (schedStep s op) q' log := by
  by_cases h0 : s.currentTask = 0
  · -- without a current task `fork` does nothing
    cases op with
    | create entry name priority =>
      rcases createTask_cases s entry name priority with ⟨hp, -, hc⟩ | ⟨-, -, hr⟩
      · rw [schedStep, hc]
        exact ⟨_, h.withTask entry name hp⟩
      · exact ⟨q, h.congr (h.inv.refused hr) (.refused h.inv hr)⟩
    | fork regs =>
      rw [schedStep, sysForkHandler, if_pos h0]
      exact ⟨q, h⟩
    | schedule cpu => cases hop
    | tick regs cpu => cases hop
    | exit cpu => cases hop
  · obtain ⟨q', h', -⟩ := exists_schedStep
      (Φ := fun s q => OnceEach s q log ∧ s.currentTask ≠ 0)
      (fun h => ⟨h.1.inv, h.1.sound, h.2⟩)
      (fun h hinv hs => ⟨h.1.congr hinv hs, hs.currentTask ▸ h.2⟩)
      (fun h entry name hp => ⟨h.1.withTask entry name hp, h.2⟩) ⟨h, h0⟩ hop
    exact ⟨q', h'⟩

/-! ## One call of schedule -/

/-- What a call of `schedule` does to the line: its head becomes current, or a new
idle task does when nobody waits. -/
def NextInLine (s s' : Sched) (q q' : Nat → List Nat) : Prop :=
  (lineOf q = s'.currentTask :: lineOf q' ∧ s'.heap.requests = s.heap.requests) ∨
  (lineOf q = [] ∧ lineOf q' = [] ∧ s'.currentTask = s.heap.requests + 1 ∧
    s'.heap.requests = s.heap.requests + 2)

/-- The current task has time left, so nothing is put back. -/
theorem OnceEach.afterSlice (h : OnceEach s q log) (h0 : s.currentTask ≠ 0) :
    SchedInv (afterSlice s) q ∧ ∀ p, ∀ t ∈ q p, 1 < ((afterSlice s).tcb t).timeSlice := by
  rcases afterSlice_cases h.inv h0 h.place with ⟨hone, -⟩ | ⟨-, hcharge, h₁⟩
  · exact absurd hone (Nat.ne_of_gt (h.running h0))
  refine ⟨h₁, fun p t ht => ?_⟩
  rw [hcharge]
  by_cases hc : t = s.currentTask
  · -- only before the first call is the current task queued
    subst hc
    have hboot := h.place.resolve_left fun hoff => hoff p ht
    have hleft : ((chargeCurrent s).tcb s.currentTask).timeSlice = sub32 taskTimeSlice 1 := by
      simp only [chargeCurrent, Sched.modify, Function.update_self, hboot.slice]
    rw [hleft]
    decide
  · exact (h.waiting p t ht).trans_eq
      (congrArg Task.timeSlice (Function.update_of_ne hc _ _)).symm

theorem OnceEach.popped (h : OnceEach s q log) (h0 : s.currentTask ≠ 0) {rest : List Nat}
    (hq : q p = t :: rest)
    (he : Proc.schedule s cpu = dispatch (Proc.popped (Proc.afterSlice s) p t) cpu t) :
    OnceEach (Proc.schedule s cpu) (Function.update q p rest) (log ++ [t]) := by
  obtain ⟨h₁, hslices⟩ := h.afterSlice h0
  obtain ⟨htouch, hcur, hne, -⟩ := highest_popped h₁ hq he
  have ht : t ∈ q p := hq ▸ List.mem_cons_self
  have hoff := h.inv.toQueues.popped_off hq
  have hslice : ∀ x, ((Proc.schedule s cpu).tcb x).timeSlice =
      ((Proc.afterSlice s).tcb x).timeSlice := fun x => by
    rw [he, timeSlice_dispatch, timeSlice_popped]
  refine ⟨he ▸ (h₁.popped hq).dispatch (h₁.queued p t ht), .inl fun r => ?_, fun r x hx => ?_,
    fun _ => ?_, ?_, fun x hx => ?_, fun x hx r hr => ?_, fun x hx hlog => ?_⟩
  · rw [hcur]
    exact hoff r
  · rw [hslice]
    exact hslices r x (popped_subset hq r hx)
  · rw [hcur, hslice]
    exact hslices p t ht
  · refine List.nodup_append.mpr ⟨h.nodup, List.nodup_singleton t, fun x hx y hy => ?_⟩
    rw [List.mem_singleton.mp hy]
    exact fun hxt => h.gone x hx p (hxt ▸ ht)
  · rw [htouch.created]
    rcases List.mem_append.mp hx with hx | hx
    · exact h.made x hx
    · rw [List.mem_singleton.mp hx]
      exact h.inv.queued p t ht
  · rcases List.mem_append.mp hx with hx | hx
    · exact h.gone x hx r (popped_subset hq r hr)
    · rw [List.mem_singleton.mp hx] at hr
      exact hoff r hr
  · rw [htouch.created] at hx
    obtain ⟨hold, hnt⟩ := not_or.mp (mt List.mem_append.mpr hlog)
    obtain ⟨r, hr⟩ := h.rest x hx hold
    exact ⟨r, (mem_popped hq hr).resolve_left fun hxt => hnt (List.mem_singleton.mpr hxt)⟩

theorem OnceEach.idle (h : OnceEach s q log) (h0 : s.currentTask ≠ 0) (hempty : ∀ p, q p = [])
    (he : Proc.schedule s cpu =
      dispatch (withIdleTask (Proc.afterSlice s)) cpu (s.heap.requests + 1)) :
    OnceEach (Proc.schedule s cpu) q (log ++ [s.heap.requests + 1]) := by
  obtain ⟨h₁, -⟩ := h.afterSlice h0
  have hheap : (Proc.afterSlice s).heap = s.heap := (touches_afterSlice s).heap
  have hnone : ∀ p x, x ∉ q p := fun p x hx => by rw [hempty p] at hx; cases hx
  have hcur : (Proc.schedule s cpu).currentTask = s.heap.requests + 1 := by
    rw [he, currentTask_dispatch]
  have hcreated : (Proc.schedule s cpu).created = (s.heap.requests + 1) :: s.created := by
    rw [he, (touches_dispatch _ cpu _).created, ← hheap, ← (touches_afterSlice s).created]
    rfl
  have hinv : SchedInv (Proc.schedule s cpu) q := by
    rw [he, ← hheap]
    exact h₁.withIdleTask.dispatch List.mem_cons_self
  have hidle : (withIdleTask (Proc.afterSlice s)).tcb ((Proc.afterSlice s).heap.requests + 1) =
      newIdleTask (Proc.afterSlice s) := Function.update_self _ _ _
  refine ⟨hinv, .inl fun r => hnone r _, fun r x hx => absurd hx (hnone r x), fun _ => ?_, ?_,
    fun x hx => ?_, fun x _ r => hnone r x, fun x hx hlog => ?_⟩
  · rw [hcur, he, timeSlice_dispatch, ← hheap, hidle]
    show 1 < taskTimeSlice
    decide
  · refine List.nodup_append.mpr ⟨h.nodup, List.nodup_singleton _, fun x hx y hy => ?_⟩
    rw [List.mem_singleton.mp hy]
    exact fun hxt => h.inv.fresh (hxt ▸ h.made x hx)
  · rw [hcreated]
    rcases List.mem_append.mp hx with hx | hx
    · exact List.mem_cons_of_mem _ (h.made x hx)
    · rw [List.mem_singleton.mp hx]
      exact List.mem_cons_self
  · rw [hcreated] at hx
    obtain ⟨hold, hnew⟩ := not_or.mp (mt List.mem_append.mpr hlog)
    rcases List.mem_cons.mp hx with rfl | hx
    · exact absurd (List.mem_singleton.mpr rfl) hnew
    · exact h.rest x hx hold

/-- **One call of schedule** dispatches the next in line, for the first time. -/
theorem OnceEach.schedule (h : OnceEach s q log) (h0 : s.currentTask ≠ 0)
    (hsup : (∀ t, ¬ Queued s t) → s.heap.GrantsNext 2) (cpu : RegsContext) :
    ∃ q', OnceEach (schedule s cpu) q' (log ++ [(schedule s cpu).currentTask]) ∧
      (schedule s cpu).currentTask ≠ 0 ∧ NextInLine s (schedule s cpu) q q' := by
  obtain ⟨h₁, -⟩ := h.afterSlice h0
  rcases schedule_cases h0 h₁ cpu with ⟨p, t, rest, hq, habove, he⟩ | ⟨hempty, -⟩
  · obtain ⟨htouch, hcur, hne, -⟩ := highest_popped h₁ hq he
    refine ⟨_, hcur ▸ h.popped h0 hq he, hcur ▸ hne, .inl ⟨?_, ?_⟩⟩
    · rw [hcur]
      exact h.inv.lineOf_pop hq habove
    · rw [htouch.heap]
  · have hg := hsup (h.inv.not_queued hempty)
    rcases schedule_none h0 h₁ hempty cpu with ⟨-, he⟩ | ⟨hno, -⟩
    · have hcur : (Proc.schedule s cpu).currentTask = s.heap.requests + 1 := by
        rw [he, currentTask_dispatch]
      refine ⟨q, hcur ▸ h.idle h0 hempty he, hcur ▸ Nat.succ_ne_zero _,
        .inr ⟨lineOf_empty hempty, lineOf_empty hempty, hcur, ?_⟩⟩
      rw [he, (touches_dispatch _ cpu _).heap]
      exact congrArg (·.requests + 2) (touches_afterSlice s).heap
    · exact absurd hg hno

/-! ## Runs -/

theorem SchedInv.releaseCurrent (h : SchedInv s q) (h0 : s.currentTask ≠ 0) :
    SchedInv (releaseCurrent s) q := by
  have hzombie : SchedInv (s.modify s.currentTask fun t => { t with state := .zombie }) q :=
    h.inert ⟨fun _ => rfl, fun _ => rfl, fun _ => rfl⟩ fun hm => (h.fit _ hm).dir
  rcases releaseCurrent_cases s with ⟨-, he⟩ | ⟨b, -, hb, he⟩
  · rw [he]
    exact hzombie.congr h.sane rfl rfl rfl rfl hzombie.current
  · rw [he]
    have hle := ((h.fit _ (h.current.resolve_left h0)).dir b hb).2
    exact hzombie.congr (h.sane.kfree hle) rfl rfl rfl rfl hzombie.current

theorem sameTasks_releaseCurrent (s : Sched) : SameTasks s (releaseCurrent s) := by
  have hzombie := SameTasks.inert (s := s) (f := fun t => { t with state := .zombie })
    ⟨fun _ => rfl, fun _ => rfl, fun _ => rfl⟩ s.currentTask
  rcases releaseCurrent_cases s with ⟨-, he⟩ | ⟨b, -, -, he⟩
  · rw [he]
    exact ⟨rfl, rfl, hzombie.priority, hzombie.timeSlice⟩
  · rw [he]
    exact ⟨rfl, rfl, hzombie.priority, hzombie.timeSlice⟩

theorem requests_releaseCurrent (s : Sched) :
    (releaseCurrent s).heap.requests = s.heap.requests ∧
      (releaseCurrent s).heap.grants = s.heap.grants := by
  rcases releaseCurrent_cases s with ⟨-, he⟩ | ⟨b, -, -, he⟩
  · rw [he]
    exact ⟨rfl, rfl⟩
  · rw [he]
    exact ⟨rfl, rfl⟩

/-- Where an operation calls `schedule` with a current task. -/
theorem exists_call {op : SchedOp} (hop : op.dispatches = true) (h0 : s.currentTask ≠ 0) :
    ∃ s₁ cpu, schedStep s op = schedule s₁ cpu ∧ SameTasks s s₁ ∧
      (∀ q, SchedInv s q → SchedInv s₁ q) ∧ s₁.heap.requests = s.heap.requests ∧
      s₁.heap.grants = s.heap.grants := by
  cases op with
  | create entry name priority => cases hop
  | fork regs => cases hop
  | schedule cpu =>
    exact ⟨s, cpu, rfl, ⟨rfl, rfl, fun _ _ => rfl, fun _ _ => rfl⟩, fun _ h => h, rfl, rfl⟩
  | tick regs cpu =>
    obtain ⟨f, hf, hdir, heq⟩ := timerInterruptHandler_eq s regs
    have hmod := SameTasks.inert (s := { s with systemTicks := u32 (s.systemTicks + 1) }) hf
      s.currentTask
    refine ⟨_, cpu, heq cpu, ⟨rfl, rfl, hmod.priority, hmod.timeSlice⟩, fun q h => ?_, rfl, rfl⟩
    have hticks : SchedInv { s with systemTicks := u32 (s.systemTicks + 1) } q :=
      h.congr h.sane rfl rfl rfl rfl h.current
    exact hticks.inert hf fun hm b hb => (h.fit _ hm).dir b ((hdir _).symm.trans hb)
  | exit cpu =>
    exact ⟨releaseCurrent s, cpu, schedStep_exit h0 cpu, sameTasks_releaseCurrent s,
      fun _ h => h.releaseCurrent h0, requests_releaseCurrent s⟩

/-- Without a current task nothing is dispatched. -/
theorem OnceEach.unstarted (h : OnceEach s q log) (h0 : s.currentTask = 0) {op : SchedOp}
    (hop : op.dispatches = true) : OnceEach (schedStep s op) q log := by
  cases op with
  | create entry name priority => cases hop
  | fork regs => cases hop
  | schedule cpu =>
    rw [schedStep, Proc.schedule, if_pos h0]
    exact h
  | tick regs cpu =>
    have hsaved : saveInterrupted { s with systemTicks := u32 (s.systemTicks + 1) } regs =
        { s with systemTicks := u32 (s.systemTicks + 1) } :=
      if_neg fun hrun => hrun.1 h0
    rw [schedStep, timerInterruptHandler, hsaved, Proc.schedule, if_pos h0]
    exact h.congr (h.inv.congr h.inv.sane rfl rfl rfl rfl h.inv.current)
      ⟨rfl, rfl, fun _ _ => rfl, fun _ _ => rfl⟩
  | exit cpu =>
    rw [schedStep, taskExit, if_pos h0]
    exact h

theorem OnceEach.dispatch (h : OnceEach s q log) (h0 : s.currentTask ≠ 0) {op : SchedOp}
    (hop : op.dispatches = true) (hsup : Supplied s op) :
    ∃ q', OnceEach (schedStep s op) q' (log ++ [(schedStep s op).currentTask]) ∧
      (schedStep s op).currentTask ≠ 0 ∧ NextInLine s (schedStep s op) q q' := by
  obtain ⟨s₁, cpu, he, hs, hinv, hreq, hgrants⟩ := exists_call hop h0
  have h₁ := h.congr (hinv q h.inv) hs
  have hsup₁ : (∀ t, ¬ Queued s₁ t) → s₁.heap.GrantsNext 2 := fun hnone => by
    have hg := hsup.idle hop h0 fun t ht =>
      hnone t (h₁.inv.queued_iff.mpr (h.inv.queued_iff.mp ht))
    rwa [BlockHeap.GrantsNext, hreq, hgrants]
  obtain ⟨q', h', hne, hnext⟩ := h₁.schedule (by rwa [hs.currentTask]) hsup₁ cpu
  refine ⟨q', he ▸ h', he ▸ hne, ?_⟩
  rw [he, NextInLine, ← hreq]
  exact hnext

/-- **A run** goes on with the log. -/
theorem OnceEach.run (h : OnceEach s q log) {ops : List SchedOp}
    (hg : Guarded schedStep Supplied s ops) :
    ∃ q', OnceEach (ops.foldl schedStep s) q' (log ++ dispatches s ops) := by
  induction ops generalizing s q log with
  | nil => exact ⟨q, (List.append_nil log).symm ▸ h⟩
  | cons op ops ih =>
    rw [List.foldl_cons, dispatches]
    by_cases hd : op.dispatches = true ∧ s.currentTask ≠ 0
    · obtain ⟨q₁, h₁, -, -⟩ := h.dispatch hd.2 hd.1 hg.1
      obtain ⟨q', h'⟩ := ih h₁ hg.2
      rw [if_pos hd]
      exact ⟨q', by rwa [List.append_assoc, List.singleton_append] at h'⟩
    · rw [if_neg hd]
      cases hop : op.dispatches with
      | false =>
        obtain ⟨q₁, h₁⟩ := h.create hop
        exact ih h₁ hg.2
      | true =>
        have h0 : s.currentTask = 0 := not_not.mp fun h0 => hd ⟨hop, h0⟩
        exact ih (h.unstarted h0 hop) hg.2

/-- With the idle task queued and no init task. -/
theorem onceEach_queuedIdle (h : SchedInv s fun _ => []) (hq : s.readyQueue 0 = 0)
    (h0 : s.currentTask = 0) (hc : s.created = []) :
    OnceEach (queuedIdle s) (Function.update (fun _ => []) 0 [s.heap.requests + 1]) [] := by
  have hinv := h.queuedIdle hq
  have hidle : (queuedIdle s).tcb (s.heap.requests + 1) = newIdleTask s :=
    Function.update_self _ _ _
  refine ⟨hinv, .inl fun p hp => ?_, fun p t ht => ?_, fun hne => absurd h0 hne, List.nodup_nil,
    fun t ht => ?_, fun t ht => ?_, fun t ht _ => ⟨0, ?_⟩⟩
  · exact (hinv.list p).ne_zero _ hp h0
  · by_cases hp : p = 0
    · subst hp
      rw [Function.update_self] at ht
      rw [List.mem_singleton.mp ht, hidle]
      show 1 < taskTimeSlice
      decide
    · rw [Function.update_of_ne hp] at ht
      cases ht
  · cases ht
  · cases ht
  · have hcreated : (queuedIdle s).created = [s.heap.requests + 1] := congrArg (_ :: ·) hc
    rw [hcreated] at ht
    rwa [Function.update_self]

theorem onceEach_boot {heap : BlockHeap} (hs : heap.Sane) (i j : Nat) :
    ∃ q, OnceEach (schedInit (.boot heap i j)) q [] := by
  have hboot := schedInv_boot hs i j
  rcases schedInit_cases (.boot heap i j) with hr | hr | ⟨-, he⟩
  · have h₀ : OnceEach { Sched.boot heap i j with readyQueue := fun _ => 0 } (fun _ => []) [] := by
      refine ⟨hboot, .inl fun p hp => ?_, fun p t ht => ?_, fun h0 => absurd rfl h0,
        List.nodup_nil, fun t ht => ?_, fun t ht => ?_, fun t ht => ?_⟩
      · cases hp
      · cases ht
      · cases ht
      · cases ht
      · cases ht
    exact ⟨_, h₀.congr (hboot.refused hr) (.refused hboot hr)⟩
  · have hidle := hboot.queuedIdle rfl
    exact ⟨_, (onceEach_queuedIdle hboot rfl rfl rfl).congr (hidle.refused hr) (.refused hidle hr)⟩
  · rw [he]
    have h := unscheduled_started hboot rfl rfl
    refine ⟨_, h.inv, .inr h.boot, fun p t ht => ?_, fun _ => ?_, List.nodup_nil, fun t ht => ?_,
      fun t ht => ?_, fun t ht _ => ⟨_, h.queued t ht⟩⟩
    · rw [h.slice t (h.inv.queued p t ht)]
      decide
    · rw [h.boot.slice]
      decide
    · cases ht
    · cases ht

/-- **Nobody runs twice.** In a run from `sched_init` in which no call of `schedule` is
refused an idle task and no directory is freed twice, no task is dispatched twice, and a
task is current or queued if and only if it is the current one or was never dispatched. -/
theorem dispatches_once {heap : BlockHeap} (hs : heap.Sane) (idleEntry initEntry : Nat)
    (ops : List SchedOp)
    (hg : Guarded schedStep Supplied (schedInit (.boot heap idleEntry initEntry)) ops) :
    (dispatches (schedInit (.boot heap idleEntry initEntry)) ops).Nodup ∧
      ∀ t ∈ (ops.foldl schedStep (schedInit (.boot heap idleEntry initEntry))).created,
        (Runnable (ops.foldl schedStep (schedInit (.boot heap idleEntry initEntry))) t ↔
          t = (ops.foldl schedStep (schedInit (.boot heap idleEntry initEntry))).currentTask ∨
          t ∉ dispatches (schedInit (.boot heap idleEntry initEntry)) ops) := by
  obtain ⟨q, h⟩ := onceEach_boot hs idleEntry initEntry
  obtain ⟨q', h'⟩ := h.run hg
  rw [List.nil_append] at h'
  refine ⟨h'.nodup, fun t ht => h'.inv.runnable_iff.trans (or_congr_right ⟨fun hq hlog => ?_,
    fun hlog => ?_⟩)⟩
  · exact h'.gone t hlog _ hq
  · obtain ⟨p, hp⟩ := h'.rest t ht hlog
    rwa [h'.inv.priority p t hp]

theorem supplied_of_grants {op : SchedOp} (hs : s.heap.grants = fun _ => true)
    (hfree : (schedStep s op).freedDirs.Nodup) : Supplied s op :=
  ⟨fun _ _ _ i _ => by rw [hs], hfree⟩

/-- Three calls dispatch the init task, which exits, the first idle task and a second one. -/
theorem dispatches_once_three :
    (dispatches (schedInit (.boot grantingHeap 0 0))
        [.schedule .zero, .exit .zero, .schedule .zero]).Nodup ∧
      ∀ t ∈ ([.schedule .zero, .exit .zero, .schedule .zero].foldl schedStep
          (schedInit (.boot grantingHeap 0 0))).created,
        (Runnable ([.schedule .zero, .exit .zero, .schedule .zero].foldl schedStep
            (schedInit (.boot grantingHeap 0 0))) t ↔
          t = ([.schedule .zero, .exit .zero, .schedule .zero].foldl schedStep
            (schedInit (.boot grantingHeap 0 0))).currentTask ∨
          t ∉ dispatches (schedInit (.boot grantingHeap 0 0))
            [.schedule .zero, .exit .zero, .schedule .zero]) :=
  dispatches_once sane_grantingHeap 0 0 _ ⟨supplied_of_grants rfl (by decide),
    supplied_of_grants rfl (by decide), supplied_of_grants rfl (by decide), trivial⟩

/-- An operation that is a timer tick. -/
def tickOp (tick : Regs × RegsContext) : SchedOp := .tick tick.1 tick.2

theorem OnceEach.ticks (h : OnceEach s q log) (h0 : s.currentTask ≠ 0)
    {ticks : List (Regs × RegsContext)} (hg : Guarded schedStep Supplied s (ticks.map tickOp)) :
    dispatches s (ticks.map tickOp) = (lineOf q).take ticks.length ++
      (List.range (ticks.length - (lineOf q).length)).map
        fun k => s.heap.requests + 2 * k + 1 := by
  induction ticks generalizing s q log with
  | nil => rw [List.length_nil, Nat.zero_sub]; rfl
  | cons tick ticks ih =>
    have hop : (tickOp tick).dispatches = true := rfl
    obtain ⟨q₁, h₁, hne, hnext⟩ := h.dispatch h0 hop hg.1
    have hhead : dispatches s ((tick :: ticks).map tickOp) =
        (schedStep s (tickOp tick)).currentTask ::
          dispatches (schedStep s (tickOp tick)) (ticks.map tickOp) := if_pos ⟨rfl, h0⟩
    rw [hhead, ih h₁ hne hg.2]
    rcases hnext with ⟨hline, hreq⟩ | ⟨hline, hline', hcur, hreq⟩
    · rw [hline, hreq, List.length_cons, List.length_cons, List.take_succ_cons,
        Nat.add_sub_add_right]
      rfl
    · rw [hline, hline', hcur, hreq, List.length_cons, List.length_nil, Nat.sub_zero, Nat.sub_zero,
        List.take_nil, List.take_nil, List.nil_append, List.nil_append,
        List.range_succ_eq_map, List.map_cons, List.map_map]
      refine congrArg _ (List.map_congr_left fun k _ => ?_)
      simp only [Function.comp_apply]
      omega

/-- **What the timer dispatches.** From any state a run from `sched_init` reaches with
a current task, timer ticks dispatch the waiting tasks once each, from the highest queue
to the lowest, and from then on a new idle task each. -/
theorem ticks_dispatch {heap : BlockHeap} (hs : heap.Sane) (idleEntry initEntry : Nat)
    (ops : List SchedOp) (ticks : List (Regs × RegsContext))
    (hg : Guarded schedStep Supplied (schedInit (.boot heap idleEntry initEntry)) ops)
    (h0 : (ops.foldl schedStep (schedInit (.boot heap idleEntry initEntry))).currentTask ≠ 0)
    (hticks : Guarded schedStep Supplied
      (ops.foldl schedStep (schedInit (.boot heap idleEntry initEntry))) (ticks.map tickOp)) :
    let s := ops.foldl schedStep (schedInit (.boot heap idleEntry initEntry))
    dispatches s (ticks.map tickOp) = (waitingLine s).take ticks.length ++
      (List.range (ticks.length - (waitingLine s).length)).map
        fun k => s.heap.requests + 2 * k + 1 := by
  obtain ⟨q, h⟩ := onceEach_boot hs idleEntry initEntry
  obtain ⟨q', h'⟩ := h.run hg
  intro s
  rw [h'.inv.waitingLine_eq]
  exact h'.ticks h0 hticks

/-- From boot: the init task, the idle task, and two new idle tasks. -/
theorem ticks_dispatch_four :
    dispatches (schedInit (.boot grantingHeap 0 0))
        ([zeroTick, zeroTick, zeroTick, zeroTick].map tickOp) =
      (waitingLine (schedInit (.boot grantingHeap 0 0))).take 4 ++
        (List.range (4 - (waitingLine (schedInit (.boot grantingHeap 0 0))).length)).map
          fun k => (schedInit (.boot grantingHeap 0 0)).heap.requests + 2 * k + 1 :=
  ticks_dispatch sane_grantingHeap 0 0 [] [zeroTick, zeroTick, zeroTick, zeroTick] trivial
    (by decide)
    ⟨supplied_of_grants rfl (by decide), supplied_of_grants rfl (by decide),
      supplied_of_grants rfl (by decide), supplied_of_grants rfl (by decide), trivial⟩

example : dispatches (schedInit (.boot grantingHeap 0 0))
    ([zeroTick, zeroTick, zeroTick, zeroTick].map tickOp) = [3, 1, 6, 8] := by decide

end SynapseKernel.Proc
