import SynapseKernel.Proc.IdleReuse
import SynapseKernel.Proc.PageDirs

/-! # What a task keeps for ever

`task_exit` frees the page directory of the task and nothing else. A live block that is
nobody's page directory is therefore never freed (`Pinned.run`), as long as no directory is
freed twice (`exit_frees_live`): a task that was created once holds its record and its kernel
stack in every later state (`tasks_hold_blocks`), and the directory that `create_task` makes
for a forked child, which then gets its parent's, is lost (`fork_strands_directory`). -/
namespace SynapseKernel.Proc
open SynapseKernel.Word SynapseKernel.Kheap

variable {s s' s'' : Sched} {q : Nat → List Nat} {b t : Nat} {cpu : RegsContext} {regs : Regs}

/-- The block is live and is no task's page directory. -/
structure Pinned (s : Sched) (b : Nat) : Prop where
  live : s.heap.Live b
  nobodys : ∀ t ∈ s.created, (s.tcb t).pageDir ≠ .heap b

/-- Nothing old is freed, and a directory that is old is one that some task had. -/
structure Spares (s s' : Sched) : Prop where
  heap : s.heap.Later s'.heap
  dirs : ∀ t ∈ s'.created, ∀ b ≤ s.heap.requests, (s'.tcb t).pageDir = .heap b →
    ∃ u ∈ s.created, (s.tcb u).pageDir = .heap b

theorem Pinned.spared (h : Pinned s b) (hs : Spares s s') : Pinned s' b := by
  refine ⟨(hs.heap.live b h.live.le).mpr h.live, fun t ht hdir => ?_⟩
  obtain ⟨u, hu, hb⟩ := hs.dirs t ht b h.live.le hdir
  exact h.nobodys u hu hb

theorem Spares.of_touches (h : Touches s s') : Spares s s' := by
  refine ⟨h.heap ▸ .refl _, fun t ht b _ hdir => ⟨t, h.created ▸ ht, ?_⟩⟩
  rwa [← h.pageDir t]

theorem Spares.of_refused (hi : SchedInv s q) (h : Refused s s') : Spares s s' := by
  refine ⟨h.heap, fun t ht b _ hdir => ?_⟩
  rw [h.created] at ht
  rw [h.tcb t (hi.handed t ht).2] at hdir
  exact ⟨t, ht, hdir⟩

theorem spares_withTask (hi : SchedInv s q) (entry : Nat) (name : TaskName) (p : Nat) :
    Spares s (withTask s entry name p) := by
  have hlater := BlockHeap.Later.refl s.heap
  refine ⟨((hlater.kmalloc taskSize).kmalloc pageDirectorySize).kmalloc kernelStackSize,
    fun t ht b hb hdir => ?_⟩
  rcases List.mem_cons.mp ht with rfl | ht
  · -- the new directory is the second of the three blocks
    have hnew : (withTask s entry name p).tcb (s.heap.requests + 1) = newTask s entry name p :=
      Function.update_self _ _ _
    rw [hnew] at hdir
    have hblock : s.heap.requests + 2 = b := PageDir.heap.inj hdir
    omega
  · have hold : (withTask s entry name p).tcb t = s.tcb t := hi.update_old ht
    rw [hold] at hdir
    exact ⟨t, ht, hdir⟩

theorem spares_withIdleTask (hi : SchedInv s q) : Spares s (withIdleTask s) := by
  have hlater := BlockHeap.Later.refl s.heap
  refine ⟨(hlater.kmalloc taskSize).kmalloc kernelStackSize, fun t ht b _ hdir => ?_⟩
  rcases List.mem_cons.mp ht with rfl | ht
  · have hnew : (withIdleTask s).tcb (s.heap.requests + 1) = newIdleTask s :=
      Function.update_self _ _ _
    rw [hnew] at hdir
    cases hdir
  · have hold : (withIdleTask s).tcb t = s.tcb t := hi.update_old ht
    rw [hold] at hdir
    exact ⟨t, ht, hdir⟩

/-- The child's directory is the parent's. -/
theorem spares_forked (hi : SchedInv s q) (hm : s.currentTask ∈ s.created) (regs : Regs) :
    Spares s (forked s regs) := by
  have hlater := BlockHeap.Later.refl s.heap
  refine ⟨((hlater.kmalloc taskSize).kmalloc pageDirectorySize).kmalloc kernelStackSize,
    fun t ht b _ hdir => ?_⟩
  rcases List.mem_cons.mp ht with rfl | ht
  · rw [forked_pageDir] at hdir
    exact ⟨s.currentTask, hm, hdir⟩
  · rw [forked_tcb_old hi ht] at hdir
    exact ⟨t, ht, hdir⟩

/-- What is freed is a directory. -/
theorem Pinned.releaseCurrent (h : Pinned s b) (hm : s.currentTask ∈ s.created) :
    Pinned (releaseCurrent s) b := by
  have hzombie : ∀ t, ((s.modify s.currentTask fun x => { x with state := .zombie }).tcb
      t).pageDir = (s.tcb t).pageDir := by
    refine s.modify_field Task.pageDir ?_ s.currentTask
    exact fun _ => rfl
  rcases releaseCurrent_cases s with ⟨-, he⟩ | ⟨dir, -, hdir, he⟩
  · rw [he]
    exact ⟨h.live, fun t ht => by rw [hzombie]; exact h.nobodys t ht⟩
  · rw [he]
    have hne : b ≠ dir := fun heq => h.nobodys _ hm (heq ▸ hdir)
    exact ⟨BlockHeap.live_kfree.mpr ⟨h.live, hne⟩, fun t ht => by
      rw [hzombie]
      exact h.nobodys t ht⟩

/-! ## Fields that scheduling leaves alone -/

/-- No assignment of `schedule`, of the handler of the timer interrupt or of `task_exit`
to a record changes the field. -/
structure Untouched {α : Type} (g : Task → α) : Prop where
  charge : ∀ x n m, g { x with totalRuntime := n, timeSlice := m } = g x
  requeue : ∀ x m l, g { x with state := .ready, timeSlice := m, siblingNext := l } = g x
  unlink : ∀ x, g { x with siblingNext := 0 } = g x
  run : ∀ x, g { x with state := .running, lastScheduled := 0 } = g x
  save : ∀ x e r, g { x with heapEnd := e, regs := r } = g x
  exit : ∀ x, g { x with state := .zombie } = g x

section Untouched
variable {α : Type} {g : Task → α} (hg : Untouched g)
include hg

theorem Untouched.afterSlice (s : Sched) (t : Nat) :
    g ((afterSlice s).tcb t) = g (s.tcb t) := by
  have hcharge : g ((chargeCurrent s).tcb t) = g (s.tcb t) :=
    s.modify_field g (fun x => hg.charge x _ _) _ t
  rw [Proc.afterSlice]
  split
  · refine Eq.trans ?_ hcharge
    exact (chargeCurrent s).modify_field g (fun x => hg.requeue x _ _) _ t
  · exact hcharge

theorem Untouched.popped (s : Sched) (p t x : Nat) : g ((popped s p t).tcb x) = g (s.tcb x) :=
  Sched.modify_field g hg.unlink _ t x

theorem Untouched.dispatch (s : Sched) (cpu : RegsContext) (t x : Nat) :
    g ((dispatch s cpu t).tcb x) = g (s.tcb x) := by
  have hrun : g ((s.modify t fun x => { x with state := .running, lastScheduled := 0 }).tcb x) =
      g (s.tcb x) := s.modify_field g hg.run t x
  simp only [Proc.dispatch, switchRecords]
  split
  · split
    · exact hrun
    · exact (Sched.modify_field g (fun y => hg.save y _ _) _ _ x).trans hrun
  · exact hrun

theorem Untouched.saveInterrupted (s : Sched) (regs : Regs) (t : Nat) :
    g ((saveInterrupted s regs).tcb t) = g (s.tcb t) := by
  rw [Proc.saveInterrupted]
  split
  · exact s.modify_field g (fun x => hg.save x x.heapEnd _) _ t
  · rfl

theorem Untouched.releaseCurrent (s : Sched) (t : Nat) :
    g ((releaseCurrent s).tcb t) = g (s.tcb t) := by
  have hzombie := s.modify_field g hg.exit s.currentTask t
  rcases releaseCurrent_cases s with ⟨-, he⟩ | ⟨b, -, -, he⟩
  · rw [he]
    exact hzombie
  · rw [he]
    exact hzombie

end Untouched

theorem untouched_kernelStackTop : Untouched Task.kernelStackTop :=
  ⟨fun _ _ _ => rfl, fun _ _ _ => rfl, fun _ => rfl, fun _ => rfl, fun _ _ _ => rfl,
    fun _ => rfl⟩

/-! ## Who is added by an operation -/

/-- Nobody. -/
structure SameStacks (s s' : Sched) : Prop where
  created : s'.created = s.created
  addr : s'.heap.addr = s.heap.addr
  top : ∀ t ∈ s.created, (s'.tcb t).kernelStackTop = (s.tcb t).kernelStackTop

/-- One task, with a record and a kernel stack in new blocks. -/
structure AddsTask (s s' : Sched) (t b : Nat) : Prop where
  created : s'.created = t :: s.created
  addr : s'.heap.addr = s.heap.addr
  top : ∀ t ∈ s.created, (s'.tcb t).kernelStackTop = (s.tcb t).kernelStackTop
  fresh : s.heap.requests < t ∧ t < b
  record : Pinned s' t
  stack : Pinned s' b
  newTop : (s'.tcb t).kernelStackTop = u32 (s'.heap.addr b + 4096)

/-- What pinned blocks and stacks an operation leaves. -/
structure KeepsBlocks (s s' : Sched) : Prop where
  pinned : ∀ b, Pinned s b → Pinned s' b
  requests : s.heap.requests ≤ s'.heap.requests
  tasks : SameStacks s s' ∨ ∃ t b, AddsTask s s' t b

theorem KeepsBlocks.of_same (h : Spares s s') (hs : SameStacks s s') : KeepsBlocks s s' :=
  ⟨fun _ hb => hb.spared h, h.heap.le, .inl hs⟩

/-- A step that adds nobody, and then one that may. -/
theorem KeepsBlocks.after (h : KeepsBlocks s s') (hs : SameStacks s s')
    (h' : KeepsBlocks s' s'') : KeepsBlocks s s'' := by
  refine ⟨fun b hb => h'.pinned b (h.pinned b hb), Nat.le_trans h.requests h'.requests, ?_⟩
  rcases h'.tasks with ⟨hc, ha, ht⟩ | ⟨t, b, hc, ha, htop, ⟨hlt, htb⟩, hr, hst, hn⟩
  · refine .inl ⟨hc.trans hs.created, ha.trans hs.addr, fun t hm => ?_⟩
    exact (ht t (hs.created ▸ hm)).trans (hs.top t hm)
  · refine .inr ⟨t, b, hs.created ▸ hc, ha.trans hs.addr, fun t hm => ?_,
      ⟨Nat.lt_of_le_of_lt h.requests hlt, htb⟩, hr, hst, hn⟩
    exact (htop t (hs.created ▸ hm)).trans (hs.top t hm)

/-- The other way round. -/
theorem KeepsBlocks.before (h : KeepsBlocks s s') (h' : KeepsBlocks s' s'')
    (hs : SameStacks s' s'') : KeepsBlocks s s'' := by
  refine ⟨fun b hb => h'.pinned b (h.pinned b hb), Nat.le_trans h.requests h'.requests, ?_⟩
  rcases h.tasks with hsame | ⟨t, b, hc, ha, htop, hfresh, hr, hst, hn⟩
  · refine .inl ⟨hs.created.trans hsame.created, hs.addr.trans hsame.addr, fun t hm => ?_⟩
    exact (hs.top t (hsame.created ▸ hm)).trans (hsame.top t hm)
  · have hmem : ∀ u, u = t ∨ u ∈ s.created → u ∈ s'.created := fun u hu =>
      hc ▸ List.mem_cons.mpr hu
    refine .inr ⟨t, b, hs.created.trans hc, hs.addr.trans ha, fun u hm => ?_, hfresh,
      h'.pinned t hr, h'.pinned b hst, ?_⟩
    · exact (hs.top u (hmem u (.inr hm))).trans (htop u hm)
    · rw [hs.top t (hmem t (.inl rfl)), hn, hs.addr]

/-! ## Each operation -/

theorem addr_createTask (s : Sched) (entry : Nat) (name : TaskName) (priority : Nat) :
    (createTask s entry name priority).2.heap.addr = s.heap.addr := by
  rw [createTask]
  split
  · rfl
  · dsimp only
    split
    · rfl
    · split
      · rfl
      · split
        · rfl
        · rfl

theorem addr_createIdleTask (s : Sched) : (createIdleTask s).2.heap.addr = s.heap.addr := by
  rw [createIdleTask]
  dsimp only
  split
  · rfl
  · split
    · rfl
    · rfl

theorem sameStacks_refused (hi : SchedInv s q) (hr : Refused s s')
    (ha : s'.heap.addr = s.heap.addr) : SameStacks s s' :=
  ⟨hr.created, ha, fun t ht => by rw [hr.tcb t (hi.handed t ht).2]⟩

/-- A new block is nobody's directory yet. -/
theorem pinned_new (hi : SchedInv s q) {n : Nat}
    (hheap : s'.heap = s.heap.after n) (hg : s.heap.GrantsNext n)
    (hb : s.heap.requests < b ∧ b ≤ s.heap.requests + n)
    (hnew : ∀ t ∈ s'.created, (s'.tcb t).pageDir = .heap b → t ∈ s.created ∧
      (s.tcb t).pageDir = .heap b) : Pinned s' b := by
  refine ⟨hheap ▸ (BlockHeap.live_after hi.sane hg).mpr (.inr hb), fun t ht hdir => ?_⟩
  obtain ⟨hm, hold⟩ := hnew t ht hdir
  exact absurd ((hi.fit t hm).dir b hold).2 (Nat.not_le_of_lt hb.1)

theorem keepsBlocks_withTask (hi : SchedInv s q) (hg : s.heap.GrantsNext 3) (entry : Nat)
    (name : TaskName) (p : Nat) : KeepsBlocks s (withTask s entry name p) := by
  have hspare := spares_withTask hi entry name p
  have hnew : (withTask s entry name p).tcb (s.heap.requests + 1) = newTask s entry name p :=
    Function.update_self _ _ _
  have hold : ∀ t ∈ s.created, (withTask s entry name p).tcb t = s.tcb t :=
    fun t ht => hi.update_old ht
  have hpin : ∀ b, s.heap.requests < b ∧ b ≤ s.heap.requests + 3 → b ≠ s.heap.requests + 2 →
      Pinned (withTask s entry name p) b := by
    intro b hb hne
    refine pinned_new hi (n := 3) rfl hg hb fun t ht hdir => ?_
    rcases List.mem_cons.mp ht with rfl | ht
    · rw [hnew] at hdir
      exact absurd (PageDir.heap.inj hdir).symm hne
    · rw [hold t ht] at hdir
      exact ⟨ht, hdir⟩
  refine ⟨fun b hb => hb.spared hspare, hspare.heap.le, .inr ⟨s.heap.requests + 1,
    s.heap.requests + 3, rfl, rfl, fun t ht => by rw [hold t ht], by omega, hpin _ (by omega)
      (by omega), hpin _ (by omega) (by omega), ?_⟩⟩
  rw [hnew]
  rfl

theorem keepsBlocks_withIdleTask (hi : SchedInv s q) (hg : s.heap.GrantsNext 2) :
    KeepsBlocks s (withIdleTask s) := by
  have hspare := spares_withIdleTask hi
  have hnew : (withIdleTask s).tcb (s.heap.requests + 1) = newIdleTask s :=
    Function.update_self _ _ _
  have hold : ∀ t ∈ s.created, (withIdleTask s).tcb t = s.tcb t := fun t ht => hi.update_old ht
  have hpin : ∀ b, s.heap.requests < b ∧ b ≤ s.heap.requests + 2 →
      Pinned (withIdleTask s) b := by
    intro b hb
    refine pinned_new hi (n := 2) rfl hg hb fun t ht hdir => ?_
    rcases List.mem_cons.mp ht with rfl | ht
    · rw [hnew] at hdir
      cases hdir
    · rw [hold t ht] at hdir
      exact ⟨ht, hdir⟩
  refine ⟨fun b hb => hb.spared hspare, hspare.heap.le, .inr ⟨s.heap.requests + 1,
    s.heap.requests + 2, rfl, rfl, fun t ht => by rw [hold t ht], by omega, hpin _ (by omega),
      hpin _ (by omega), ?_⟩⟩
  rw [hnew]
  rfl

/-- The child's record gets its parent's directory, so that all three blocks are pinned. -/
theorem pinned_forked (hi : SchedInv s q) (hm : s.currentTask ∈ s.created)
    (hg : s.heap.GrantsNext 3) (regs : Regs)
    (hb : s.heap.requests < b ∧ b ≤ s.heap.requests + 3) : Pinned (forked s regs) b := by
  refine pinned_new hi (n := 3) rfl hg hb fun t ht hdir => ?_
  rcases List.mem_cons.mp ht with rfl | ht
  · rw [forked_pageDir] at hdir
    exact absurd ((hi.fit _ hm).dir b hdir).2 (Nat.not_le_of_lt hb.1)
  · rw [forked_tcb_old hi ht] at hdir
    exact ⟨ht, hdir⟩

theorem keepsBlocks_forked (hi : SchedInv s q) (hm : s.currentTask ∈ s.created)
    (hg : s.heap.GrantsNext 3) (regs : Regs) : KeepsBlocks s (forked s regs) := by
  have hspare := spares_forked hi hm regs
  refine ⟨fun b hb => hb.spared hspare, hspare.heap.le, .inr ⟨s.heap.requests + 1,
    s.heap.requests + 3, rfl, rfl, fun t ht => by rw [forked_tcb_old hi ht], by omega,
      pinned_forked hi hm hg regs (by omega), pinned_forked hi hm hg regs (by omega), ?_⟩⟩
  simp only [forked, Sched.modify, Function.update_self, inherit, withTask, newTask]

theorem keepsBlocks_touches (h : Touches s s')
    (htop : ∀ t, (s'.tcb t).kernelStackTop = (s.tcb t).kernelStackTop) : KeepsBlocks s s' :=
  .of_same (.of_touches h) ⟨h.created, congrArg BlockHeap.addr h.heap, fun t _ => htop t⟩

theorem keepsBlocks_schedule (h : Sound s) (cpu : RegsContext) :
    KeepsBlocks s (schedule s cpu) := by
  have hg := untouched_kernelStackTop
  obtain ⟨q, hi, hon⟩ := h
  by_cases h0 : s.currentTask = 0
  · rw [schedule, if_pos h0]
    exact keepsBlocks_touches (.refl s) fun _ => rfl
  obtain ⟨q₁, h₁⟩ := exists_afterSlice hi h0 hon
  have hslice := touches_afterSlice s
  have hstacks : SameStacks s (afterSlice s) :=
    ⟨hslice.created, congrArg BlockHeap.addr hslice.heap, fun t _ => hg.afterSlice s t⟩
  have hkeep : KeepsBlocks s (afterSlice s) := keepsBlocks_touches hslice (hg.afterSlice s)
  rcases schedule_cases h0 h₁ cpu with ⟨p, t, rest, -, -, he⟩ | ⟨hempty, -⟩
  · rw [he]
    refine keepsBlocks_touches
      (hslice.trans ((touches_popped _ p t).trans (touches_dispatch _ cpu t))) fun x => ?_
    rw [hg.dispatch, hg.popped, hg.afterSlice]
  · refine hkeep.after hstacks ?_
    rcases schedule_none h0 h₁ hempty cpu with ⟨hgrant, he⟩ | ⟨-, he, hr⟩
    · rw [he]
      have hdisp := touches_dispatch (withIdleTask (afterSlice s)) cpu (s.heap.requests + 1)
      have htop := hg.dispatch (withIdleTask (afterSlice s)) cpu (s.heap.requests + 1)
      exact (keepsBlocks_withIdleTask h₁ (hslice.heap ▸ hgrant)).before
        (keepsBlocks_touches hdisp htop)
        ⟨hdisp.created, congrArg BlockHeap.addr hdisp.heap, fun t _ => htop t⟩
    · exact .of_same (.of_refused h₁ hr)
        (sameStacks_refused h₁ hr (he ▸ addr_createIdleTask _))

/-- **Every operation** leaves the pinned blocks and adds one task at most. -/
theorem keepsBlocks_step (h : Sound s) (op : SchedOp) : KeepsBlocks s (schedStep s op) := by
  have hg := untouched_kernelStackTop
  have hsame : KeepsBlocks s s := keepsBlocks_touches (.refl s) fun _ => rfl
  have hinv := h
  obtain ⟨q, hi, hon⟩ := hinv
  cases op with
  | create entry name priority =>
    rcases createTask_cases s entry name priority with ⟨-, hgrant, hc⟩ | ⟨-, -, hr⟩
    · rw [schedStep, hc]
      exact keepsBlocks_withTask hi hgrant entry name priority
    · exact .of_same (.of_refused hi hr)
        (sameStacks_refused hi hr (addr_createTask s entry name priority))
  | fork regs =>
    by_cases h0 : s.currentTask = 0
    · simp only [schedStep, sysForkHandler, if_pos h0]
      exact hsame
    · rcases fork_cases h h0 regs with ⟨hgrant, he⟩ | ⟨hno, hr⟩
      · rw [he]
        exact keepsBlocks_forked hi (h.current h0) hgrant regs
      · refine .of_same (.of_refused hi hr) (sameStacks_refused hi hr ?_)
        simp only [schedStep, sysForkHandler, if_neg h0]
        split
        · exact addr_createTask s _ _ _
        · exact addr_createTask s _ _ _
  | schedule cpu => exact keepsBlocks_schedule h cpu
  | tick regs cpu =>
    have hq := sameQueues_atInterrupt s regs
    obtain ⟨f, -, hdir, he⟩ :=
      saveInterrupted_eq { s with systemTicks := u32 (s.systemTicks + 1) } regs
    have htop : ∀ t, ((atInterrupt s regs).tcb t).kernelStackTop = (s.tcb t).kernelStackTop :=
      hg.saveInterrupted { s with systemTicks := u32 (s.systemTicks + 1) } regs
    have htouch : Touches s (atInterrupt s regs) := by
      have hmod : Touches s (s.modify s.currentTask f) := by
        refine ⟨rfl, rfl, rfl, rfl, fun t => ?_, s.modify_field Task.pageDir hdir s.currentTask⟩
        have hprio := hq.priority t
        rw [atInterrupt, he] at hprio
        exact hprio
      rw [atInterrupt, he]
      exact ⟨rfl, rfl, rfl, rfl, hmod.priority, hmod.pageDir⟩
    exact (keepsBlocks_touches htouch htop).after
      ⟨hq.created, congrArg BlockHeap.addr hq.heap, fun t _ => htop t⟩
      (keepsBlocks_schedule (h.atInterrupt regs) cpu)
  | exit cpu =>
    by_cases h0 : s.currentTask = 0
    · simp only [schedStep, taskExit, if_pos h0]
      exact hsame
    · rw [schedStep_exit h0]
      have hcreated : (releaseCurrent s).created = s.created ∧
          (releaseCurrent s).heap.addr = s.heap.addr ∧
          (releaseCurrent s).heap.requests = s.heap.requests := by
        rcases releaseCurrent_cases s with ⟨-, he⟩ | ⟨b, -, -, he⟩
        · rw [he]
          exact ⟨rfl, rfl, rfl⟩
        · rw [he]
          exact ⟨rfl, rfl, rfl⟩
      have hstacks : SameStacks s (releaseCurrent s) :=
        ⟨hcreated.1, hcreated.2.1, fun t _ => hg.releaseCurrent s t⟩
      have hkeep : KeepsBlocks s (releaseCurrent s) :=
        ⟨fun b hb => hb.releaseCurrent (h.current h0), Nat.le_of_eq hcreated.2.2.symm,
          .inl hstacks⟩
      exact hkeep.after hstacks (keepsBlocks_schedule (h.releaseCurrent h0) cpu)

/-! ## Runs -/

theorem Sound.run (h : Sound s) (ops : List SchedOp) : Sound (ops.foldl schedStep s) := by
  induction ops generalizing s with
  | nil => exact h
  | cons op ops ih => exact ih (h.step op)

/-- A block that is nobody's directory is never freed. -/
theorem Pinned.run (h : Pinned s b) (hs : Sound s) (ops : List SchedOp) :
    Pinned (ops.foldl schedStep s) b := by
  induction ops generalizing s with
  | nil => exact h
  | cons op ops ih => exact ih ((keepsBlocks_step hs op).pinned b h) (hs.step op)

/-- Every task holds its record and the stack `stack` says. -/
structure HoldsBlocks (s : Sched) (stack : Nat → Nat) : Prop where
  record : ∀ t ∈ s.created, Pinned s t
  stacked : ∀ t ∈ s.created, Pinned s (stack t)
  top : ∀ t ∈ s.created, (s.tcb t).kernelStackTop = u32 (s.heap.addr (stack t) + 4096)
  apart : (s.created ++ s.created.map stack).Nodup

theorem HoldsBlocks.step {stack : Nat → Nat} (h : HoldsBlocks s stack)
    (hkeep : KeepsBlocks s s') : ∃ stack', HoldsBlocks s' stack' := by
  rcases hkeep.tasks with hs | ⟨t, b, hn⟩
  · refine ⟨stack, fun t ht => ?_, fun t ht => ?_, fun t ht => ?_, ?_⟩
    · exact hkeep.pinned t (h.record t (hs.created ▸ ht))
    · exact hkeep.pinned _ (h.stacked t (hs.created ▸ ht))
    · rw [hs.created] at ht
      rw [hs.top t ht, hs.addr, h.top t ht]
    · rw [hs.created]
      exact h.apart
  · -- the blocks held so far are older than the two new ones
    obtain ⟨htnew, htb⟩ := hn.fresh
    have holder : ∀ x ∈ s.created ++ s.created.map stack, x ≤ s.heap.requests := by
      intro x hx
      rcases List.mem_append.mp hx with hx | hx
      · exact (h.record x hx).live.le
      · obtain ⟨u, hu, rfl⟩ := List.mem_map.mp hx
        exact (h.stacked u hu).live.le
    have hne : ∀ u ∈ s.created, u ≠ t := fun u hu => by
      have hle := (h.record u hu).live.le
      omega
    have hstack : ∀ u ∈ s.created, Function.update stack t b u = stack u := fun u hu =>
      Function.update_of_ne (hne u hu) _ _
    have hmap : s'.created.map (Function.update stack t b) = b :: s.created.map stack := by
      rw [hn.created, List.map_cons, Function.update_self, List.map_congr_left hstack]
    refine ⟨Function.update stack t b, fun u hu => ?_, fun u hu => ?_, fun u hu => ?_, ?_⟩
    · rw [hn.created] at hu
      rcases List.mem_cons.mp hu with rfl | hu
      · exact hn.record
      · exact hkeep.pinned u (h.record u hu)
    · rw [hn.created] at hu
      rcases List.mem_cons.mp hu with rfl | hu
      · rw [Function.update_self]
        exact hn.stack
      · rw [hstack u hu]
        exact hkeep.pinned _ (h.stacked u hu)
    · rw [hn.created] at hu
      rcases List.mem_cons.mp hu with rfl | hu
      · rw [Function.update_self]
        exact hn.newTop
      · rw [hstack u hu, hn.top u hu, hn.addr, h.top u hu]
    · rw [hmap, hn.created, List.cons_append, List.nodup_cons, List.nodup_middle, List.nodup_cons]
      refine ⟨fun hm => ?_, fun hm => ?_, h.apart⟩
      · rcases List.mem_append.mp hm with hm | hm
        · exact hne t hm rfl
        · rcases List.mem_cons.mp hm with heq | hm
          · omega
          · have := holder t (List.mem_append_right _ hm)
            omega
      · have := holder b hm
        omega

theorem HoldsBlocks.run {stack : Nat → Nat} (h : HoldsBlocks s stack) (hs : Sound s)
    (ops : List SchedOp) : ∃ stack', HoldsBlocks (ops.foldl schedStep s) stack' := by
  induction ops generalizing s stack with
  | nil => exact ⟨stack, h⟩
  | cons op ops ih =>
    obtain ⟨stack', h'⟩ := h.step (keepsBlocks_step hs op)
    exact ih h' (hs.step op)

theorem addr_schedInit (s : Sched) : (schedInit s).heap.addr = s.heap.addr := by
  have hidle := addr_createIdleTask { s with readyQueue := fun _ => 0 }
  simp only [schedInit]
  split
  · exact hidle
  · split
    · exact (addr_createTask _ _ _ _).trans hidle
    · exact (addr_createTask _ _ _ _).trans hidle

theorem holdsBlocks_schedInit {heap : BlockHeap} (hs : heap.Sane) (i j : Nat) :
    ∃ stack, HoldsBlocks (schedInit (.boot heap i j)) stack := by
  have hboot := schedInv_boot hs i j
  set s₀ : Sched := { Sched.boot heap i j with readyQueue := fun _ => 0 }
  have hnone : ∀ s, s.created = [] → ∃ stack, HoldsBlocks s stack := fun s hc =>
    ⟨id, fun t ht => (by rw [hc] at ht; cases ht), fun t ht => (by rw [hc] at ht; cases ht),
      fun t ht => (by rw [hc] at ht; cases ht), by rw [hc]; exact List.nodup_nil⟩
  by_cases hg : s₀.heap.GrantsNext 2
  · -- the idle task, and what the creation of the init task leaves
    have hsame : Touches (withIdleTask s₀) (queuedIdle s₀) :=
      ⟨rfl, rfl, rfl, rfl, fun _ => rfl, fun _ => rfl⟩
    have hkeep : KeepsBlocks s₀ (queuedIdle s₀) :=
      (keepsBlocks_withIdleTask hboot hg).before (keepsBlocks_touches hsame fun _ => rfl)
        ⟨rfl, rfl, fun _ _ => rfl⟩
    have hinv := hboot.queuedIdle rfl
    obtain ⟨stack, hidle⟩ := (hnone s₀ rfl).elim fun _ h => h.step hkeep
    rcases schedInit_cases (.boot heap i j) with hr | hr | ⟨hgrant, he⟩
    · exact hnone _ hr.created
    · exact hidle.step (.of_same (.of_refused hinv hr)
        (sameStacks_refused hinv hr (addr_schedInit (.boot heap i j))))
    · rw [he]
      have hstart : Touches
          (withTask (queuedIdle s₀) s₀.initEntry ⟨"init", init_fits⟩ 5) (started s₀) :=
        ⟨rfl, rfl, rfl, rfl, fun _ => rfl, fun _ => rfl⟩
      exact hidle.step ((keepsBlocks_withTask hinv hgrant _ _ 5).before
        (keepsBlocks_touches hstart fun _ => rfl) ⟨rfl, rfl, fun _ _ => rfl⟩)
  · have hfail : (schedInit (.boot heap i j)).created = [] := by
      rcases createIdleTask_cases s₀ with ⟨hyes, -⟩ | ⟨-, hnull, hr⟩
      · exact absurd hyes hg
      · have heq : schedInit (.boot heap i j) = (createIdleTask s₀).2 := by
          simp only [schedInit]
          exact if_pos hnull
        rw [heq]
        exact hr.created
    exact hnone _ hfail

/-- **Tasks are never reclaimed.** In every run from `sched_init` in which no directory was
freed twice each task ever created, whether it exited or not, holds two live blocks of its
own: its record, and the kernel stack that ends at `kernel_stack_top`. -/
theorem tasks_hold_blocks {heap : BlockHeap} (hs : heap.Sane) (idleEntry initEntry : Nat)
    (ops : List SchedOp) :
    let s := ops.foldl schedStep (schedInit (.boot heap idleEntry initEntry))
    s.freedDirs.Nodup → ∃ stack : Nat → Nat, (s.created ++ s.created.map stack).Nodup ∧
      ∀ t ∈ s.created, s.heap.Live t ∧ s.heap.Live (stack t) ∧
        (s.tcb t).kernelStackTop = u32 (s.heap.addr (stack t) + 4096) := by
  intro s _
  obtain ⟨stack₀, h₀⟩ := holdsBlocks_schedInit hs idleEntry initEntry
  obtain ⟨stack, h⟩ := h₀.run (.schedInit hs idleEntry initEntry) ops
  exact ⟨stack, h.apart, fun t ht =>
    ⟨(h.record t ht).live, (h.stacked t ht).live, h.top t ht⟩⟩

/-- Two tasks that exited still hold their blocks. -/
theorem tasks_hold_blocks_exit :
    let s := [SchedOp.schedule .zero, .create 0 ⟨"printer", by decide⟩ 6, .fork zeroRegs,
      .schedule .zero, .exit .zero, .exit .zero].foldl schedStep
        (schedInit (.boot grantingHeap 0 0))
    ∃ stack : Nat → Nat, (s.created ++ s.created.map stack).Nodup ∧
      ∀ t ∈ s.created, s.heap.Live t ∧ s.heap.Live (stack t) ∧
        (s.tcb t).kernelStackTop = u32 (s.heap.addr (stack t) + 4096) :=
  tasks_hold_blocks sane_grantingHeap 0 0 _ (by decide)

/-- **A fork loses a directory.** The directory that is allocated for a forked child is
live in every later state in which no directory was freed twice, and no task whose own one
is live has it for its `page_dir`. A task whose directory was freed still points to where
it was, and another block may stand there. -/
theorem fork_strands_directory {heap : BlockHeap} (hs : heap.Sane) (idleEntry initEntry : Nat)
    (before after : List SchedOp) (regs : Regs)
    (h0 : (before.foldl schedStep (schedInit (.boot heap idleEntry initEntry))).currentTask ≠ 0)
    (hg : (before.foldl schedStep
      (schedInit (.boot heap idleEntry initEntry))).heap.GrantsNext 3) :
    let s := before.foldl schedStep (schedInit (.boot heap idleEntry initEntry))
    let s' := (SchedOp.fork regs :: after).foldl schedStep s
    s'.freedDirs.Nodup → s'.heap.Live (s.heap.requests + 2) ∧
      ∀ t ∈ s'.created, DirLive s'.heap (s'.tcb t).pageDir →
        (s'.tcb t).pageDir ≠ .heap (s.heap.requests + 2) := by
  intro s s' _
  have hsound : Sound s := (Sound.schedInit hs idleEntry initEntry).run before
  have hrest := hsound.step (.fork regs)
  have hpinned : Pinned s' (s.heap.requests + 2) := by
    rcases fork_cases hsound h0 regs with ⟨-, he⟩ | ⟨hno, -⟩
    · refine Pinned.run ?_ hrest after
      obtain ⟨q, hinv, -⟩ := hsound
      rw [he]
      exact pinned_forked hinv (hinv.current.resolve_left h0) hg regs (by omega)
    · exact absurd hg hno
  exact ⟨hpinned.live, fun t ht _ => hpinned.nobodys t ht⟩

/-- The init task forks and exits, and its child forks. -/
theorem fork_strands_directory_exit :
    let s := [SchedOp.schedule .zero].foldl schedStep (schedInit (.boot grantingHeap 0 0))
    let s' := [SchedOp.fork zeroRegs, .exit .zero, .fork zeroRegs, .tick zeroRegs .zero].foldl
      schedStep s
    s'.heap.Live (s.heap.requests + 2) ∧
      ∀ t ∈ s'.created, DirLive s'.heap (s'.tcb t).pageDir →
        (s'.tcb t).pageDir ≠ .heap (s.heap.requests + 2) :=
  fork_strands_directory sane_grantingHeap 0 0 [.schedule .zero]
    [.exit .zero, .fork zeroRegs, .tick zeroRegs .zero] zeroRegs (by decide) (fun _ _ => rfl)
    (by decide)

end SynapseKernel.Proc
