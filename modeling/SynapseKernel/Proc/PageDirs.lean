import SynapseKernel.Proc.SchedRuns

/-! # Who owns a page directory

`create_task` gives a task a directory of its own, but `sys_fork_handler` makes
the child point to its parent's, and `task_exit` frees whatever the current task
points to. The directories stay live if and only if no task exits while another
live one shares its directory, and no task that already exited forks or exits
again. -/
namespace SynapseKernel.Proc
open SynapseKernel.Word SynapseKernel.Kheap SynapseKernel.Runs

variable {s s' s'' : Sched} {q : Nat → List Nat} {t : Nat} {cpu : RegsContext} {regs : Regs}

/-- The kernel's directory, or a live allocation. -/
def DirLive (heap : BlockHeap) : PageDir → Prop
  | .kernel => True
  | .heap b => heap.Live b

/-- No task that has not exited points to a freed directory, and no directory
was passed to `kfree` twice. -/
def PageDirsLive (s : Sched) : Prop :=
  (∀ t ∈ s.created, t ∉ s.exited → DirLive s.heap (s.tcb t).pageDir) ∧ s.freedDirs.Nodup

/-- The operation leaves every directory to those who point to it. -/
def KeepsDirs (s : Sched) : SchedOp → Prop
  | .fork _ => s.currentTask = 0 ∨ s.currentTask ∉ s.exited ∨
      (s.tcb s.currentTask).pageDir = .kernel ∨ ¬ s.heap.GrantsNext 3
  | .exit _ => s.currentTask = 0 ∨ (s.tcb s.currentTask).pageDir = .kernel ∨
      s.currentTask ∉ s.exited ∧ ∀ t ∈ s.created, t ≠ s.currentTask → t ∉ s.exited →
        (s.tcb t).pageDir ≠ (s.tcb s.currentTask).pageDir
  | .create _ _ _ => True
  | .schedule _ => True
  | .tick _ _ => True

/-! ## The invariant -/

structure DirInv (s : Sched) : Prop where
  live : ∀ t ∈ s.created, t ∉ s.exited → DirLive s.heap (s.tcb t).pageDir
  nodup : s.freedDirs.Nodup
  freed : ∀ b ∈ s.freedDirs, b ∈ s.heap.freed
  exited : ∀ t ∈ s.exited, t ∈ s.created ∧
    ∀ b, (s.tcb t).pageDir = .heap b → b ∈ s.freedDirs

/-- New tasks have live directories, old ones keep theirs, and what is freed
meanwhile was allocated meanwhile. -/
structure Continues (s s' : Sched) : Prop where
  heap : s.heap.Later s'.heap
  kept : ∀ t ∈ s.created, t ∈ s'.created ∧ (s'.tcb t).pageDir = (s.tcb t).pageDir
  created : ∀ t ∈ s'.created, t ∈ s.created ∨ DirLive s'.heap (s'.tcb t).pageDir
  exited : s'.exited = s.exited
  freedDirs : s'.freedDirs = s.freedDirs ∨
    ∃ b, s.heap.requests < b ∧ b ∈ s'.heap.freed ∧ s'.freedDirs = b :: s.freedDirs

theorem Continues.freedDirs_subset (h : Continues s s') : s.freedDirs ⊆ s'.freedDirs := by
  rcases h.freedDirs with he | ⟨b, -, -, he⟩
  · rw [he]
    exact List.Subset.refl _
  · rw [he]
    exact List.subset_cons_self b _

theorem DirInv.continues (h : DirInv s) (hi : SchedInv s q) (hc : Continues s s') : DirInv s' := by
  refine ⟨fun t ht hx => ?_, ?_, fun b hb => ?_, fun t ht => ?_⟩
  · rcases hc.created t ht with hold | hlive
    · rw [(hc.kept t hold).2]
      rw [hc.exited] at hx
      have hlive := h.live t hold hx
      cases hd : (s.tcb t).pageDir with
      | kernel => trivial
      | heap b =>
        rw [hd] at hlive
        exact (hc.heap.live b ((hi.fit t hold).dir b hd).2).mpr hlive
    · exact hlive
  · rcases hc.freedDirs with he | ⟨b, hb, -, he⟩
    · exact he ▸ h.nodup
    · rw [he]
      refine List.nodup_cons.mpr ⟨fun hm => ?_, h.nodup⟩
      have hle := hi.sane b (h.freed b hm)
      omega
  · rcases hc.freedDirs with he | ⟨b', -, hb', he⟩
    · exact hc.heap.freed b (h.freed b (he ▸ hb))
    · rw [he] at hb
      rcases List.mem_cons.mp hb with rfl | hb
      · exact hb'
      · exact hc.heap.freed b (h.freed b hb)
  · rw [hc.exited] at ht
    obtain ⟨hm, hgone⟩ := h.exited t ht
    obtain ⟨hm', hdir⟩ := hc.kept t hm
    exact ⟨hm', fun b hb => hc.freedDirs_subset (hgone b (hdir.symm.trans hb))⟩

/-! ## What continues so -/

theorem Continues.of_touches (h : Touches s s') : Continues s s' := by
  refine ⟨h.heap ▸ .refl _, fun t ht => ⟨h.created ▸ ht, h.pageDir t⟩, fun t ht => ?_, h.exited,
    .inl h.freedDirs⟩
  exact .inl (h.created ▸ ht)

theorem Continues.of_refused (hi : SchedInv s q) (h : Refused s s') : Continues s s' := by
  refine ⟨h.heap, fun t ht => ⟨h.created ▸ ht, ?_⟩, fun t ht => .inl (h.created ▸ ht), h.exited,
    h.freedDirs⟩
  rw [h.tcb t (hi.handed t ht).2]

theorem Continues.after (h : Touches s s') (hc : Continues s' s'') : Continues s s'' := by
  refine ⟨h.heap ▸ hc.heap, fun t ht => ?_, fun t ht => ?_, hc.exited.trans h.exited, ?_⟩
  · obtain ⟨hm, hdir⟩ := hc.kept t (h.created ▸ ht)
    exact ⟨hm, hdir.trans (h.pageDir t)⟩
  · exact (hc.created t ht).imp_left (h.created ▸ ·)
  · have hf := hc.freedDirs
    rwa [h.freedDirs, h.heap] at hf

theorem Continues.before (hc : Continues s s') (h : Touches s' s'') : Continues s s'' := by
  refine ⟨h.heap ▸ hc.heap, fun t ht => ?_, fun t ht => ?_, h.exited.trans hc.exited, ?_⟩
  · obtain ⟨hm, hdir⟩ := hc.kept t ht
    exact ⟨h.created ▸ hm, (h.pageDir t).trans hdir⟩
  · rw [h.pageDir t, h.heap]
    exact hc.created t (h.created ▸ ht)
  · have hf := hc.freedDirs
    rwa [← h.freedDirs, ← h.heap] at hf

section Created
variable (hi : SchedInv s q)
include hi

theorem continues_withTask (hg : s.heap.GrantsNext 3) (entry : Nat) (name : TaskName) (p : Nat) :
    Continues s (withTask s entry name p) := by
  have hlater := BlockHeap.Later.refl s.heap
  refine ⟨((hlater.kmalloc taskSize).kmalloc pageDirectorySize).kmalloc kernelStackSize,
    fun t ht => ⟨List.mem_cons_of_mem _ ht, ?_⟩, fun t ht => ?_, rfl, .inl rfl⟩
  · exact congrArg Task.pageDir (hi.update_old ht)
  · rcases List.mem_cons.mp ht with rfl | ht
    · refine .inr ?_
      simp only [withTask, Function.update_self, newTask]
      refine ⟨Nat.succ_pos _, Nat.le_succ _, hg 1 (by decide), fun hm => ?_⟩
      have hle := hi.sane _ hm
      omega
    · exact .inl ht

theorem continues_withIdleTask : Continues s (withIdleTask s) := by
  have hlater := BlockHeap.Later.refl s.heap
  refine ⟨(hlater.kmalloc taskSize).kmalloc kernelStackSize,
    fun t ht => ⟨List.mem_cons_of_mem _ ht, ?_⟩, fun t ht => ?_, rfl, .inl rfl⟩
  · exact congrArg Task.pageDir (hi.update_old ht)
  · rcases List.mem_cons.mp ht with rfl | ht
    · refine .inr ?_
      simp only [withIdleTask, Function.update_self, newIdleTask]
      trivial
    · exact .inl ht

theorem continues_createTask (entry : Nat) (name : TaskName) (p : Nat) :
    Continues s (createTask s entry name p).2 := by
  rcases createTask_cases s entry name p with ⟨-, hg, hc⟩ | ⟨-, -, hr⟩
  · rw [hc]
    exact continues_withTask hi hg entry name p
  · exact .of_refused hi hr

omit hi in
theorem forked_pageDir (s : Sched) (regs : Regs) :
    ((forked s regs).tcb (s.heap.requests + 1)).pageDir = (s.tcb s.currentTask).pageDir := by
  simp only [forked, Sched.modify, Function.update_self, inherit]

theorem forked_tcb_old (ht : t ∈ s.created) (regs : Regs) :
    (forked s regs).tcb t = s.tcb t := by
  have hne : t ≠ s.heap.requests + 1 := fun he => hi.fresh (he ▸ ht)
  exact (Function.update_of_ne hne _ _).trans (hi.update_old ht)

/-- A child of a task with a live directory has one too. -/
theorem continues_forked (hg : s.heap.GrantsNext 3)
    (hlive : DirLive s.heap (s.tcb s.currentTask).pageDir) (regs : Regs) :
    Continues s (forked s regs) := by
  have hnew := continues_withTask hi hg regs.eip ⟨"forked", forked_fits⟩
    (s.tcb s.currentTask).priority
  refine ⟨hnew.heap, fun t ht => ⟨(hnew.kept t ht).1, ?_⟩, fun t ht => ?_, rfl, .inl rfl⟩
  · rw [forked_tcb_old hi ht]
  · rcases List.mem_cons.mp ht with rfl | ht
    · rw [forked_pageDir]
      refine .inr ?_
      cases hd : (s.tcb s.currentTask).pageDir with
      | kernel => trivial
      | heap b =>
        rw [hd] at hlive
        exact (hnew.heap.live b hlive.le).mpr hlive
    · exact .inl ht

end Created

theorem continues_schedule (h : Sound s) (cpu : RegsContext) : Continues s (schedule s cpu) := by
  obtain ⟨q, hi, hon⟩ := h
  by_cases h0 : s.currentTask = 0
  · rw [schedule, if_pos h0]
    exact .of_touches (.refl s)
  obtain ⟨q₁, h₁⟩ := exists_afterSlice hi h0 hon
  have hslice := touches_afterSlice s
  rcases schedule_cases h0 h₁ cpu with ⟨p, t, rest, -, -, he⟩ | ⟨-, he | hr⟩
  · rw [he]
    exact .of_touches (hslice.trans ((touches_popped _ p t).trans (touches_dispatch _ cpu t)))
  · rw [he]
    exact .after hslice ((continues_withIdleTask h₁).before (touches_dispatch _ cpu _))
  · exact .after hslice (.of_refused h₁ hr)

theorem continues_tick (h : Sound s) (regs : Regs) (cpu : RegsContext) :
    Continues s (timerInterruptHandler s regs cpu) := by
  obtain ⟨s₁, h₁, htouch, he⟩ := h.interrupted regs
  rw [he]
  exact .after htouch (continues_schedule h₁ cpu)

theorem dirInv_schedInit {heap : BlockHeap} (hs : heap.Sane) (i j : Nat) :
    DirInv (schedInit (.boot heap i j)) := by
  have hboot := schedInv_boot hs i j
  have hnone : DirInv { Sched.boot heap i j with readyQueue := fun _ => 0 } := by
    refine ⟨fun t ht => ?_, List.nodup_nil, fun b hb => ?_, fun t ht => ?_⟩
    · cases ht
    · cases hb
    · cases ht
  have hidle : DirInv (queuedIdle { Sched.boot heap i j with readyQueue := fun _ => 0 }) :=
    hnone.continues hboot ((continues_withIdleTask hboot).before
      ⟨rfl, rfl, rfl, rfl, fun _ => rfl, fun _ => rfl⟩)
  rcases schedInit_cases (.boot heap i j) with hr | hr | ⟨hg, he⟩
  · exact hnone.continues hboot (.of_refused hboot hr)
  · exact hidle.continues (hboot.queuedIdle rfl) (.of_refused (hboot.queuedIdle rfl) hr)
  · rw [he]
    exact hidle.continues (hboot.queuedIdle rfl)
      ((continues_withTask (hboot.queuedIdle rfl) hg _ ⟨"init", init_fits⟩ 5).before
        ⟨rfl, rfl, rfl, rfl, fun _ => rfl, fun _ => rfl⟩)

/-! ## fork and exit -/

theorem DirInv.pageDirsLive (h : DirInv s) : PageDirsLive s := ⟨h.live, h.nodup⟩

theorem DirInv.fork (h : DirInv s) (hs : Sound s) (hok : KeepsDirs s (.fork regs)) :
    DirInv (schedStep s (.fork regs)) := by
  by_cases h0 : s.currentTask = 0
  · simp only [schedStep, sysForkHandler, if_pos h0]
    exact h
  have hm := hs.current h0
  rcases fork_cases hs h0 regs with ⟨hg, he⟩ | ⟨-, hr⟩
  · have hlive : DirLive s.heap (s.tcb s.currentTask).pageDir := by
      rcases hok.resolve_left h0 with hx | hkernel | hno
      · exact h.live _ hm hx
      · rw [hkernel]
        trivial
      · exact absurd hg hno
    obtain ⟨q, hi, -⟩ := hs
    rw [he]
    exact h.continues hi (continues_forked hi hg hlive regs)
  · obtain ⟨q, hi, -⟩ := hs
    exact h.continues hi (.of_refused hi hr)

/-- A child of a task that exited gets its freed directory. -/
theorem DirInv.fork_dangles (h : DirInv s) (hs : Sound s) (hbad : ¬ KeepsDirs s (.fork regs)) :
    ¬ PageDirsLive (schedStep s (.fork regs)) := by
  simp only [KeepsDirs, not_or, not_not] at hbad
  obtain ⟨h0, hx, hdir, hg⟩ := hbad
  rcases fork_cases hs h0 regs with ⟨-, he⟩ | ⟨hno, -⟩
  · obtain ⟨q, hi, -⟩ := hs
    cases hd : (s.tcb s.currentTask).pageDir with
    | kernel => exact absurd hd hdir
    | heap b =>
      rintro ⟨hlive, -⟩
      rw [he] at hlive
      have hchild : ((forked s regs).tcb (s.heap.requests + 1)).pageDir = .heap b := by
        rw [forked_pageDir, hd]
      have hnew : s.heap.requests + 1 ∉ s.exited := fun hm => hi.fresh (h.exited _ hm).1
      have hb := hlive _ List.mem_cons_self hnew
      rw [hchild] at hb
      exact hb.kept (h.freed b ((h.exited _ hx).2 b hd))
  · exact absurd hg hno

theorem Sound.not_heap (hs : Sound s) (h0 : s.currentTask ≠ 0)
    (hdir : (s.tcb s.currentTask).pageDir = .kernel ∨ (s.tcb s.currentTask).pageDir = .null)
    (b : Nat) : (s.tcb s.currentTask).pageDir ≠ .heap b := by
  intro hb
  have hpos := ((hs.fit (hs.current h0)).dir b hb).1
  rcases hdir with hk | hn
  · rw [hk] at hb
    cases hb
  · rw [hn] at hb
    have h0b : 0 = b := PageDir.heap.inj hb
    omega

/-- The directories once the current task has let go of its own. -/
theorem DirInv.releaseCurrent (h : DirInv s) (hs : Sound s) (h0 : s.currentTask ≠ 0)
    (hok : KeepsDirs s (.exit cpu)) : DirInv (releaseCurrent s) := by
  have hm := hs.current h0
  have hzombie : Touches s (s.modify s.currentTask fun t => { t with state := .zombie }) :=
    .modify fun _ => ⟨rfl, rfl⟩
  rcases releaseCurrent_cases s with ⟨hdir, he⟩ | ⟨b, -, hb, he⟩
  · have hown : ∀ b, (s.tcb s.currentTask).pageDir = .heap b → b ∈ s.freedDirs := fun b hb =>
      absurd hb (hs.not_heap h0 hdir b)
    rw [he]
    refine ⟨fun t ht hx => ?_, h.nodup, h.freed, fun t ht => ?_⟩
    · rw [hzombie.pageDir]
      exact h.live t ht fun hm => hx (List.mem_cons_of_mem _ hm)
    · simp only [hzombie.pageDir]
      rcases List.mem_cons.mp ht with rfl | ht
      · exact ⟨hm, hown⟩
      · exact h.exited t ht
  · have hk : (s.tcb s.currentTask).pageDir ≠ .kernel := by
      rw [hb]
      exact PageDir.noConfusion
    obtain ⟨hx, hothers⟩ := (hok.resolve_left h0).resolve_left hk
    have hlive := h.live _ hm hx
    rw [hb] at hlive hothers
    have hfresh : b ∉ s.freedDirs := fun hf => hlive.kept (h.freed b hf)
    rw [he]
    refine ⟨fun t ht hx => ?_, List.nodup_cons.mpr ⟨hfresh, h.nodup⟩, fun b' hb' => ?_,
      fun t ht => ?_⟩
    · obtain ⟨hne, hx⟩ := not_or.mp (mt List.mem_cons.mpr hx)
      have hlive := h.live t ht hx
      have hother := hothers t ht hne hx
      rw [hzombie.pageDir]
      cases hd : (s.tcb t).pageDir with
      | kernel => trivial
      | heap b' =>
        rw [hd] at hlive hother
        exact BlockHeap.live_kfree.mpr ⟨hlive, fun hbb => hother (hbb ▸ rfl)⟩
    · rcases List.mem_cons.mp hb' with rfl | hb'
      · exact List.mem_cons_self
      · exact List.mem_cons_of_mem _ (h.freed b' hb')
    · simp only [hzombie.pageDir]
      rcases List.mem_cons.mp ht with rfl | ht
      · refine ⟨hm, fun b' hb' => ?_⟩
        rw [hb] at hb'
        exact PageDir.heap.inj hb' ▸ List.mem_cons_self
      · exact ⟨(h.exited t ht).1, fun b' hb' => List.mem_cons_of_mem _ ((h.exited t ht).2 b' hb')⟩

theorem DirInv.exit (h : DirInv s) (hs : Sound s) (hok : KeepsDirs s (.exit cpu)) :
    DirInv (schedStep s (.exit cpu)) := by
  by_cases h0 : s.currentTask = 0
  · simp only [schedStep, taskExit, if_pos h0]
    exact h
  · obtain ⟨q, hi, -⟩ := hs.releaseCurrent h0
    rw [schedStep_exit h0]
    exact (h.releaseCurrent hs h0 hok).continues hi (continues_schedule (hs.releaseCurrent h0) cpu)

theorem DirInv.exit_dangles (h : DirInv s) (hs : Sound s) (hbad : ¬ KeepsDirs s (.exit cpu)) :
    ¬ PageDirsLive (schedStep s (.exit cpu)) := by
  simp only [KeepsDirs, not_or] at hbad
  obtain ⟨h0, hk, hshared⟩ := hbad
  have hc := continues_schedule (hs.releaseCurrent h0) cpu
  rw [schedStep_exit h0]
  rcases releaseCurrent_cases s with ⟨hdir, -⟩ | ⟨b, -, hb, he⟩
  · cases hd : (s.tcb s.currentTask).pageDir with
    | kernel => exact absurd hd hk
    | heap b => exact absurd hd (hs.not_heap h0 hdir b)
  · rintro ⟨hlive, hnodup⟩
    have hfreed : (Proc.releaseCurrent s).freedDirs = b :: s.freedDirs := by rw [he]
    by_cases hx : s.currentTask ∈ s.exited
    · -- the directory is freed a second time
      have htwice : ¬ (b :: s.freedDirs).Nodup := fun hn =>
        (List.nodup_cons.mp hn).1 ((h.exited _ hx).2 b hb)
      refine htwice (hfreed ▸ ?_)
      rcases hc.freedDirs with hd | ⟨b', -, -, hd⟩
      · exact hd ▸ hnodup
      · rw [hd] at hnodup
        exact (List.nodup_cons.mp hnodup).2
    · -- somebody else still points to it
      rw [and_iff_right hx] at hshared
      push Not at hshared
      obtain ⟨t, ht, hne, htx, hdir⟩ := hshared
      have ht' : t ∈ (Proc.releaseCurrent s).created := by rw [he]; exact ht
      have hdir' : ((Proc.releaseCurrent s).tcb t).pageDir = .heap b := by
        have hzombie : Touches s (s.modify s.currentTask fun t => { t with state := .zombie }) :=
          .modify fun _ => ⟨rfl, rfl⟩
        rw [he]
        exact (hzombie.pageDir t).trans (hdir.trans hb)
      obtain ⟨hm, hkept⟩ := hc.kept t ht'
      have hnot : t ∉ (schedule (Proc.releaseCurrent s) cpu).exited := by
        rw [hc.exited, he]
        exact fun hm => (List.mem_cons.mp hm).elim hne htx
      have hb' := hlive t hm hnot
      rw [hkept, hdir'] at hb'
      refine hb'.kept (hc.heap.freed b ?_)
      rw [he]
      exact List.mem_cons_self

def zeroRegs : Regs := ⟨0, 0, 0, 0, 0, 0, 0, 0, 0, 0, 0, 0, 0, 0, 0, 0⟩

/-- **Page directories.** In a run from `sched_init` no live task points to a
freed directory and none is freed twice, if and only if no task exits while
another shares its directory, and none forks or exits once it has exited. -/
theorem pageDirsLive_iff (heap : BlockHeap) (hs : heap.Sane) (i j : Nat) (ops : List SchedOp) :
    Always schedStep PageDirsLive (schedInit (.boot heap i j)) ops ↔
      Guarded schedStep KeepsDirs (schedInit (.boot heap i j)) ops := by
  refine always_iff_guarded (fun s => Sound s ∧ DirInv s) (fun s h => h.2.pageDirsLive)
    (fun s op h hok => ⟨h.1.step op, ?_⟩) (fun s op h hbad => ?_)
    ⟨.schedInit hs i j, dirInv_schedInit hs i j⟩ ops
  · obtain ⟨hsound, hdir⟩ := h
    obtain ⟨q, hi, -⟩ := id hsound
    cases op with
    | create entry name priority =>
      exact hdir.continues hi (continues_createTask hi entry name priority)
    | fork regs => exact hdir.fork hsound hok
    | schedule cpu => exact hdir.continues hi (continues_schedule hsound cpu)
    | tick regs cpu => exact hdir.continues hi (continues_tick hsound regs cpu)
    | exit cpu => exact hdir.exit hsound hok
  · cases op with
    | create entry name priority => exact absurd trivial hbad
    | fork regs => exact h.2.fork_dangles h.1 hbad
    | schedule cpu => exact absurd trivial hbad
    | tick regs cpu => exact absurd trivial hbad
    | exit cpu => exact h.2.exit_dangles h.1 hbad

/-- The init task forks, and two tasks of a higher priority run and exit. -/
theorem pageDirsLive_iff_grantingHeap :
    Always schedStep PageDirsLive (schedInit (.boot grantingHeap 0x1000 0x1100))
      [.schedule .zero, .fork zeroRegs, .create 0x2000 ⟨"printer", by decide⟩ 6,
        .create 0x2000 ⟨"printer", by decide⟩ 6, .schedule .zero, .exit .zero, .exit .zero,
        .tick zeroRegs .zero] := by
  refine (pageDirsLive_iff grantingHeap sane_grantingHeap 0x1000 0x1100 _).mpr
    ⟨trivial, ?_, trivial, trivial, trivial, ?_, ?_, trivial, trivial⟩
  · exact .inr (.inl (by decide))
  · exact .inr (.inr (by decide))
  · exact .inr (.inr (by decide))

/-- The init task forks and exits: its child points to the freed directory. -/
theorem fork_exit_dangles :
    ¬ Always schedStep PageDirsLive (schedInit (.boot grantingHeap 0x1000 0x1100))
      [.schedule .zero, .fork zeroRegs, .exit .zero] := by
  rintro ⟨-, -, -, hlive, -⟩
  have hchild := hlive 6 (by decide) (by decide)
  have hdir : (schedStep (schedStep (schedStep (schedInit (.boot grantingHeap 0x1000 0x1100))
      (.schedule .zero)) (.fork zeroRegs)) (.exit .zero)).heap.Live 4 := hchild
  exact hdir.kept (by decide)

/-! ## What kfree gets

The blocks of the model are numbered and a number is not used again, so that a second
`kfree` of a directory does nothing here, where the one of `kheap.c` frees what stands at
the address by then. The two part at the first such call and not before: as long as no
directory was freed twice, what `task_exit` frees is live. -/

/-- Every directory a task points to is live or was freed. -/
def DirsKnown (s : Sched) : Prop :=
  ∀ t ∈ s.created, ∀ b, (s.tcb t).pageDir = .heap b → s.heap.Live b ∨ b ∈ s.freedDirs

theorem DirInv.dirsKnown (h : DirInv s) : DirsKnown s := by
  intro t ht b hb
  by_cases hx : t ∈ s.exited
  · exact .inr ((h.exited t hx).2 b hb)
  · have hlive := h.live t ht hx
    rw [hb] at hlive
    exact .inl hlive

theorem DirsKnown.continues (h : DirsKnown s) (hi : SchedInv s q) (hc : Continues s s') :
    DirsKnown s' := by
  intro t ht b hb
  by_cases hold : t ∈ s.created
  · rw [(hc.kept t hold).2] at hb
    rcases h t hold b hb with hlive | hfreed
    · exact .inl ((hc.heap.live b ((hi.fit t hold).dir b hb).2).mpr hlive)
    · exact .inr (hc.freedDirs_subset hfreed)
  · have hlive := (hc.created t ht).resolve_left hold
    rw [hb] at hlive
    exact .inl hlive

/-- A child points where its parent does. -/
theorem DirsKnown.forked (h : DirsKnown s) (hi : SchedInv s q) (hm : s.currentTask ∈ s.created)
    (hg : s.heap.GrantsNext 3) (regs : Regs) : DirsKnown (forked s regs) := by
  have hc := continues_withTask hi hg regs.eip ⟨"forked", forked_fits⟩
    (s.tcb s.currentTask).priority
  have hkept : ∀ u ∈ s.created, ∀ b, (s.tcb u).pageDir = .heap b →
      (Proc.forked s regs).heap.Live b ∨ b ∈ s.freedDirs := fun u hu b hb =>
    (h u hu b hb).imp_left (hc.heap.live b ((hi.fit u hu).dir b hb).2).mpr
  intro t ht b hb
  rcases List.mem_cons.mp ht with rfl | ht
  · rw [forked_pageDir] at hb
    exact hkept _ hm b hb
  · rw [forked_tcb_old hi ht] at hb
    exact hkept t ht b hb

theorem DirsKnown.releaseCurrent (h : DirsKnown s) : DirsKnown (releaseCurrent s) := by
  have hzombie : Touches s (s.modify s.currentTask fun t => { t with state := .zombie }) :=
    .modify fun _ => ⟨rfl, rfl⟩
  rcases releaseCurrent_cases s with ⟨-, he⟩ | ⟨dir, -, -, he⟩
  · rw [he]
    intro t ht b hb
    rw [hzombie.pageDir] at hb
    exact h t ht b hb
  · rw [he]
    intro t ht b hb
    rw [hzombie.pageDir] at hb
    by_cases hdir : b = dir
    · exact .inr (hdir ▸ List.mem_cons_self)
    · exact (h t ht b hb).imp (fun hl => BlockHeap.live_kfree.mpr ⟨hl, hdir⟩)
        (List.mem_cons_of_mem _)

theorem DirsKnown.step (h : DirsKnown s) (hs : Sound s) (op : SchedOp) :
    DirsKnown (schedStep s op) := by
  obtain ⟨q, hi, -⟩ := id hs
  cases op with
  | create entry name priority => exact h.continues hi (continues_createTask hi entry name priority)
  | fork regs =>
    by_cases h0 : s.currentTask = 0
    · simp only [schedStep, sysForkHandler, if_pos h0]
      exact h
    · rcases fork_cases hs h0 regs with ⟨hg, he⟩ | ⟨-, hr⟩
      · rw [he]
        exact h.forked hi (hs.current h0) hg regs
      · exact h.continues hi (.of_refused hi hr)
  | schedule cpu => exact h.continues hi (continues_schedule hs cpu)
  | tick regs cpu => exact h.continues hi (continues_tick hs regs cpu)
  | exit cpu =>
    by_cases h0 : s.currentTask = 0
    · simp only [schedStep, taskExit, if_pos h0]
      exact h
    · obtain ⟨q', hi', -⟩ := hs.releaseCurrent h0
      rw [schedStep_exit h0]
      exact h.releaseCurrent.continues hi' (continues_schedule (hs.releaseCurrent h0) cpu)

/-- **What an exit frees.** Unless a directory is freed twice, `task_exit` frees a live one. -/
theorem exit_frees_live {heap : BlockHeap} (hs : heap.Sane) (i j : Nat) (ops : List SchedOp)
    (cpu : RegsContext) :
    let s := ops.foldl schedStep (schedInit (.boot heap i j))
    s.currentTask ≠ 0 → (schedStep s (.exit cpu)).freedDirs.Nodup →
      DirLive s.heap (s.tcb s.currentTask).pageDir := by
  intro s h0 hnodup
  have hrun : Sound s ∧ DirsKnown s := by
    refine List.foldlRecOn ops schedStep (motive := fun s => Sound s ∧ DirsKnown s)
      ⟨.schedInit hs i j, (dirInv_schedInit hs i j).dirsKnown⟩ fun s h op _ => ?_
    exact ⟨h.1.step op, h.2.step h.1 op⟩
  obtain ⟨hsound, hknown⟩ := hrun
  cases hd : (s.tcb s.currentTask).pageDir with
  | kernel => trivial
  | heap b =>
    refine (hknown _ (hsound.current h0) b hd).resolve_right fun hfreed => ?_
    have hc := continues_schedule (hsound.releaseCurrent h0) cpu
    rw [schedStep_exit h0] at hnodup
    have hnodup : (releaseCurrent s).freedDirs.Nodup := by
      rcases hc.freedDirs with he | ⟨p, -, -, he⟩
      · exact he ▸ hnodup
      · exact (List.nodup_cons.mp (he ▸ hnodup)).2
    rcases releaseCurrent_cases s with ⟨hdir, -⟩ | ⟨b', -, hb', he⟩
    · exact hsound.not_heap h0 hdir b hd
    · rw [he] at hnodup
      obtain rfl := PageDir.heap.inj (hd.symm.trans hb')
      exact (List.nodup_cons.mp hnodup).1 hfreed

end SynapseKernel.Proc
