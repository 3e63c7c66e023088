import SynapseKernel.Lib.Runs
import SynapseKernel.Proc.ProcessRing

/-! # The ring is the table of processes

Beside a run of process management stands the table of the processes that were
created and not terminated. As long as pids do not wrap the two go on in step, so
the ring always is that table (`ring_of_table`). -/
namespace SynapseKernel.Process
open SynapseKernel.Word SynapseKernel.Kheap SynapseKernel.Ring SynapseKernel.Runs

variable {s s' : Procs} {pre post : List Nat}

/-! ## The table of processes -/

/-- The processes that were created and not terminated since, oldest first: a
creation adds what it returns, and a termination takes away who has the pid. -/
def tableStep (s : Procs) (table : List Nat) : ProcOp → List Nat
  | .create name priority =>
    let (process, _) := createProcess s name priority
    if process = 0 then table else table ++ [process]
  | .terminate pid => if pid = 0 then table else table.filter fun p => (s.pcb p).pid ≠ pid
  | .schedule _ _ => table
  | .setScheduler _ => table

/-- The kernel process alone, if its record was granted. -/
def initTable (kernelProcess : Nat) : List Nat := if kernelProcess = 0 then [] else [kernelProcess]

/-- A step with the table beside it. -/
def tableRun (x : Procs × List Nat) (op : ProcOp) : Procs × List Nat :=
  (procStep x.1 op, tableStep x.1 x.2 op)

/-- What holds of the state and the table beside it. `kernelProcess` is `0` if
`init_process_management` was refused its record. -/
structure RingOk (kernelProcess : Nat) (x : Procs × List Nat) : Prop where
  ring : IsRing x.1.next x.1.prev x.2
  head : x.1.processList = x.2.headD 0
  live : ∀ p ∈ x.2, x.1.heap.Live p
  pids : (x.2.map fun p => (x.1.pcb p).pid).Nodup
  kernel : kernelProcess ≠ 0 → x.2.head? = some kernelProcess ∧ (x.1.pcb kernelProcess).pid = 0
  ends : x.2 ≠ [] → ∀ pid, ∃ found, findProcess x.1 pid = some found
  unknown : x.2 ≠ [] → ∀ pid, (pid = 0 ∨ ∀ p ∈ x.2, (x.1.pcb p).pid ≠ pid) →
    terminateProcess x.1 pid = some x.1

/-! ## What each step does to the table -/

variable {kernelProcess : Nat} {x : Procs × List Nat}

structure TableInv (kernelProcess : Nat) (x : Procs × List Nat) : Prop where
  procs : ProcInv x.1 x.2
  pids : (x.2.map fun p => (x.1.pcb p).pid).Nodup
  below : ∀ p ∈ x.2, (x.1.pcb p).pid < x.1.nextPid
  kernel : kernelProcess ≠ 0 → x.2.head? = some kernelProcess ∧ (x.1.pcb kernelProcess).pid = 0
  started : 0 < x.1.nextPid

theorem TableInv.ok (h : TableInv kernelProcess x) : RingOk kernelProcess x := by
  refine ⟨h.procs.links, h.procs.head, h.procs.live, h.pids, h.kernel, fun hne pid => ?_,
    fun hne pid hpid => ?_⟩
  · rcases h.procs.findProcess_cases hne pid with ⟨_, y, _, _, _, _, hr⟩ | ⟨-, hr⟩
    · exact ⟨_, hr⟩
    · exact ⟨_, hr⟩
  · rcases h.procs.terminateProcess_cases hne pid with ⟨h0, pre, y, post, he, hy, -⟩ | ⟨-, hr⟩
    · rcases hpid with hpid | hno
      · exact absurd hpid h0
      · refine absurd hy (hno y ?_)
        rw [he]
        exact List.mem_append_right _ List.mem_cons_self
    · exact hr

/-- Processes may leave the table, all but the kernel process. -/
theorem TableInv.fewer {s' : Procs} {table : List Nat} (h : TableInv kernelProcess x)
    (hprocs : ProcInv s' table) (hsub : table.Sublist x.2)
    (hpid : ∀ p ∈ table, (s'.pcb p).pid = (x.1.pcb p).pid) (hnext : x.1.nextPid ≤ s'.nextPid)
    (hhead : kernelProcess ≠ 0 → table.head? = some kernelProcess) :
    TableInv kernelProcess (s', table) := by
  refine ⟨hprocs, ?_, fun p hp => ?_, fun hk => ⟨hhead hk, ?_⟩, Nat.lt_of_lt_of_le h.started hnext⟩
  · rw [List.map_congr_left hpid]
    exact h.pids.sublist (hsub.map _)
  · rw [hpid p hp]
    exact Nat.lt_of_lt_of_le (h.below p (hsub.subset hp)) hnext
  · rw [hpid _ (List.mem_of_head? (hhead hk))]
    exact (h.kernel hk).2

theorem TableInv.same (h : TableInv kernelProcess x) (hs : SameList x.1 s') :
    TableInv kernelProcess (s', x.2) :=
  h.fewer (h.procs.same hs) (List.Sublist.refl _) (fun p _ => hs.pid p) (Nat.le_of_eq hs.nextPid.symm)
    fun hk => (h.kernel hk).1

/-- The first process stays first when one is added at the end. -/
theorem head?_snoc {l : List Nat} {k y : Nat} (h : l.head? = some k) :
    (l ++ [y]).head? = some k := by
  cases l with
  | nil => cases h
  | cons a l => exact h

/-- The new process has a pid above all others. -/
theorem TableInv.withProcess (h : TableInv kernelProcess x) (hleft : x.1.nextPid + 1 < 2 ^ 32)
    (hg : x.1.heap.GrantsNext 3) (name : ProcessName) (priority : Nat) :
    TableInv kernelProcess (withProcess x.1 name priority, x.2 ++ [x.1.heap.requests + 1]) := by
  have hpid : (Process.withProcess x.1 name priority).nextPid = x.1.nextPid + 1 :=
    (withProcess_nextPid x.1 name priority).trans (u32_of_lt hleft)
  have hold : ∀ p ∈ x.2, ((Process.withProcess x.1 name priority).pcb p).pid = (x.1.pcb p).pid :=
    fun p hp => congrArg Pcb.pid (h.procs.withProcess_old name priority hp)
  have hself : ((Process.withProcess x.1 name priority).pcb (x.1.heap.requests + 1)).pid =
      x.1.nextPid := congrArg Pcb.pid (withProcess_new x.1 name priority)
  refine ⟨h.procs.withProcess hg name priority, ?_, fun p hp => ?_, fun hk => ?_, ?_⟩
  · have hmap : x.2.map (fun p => ((Process.withProcess x.1 name priority).pcb p).pid) =
        x.2.map fun p => (x.1.pcb p).pid := List.map_congr_left hold
    simp only [List.map_append, hmap, List.map_cons, List.map_nil, hself]
    refine List.nodup_append_comm.mp (List.nodup_cons.mpr ⟨fun hm => ?_, h.pids⟩)
    obtain ⟨p, hp, heq⟩ := List.mem_map.mp hm
    exact absurd heq (Nat.ne_of_lt (h.below p hp))
  · simp only [hpid]
    rcases List.mem_append.mp hp with hp | hp
    · rw [hold p hp]
      exact Nat.lt_succ_of_lt (h.below p hp)
    · rw [List.mem_singleton.mp hp, hself]
      exact Nat.lt_succ_self _
  · obtain ⟨hhead, hzero⟩ := h.kernel hk
    refine ⟨head?_snoc hhead, ?_⟩
    rw [hold _ (List.mem_of_head? hhead)]
    exact hzero
  · simp only [hpid]
    exact Nat.succ_pos _

theorem TableInv.create (h : TableInv kernelProcess x) (hleft : x.1.nextPid + 1 < 2 ^ 32)
    (name : ProcessName) (priority : Nat) :
    TableInv kernelProcess (tableRun x (.create name priority)) := by
  rcases createProcess_cases x.1 name priority with ⟨hg, he⟩ | ⟨h0, hr⟩
  · have hrun : tableRun x (.create name priority) =
        (Process.withProcess x.1 name priority, x.2 ++ [x.1.heap.requests + 1]) := by
      simp only [tableRun, procStep, tableStep, he, if_neg (Nat.succ_ne_zero _)]
    rw [hrun]
    exact h.withProcess hleft hg name priority
  · have hrun : tableRun x (.create name priority) =
        ((createProcess x.1 name priority).2, x.2) := by
      simp only [tableRun, procStep, tableStep, h0, if_true]
    rw [hrun]
    refine h.fewer (h.procs.refused hr) (List.Sublist.refl _)
      (fun p hp => congrArg Pcb.pid (hr.pcb p (h.procs.live p hp).le)) ?_ fun hk => (h.kernel hk).1
    rcases hr.nextPid with he | he
    · exact Nat.le_of_eq he.symm
    · rw [he, u32_of_lt hleft]
      exact Nat.le_succ _

theorem filter_pid {pid : Nat → Nat} {y : Nat} (h : ((pre ++ y :: post).map pid).Nodup) :
    (pre ++ y :: post).filter (fun p => pid p ≠ pid y) = pre ++ post := by
  rw [List.map_append, List.map_cons] at h
  have hrot := List.nodup_cons.mp (List.nodup_middle.mp h)
  rw [List.mem_append, not_or] at hrot
  obtain ⟨⟨hpre, hpost⟩, -⟩ := hrot
  have hkeep : ∀ l : List Nat, pid y ∉ l.map pid → l.filter (fun p => pid p ≠ pid y) = l := by
    intro l hl
    refine List.filter_eq_self.mpr fun p hp => decide_eq_true fun he => hl ?_
    exact List.mem_map.mpr ⟨p, hp, he⟩
  rw [List.filter_append, List.filter_cons, hkeep pre hpre, hkeep post hpost,
    decide_eq_false (not_not.mpr rfl), if_neg Bool.false_ne_true]

theorem TableInv.terminate (h : TableInv kernelProcess x) (pid : Nat) :
    TableInv kernelProcess (tableRun x (.terminate pid)) := by
  obtain ⟨s, table⟩ := x
  by_cases hnil : table = []
  · subst hnil
    have hfind : findProcess s pid = none := if_pos h.procs.head
    have hstep : procStep s (.terminate pid) = s := by
      rw [procStep, terminateProcess, hfind]
      split <;> rfl
    have htable : tableStep s [] (.terminate pid) = [] := by
      rw [tableStep]
      split <;> rfl
    rw [tableRun, hstep, htable]
    exact h
  · rcases h.procs.terminateProcess_cases hnil pid with
      ⟨h0, pre, y, post, rfl, rfl, -, -, hr⟩ | ⟨hno, hr⟩
    · have hend := h.procs.ended
      have hother := h.procs.other
      have hrun : tableRun (s, pre ++ y :: post) (.terminate (s.pcb y).pid) =
          (endProcess s y, pre ++ post) := by
        simp only [tableRun, procStep, tableStep, hr, Option.getD_some, if_neg h0]
        rw [filter_pid h.pids]
      rw [hrun]
      refine h.fewer h.procs.endProcess ((List.sublist_cons_self y post).append_left pre)
        (fun p hp => congrArg Pcb.pid (hend.pcb p (hother p hp).1))
        (Nat.le_of_eq hend.nextPid.symm) fun hk => ?_
      obtain ⟨hhead, hzero⟩ := h.kernel hk
      -- the kernel process has pid 0, so it is not the one that goes
      cases pre with
      | nil =>
        obtain rfl := Option.some.inj hhead
        exact absurd hzero h0
      | cons a pre => exact hhead
    · have hrun : tableRun (s, table) (.terminate pid) = (s, table) := by
        simp only [tableRun, procStep, tableStep, hr, Option.getD_some]
        rcases hno with rfl | hno
        · rw [if_pos rfl]
        · rw [List.filter_eq_self.mpr fun p hp => decide_eq_true (hno p hp), ite_self]
      rw [hrun]
      exact h

/-! ## Runs -/

def ProcOp.isCreate : ProcOp → Bool
  | .create _ _ => true
  | .terminate _ => false
  | .schedule _ _ => false
  | .setScheduler _ => false

/-- The next pid does not wrap. -/
def PidsLeft (x : Procs × List Nat) (op : ProcOp) : Prop :=
  op.isCreate = true → x.1.nextPid + 1 < 2 ^ 32

theorem endProcess_nextPid (s : Procs) (p : Nat) : (endProcess s p).nextPid = s.nextPid := by
  rw [endProcess]
  obtain ⟨-, -, -, hnext⟩ := removeProcessFromList_frame
    (freePageDir (s.modify p fun q => { q with state := .terminated }) p) p
  refine hnext.trans ?_
  rcases freePageDir_cases (s.modify p fun q => { q with state := .terminated }) p with
    he | ⟨d, -, he⟩
  · rw [he]
    rfl
  · rw [he]
    rfl

/-- Only a creation takes a pid. -/
theorem nextPid_procStep (s : Procs) (op : ProcOp) :
    (procStep s op).nextPid ≤ s.nextPid + if op.isCreate then 1 else 0 := by
  cases op with
  | create name priority =>
    have hu : u32 (s.nextPid + 1) ≤ s.nextPid + 1 := Nat.mod_le _ _
    rcases createProcess_cases s name priority with ⟨-, he⟩ | ⟨-, hr⟩
    · rw [procStep, he, withProcess_nextPid]
      exact hu
    · rcases hr.nextPid with he | he
      · rw [procStep, he]
        exact Nat.le_succ _
      · rw [procStep, he]
        exact hu
  | terminate pid =>
    refine Nat.le_of_eq ?_
    rw [procStep, terminateProcess]
    split
    · rfl
    · cases hf : findProcess s pid with
      | none => rfl
      | some r =>
        cases r with
        | error p => exact endProcess_nextPid s p
        | ok u => rfl
  | schedule esp ebp =>
    refine Nat.le_of_eq ?_
    rw [procStep]
    cases hs : schedule s esp ebp with
    | none => rfl
    | some s' => exact (sameList_schedule hs).nextPid
  | setScheduler type => exact Nat.le_refl _

theorem guarded_pidsLeft {ops : List ProcOp} {x : Procs × List Nat}
    (h : x.1.nextPid + ops.countP ProcOp.isCreate < 2 ^ 32) : Guarded tableRun PidsLeft x ops := by
  induction ops generalizing x with
  | nil => trivial
  | cons op ops ih =>
    have hstep : (tableRun x op).1.nextPid ≤ _ := nextPid_procStep x.1 op
    rw [List.countP_cons] at h
    refine ⟨fun hc => ?_, ih ?_⟩
    · rw [if_pos hc] at h
      omega
    · omega

theorem TableInv.step (h : TableInv kernelProcess x) {op : ProcOp} (hl : PidsLeft x op) :
    TableInv kernelProcess (tableRun x op) := by
  cases op with
  | create name priority => exact h.create (hl rfl) name priority
  | terminate pid => exact h.terminate pid
  | schedule esp ebp =>
    refine h.same ?_
    rw [procStep]
    cases hs : schedule x.1 esp ebp with
    | none => exact .refl _
    | some s' => exact sameList_schedule hs
  | setScheduler type => exact h.same ⟨rfl, rfl, rfl, rfl, rfl, fun _ => rfl, fun _ => rfl⟩

theorem nextPid_init (heap : BlockHeap) :
    (initProcessManagement (.boot heap)).nextPid = 1 := by
  rw [initProcessManagement]
  simp only
  split
  · rfl
  · rw [addProcessToList_nextPid]
    rfl

theorem TableInv.init {heap : BlockHeap} (hs : heap.Sane) :
    TableInv (heap.kmalloc pcbSize).1
      (initProcessManagement (.boot heap), initTable (heap.kmalloc pcbSize).1) := by
  have hpid := nextPid_init heap
  rcases ProcInv.init hs with ⟨-, h0, hi, -⟩ | ⟨-, hk, hi, -, hzero⟩
  · rw [h0]
    exact ⟨hi, List.nodup_nil, fun p hp => (nomatch hp), fun h => absurd rfl h,
      hpid ▸ Nat.one_pos⟩
  · rw [hk, initTable, if_neg (Nat.succ_ne_zero _)]
    refine ⟨hi, List.nodup_singleton _, fun p hp => ?_, fun _ => ⟨rfl, hzero⟩, hpid ▸ Nat.one_pos⟩
    rw [List.mem_singleton.mp hp, hzero, hpid]
    exact Nat.one_pos

/-- **The ring of processes.** In every run with fewer than `2 ^ 32 - 1` creations
the ring is the table of the processes created and not terminated, the kernel
process first, with different pids; the search of `terminate_process` ends, and a
pid nobody has changes nothing. -/
theorem ring_of_table {heap : BlockHeap} (hs : heap.Sane) (ops : List ProcOp)
    (hc : ops.countP ProcOp.isCreate < 2 ^ 32 - 1) :
    Always tableRun (RingOk (heap.kmalloc pcbSize).1)
      (initProcessManagement (.boot heap), initTable (heap.kmalloc pcbSize).1) ops := by
  have hguard : Guarded tableRun PidsLeft
      (initProcessManagement (.boot heap), initTable (heap.kmalloc pcbSize).1) ops := by
    refine guarded_pidsLeft ?_
    rw [nextPid_init]
    omega
  exact hguard.always (TableInv (heap.kmalloc pcbSize).1) (fun _ h => h.ok)
    (fun _ _ h hl => h.step hl) (.init hs)

/-- Two processes are created, and the first of them is terminated. -/
theorem ring_of_table_two :
    Always tableRun (RingOk 1) (initProcessManagement (.boot roomyHeap), [1])
      [.create kernelName 5, .create kernelName 7, .terminate 1] :=
  ring_of_table roomyHeap_sane _ (by decide)

end SynapseKernel.Process
