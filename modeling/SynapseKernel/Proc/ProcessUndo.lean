import SynapseKernel.Proc.ProcessRing

/-! # Creating a process and terminating it

`terminate_process` frees the page directory and the record of the process it finds and
takes it off the list. The 8 KB stack that `create_process` allocated is known only by
its top, in `esp`, and stays allocated (`create_terminate_leaks`). -/
namespace SynapseKernel.Process
open SynapseKernel.Word SynapseKernel.Kheap SynapseKernel.Ring
open SynapseKernel.Proc (PageDir)

/-- The processes of the ring, their links and who is current are the same. -/
structure SameRing (s s' : Procs) (ring : List Nat) : Prop where
  processList : s'.processList = s.processList
  currentProcess : s'.currentProcess = s.currentProcess
  links : ∀ p ∈ ring, s'.next p = s.next p ∧ s'.prev p = s.prev p
  pcb : ∀ p ∈ ring, s'.pcb p = s.pcb p

/-- The ring and the live blocks of the heap are those of before. -/
def Undone (s s' : Procs) (ring : List Nat) : Prop :=
  SameRing s s' ring ∧ ∀ block, s'.heap.Live block ↔ s.heap.Live block

/-- `create_process` and `terminate_process` of the pid it gave. -/
def createTerminate (s : Procs) (name : ProcessName) (priority : Nat) : Option Procs :=
  let (process, s') := createProcess s name priority
  terminateProcess s' (s'.pcb process).pid

variable {s : Procs} {ring pre post : List Nat} {x : Nat}

/-- The blocks of a process that is ended: its page directory and its record. -/
theorem endProcess_live (s : Procs) (x block : Nat) :
    (endProcess s x).heap.Live block ↔
      s.heap.Live block ∧ (s.pcb x).pageDir ≠ .heap block ∧ block ≠ x := by
  have hdir : ((s.modify x fun p => { p with state := .terminated }).pcb x).pageDir =
      (s.pcb x).pageDir := by
    simp only [Procs.modify, Function.update_self]
  rw [endProcess]
  set s₁ := s.modify x fun p => { p with state := .terminated } with hs₁
  have hheap : s₁.heap = s.heap := rfl
  simp only [(removeProcessFromList_frame (freePageDir s₁ x) x).1, BlockHeap.live_kfree]
  rw [← and_assoc, freePageDir, hdir]
  refine and_congr_left' ?_
  cases hd : (s.pcb x).pageDir with
  | kernel =>
    rw [hheap]
    exact (and_iff_left PageDir.noConfusion).symm
  | heap d =>
    have hinj : PageDir.heap d ≠ .heap block ↔ block ≠ d := by
      rw [ne_eq, PageDir.heap.injEq, eq_comm]
    simp only [hinj]
    split
    · rename_i h0
      rw [hheap, h0]
      exact (and_iff_left_of_imp fun hl => Nat.ne_of_gt hl.pos).symm
    · exact BlockHeap.live_kfree

/-- The three blocks of a new process are live next to those of before. -/
theorem withProcess_live (hs : s.heap.Sane) (hg : s.heap.GrantsNext 3) (name : ProcessName)
    (priority block : Nat) : (withProcess s name priority).heap.Live block ↔
      s.heap.Live block ∨ (s.heap.requests < block ∧ block ≤ s.heap.requests + 3) := by
  rw [withProcess, addProcessToList_heap]
  exact BlockHeap.live_after hs hg

/-- No process refers to the stack of the new one as its page directory. -/
theorem ProcInv.stack_kept (h : ProcInv s ring) (hg : s.heap.GrantsNext 3) (name : ProcessName)
    (priority : Nat) (hx : x ∈ ring ++ [s.heap.requests + 1]) :
    (Process.endProcess (Process.withProcess s name priority) x).heap.Live
      (s.heap.requests + 3) := by
  rw [endProcess_live, withProcess_live h.sane hg]
  refine ⟨.inr ⟨Nat.lt_add_of_pos_right (by decide), Nat.le_refl _⟩, fun hd => ?_, fun he => ?_⟩
  · rcases List.mem_append.mp hx with hx | hx
    · rw [h.withProcess_old name priority hx] at hd
      have hle := (h.dirs x hx _ hd).1
      omega
    · rw [List.mem_singleton.mp hx, withProcess_new] at hd
      have hd' := PageDir.heap.inj hd
      omega
  · rcases List.mem_append.mp hx with hx | hx
    · have hle := (h.live x hx).le
      omega
    · have hx' := List.mem_singleton.mp hx
      omega

/-- Ending the new process restores the ring and leaves its stack. -/
theorem ProcInv.endProcess_new (h : ProcInv s ring) (hg : s.heap.GrantsNext 3)
    (name : ProcessName) (priority : Nat) :
    SameRing s (Process.endProcess (Process.withProcess s name priority) (s.heap.requests + 1))
        ring ∧
      ∀ block, (Process.endProcess (Process.withProcess s name priority)
          (s.heap.requests + 1)).heap.Live block ↔
        s.heap.Live block ∨ block = s.heap.requests + 3 := by
  have hend := (h.withProcess hg name priority).ended
  refine ⟨⟨?_, ?_, fun p hp => ?_, fun p hp => ?_⟩, fun block => ?_⟩
  · rw [hend.head, List.append_nil, h.head]
  · rw [hend.currentProcess, withProcess_currentProcess]
  · have hlinks := hend.links
    rw [List.append_nil] at hlinks
    exact h.links.links_eq hlinks hp
  · rw [hend.pcb p fun he => h.not_mem_new (he ▸ hp), h.withProcess_old name priority hp]
  · have hdir : ((Process.withProcess s name priority).pcb (s.heap.requests + 1)).pageDir =
        .heap (s.heap.requests + 2) := congrArg Pcb.pageDir (withProcess_new s name priority)
    rw [endProcess_live, hdir, withProcess_live h.sane hg, ne_eq, PageDir.heap.injEq]
    constructor
    · rintro ⟨hl, hne, hne'⟩
      exact hl.imp_right fun hin => by omega
    · rintro (hl | rfl)
      · have hle := hl.le
        exact ⟨.inl hl, by omega, by omega⟩
      · exact ⟨.inr (by omega), by omega, by omega⟩

/-- **The stack is lost.** A process that is created and terminated by its pid leaves the block
of its stack, and nothing else if no other process has that pid. -/
theorem create_terminate_leaks (s : Procs) (ring : List Nat) (h : ProcInv s ring)
    (name : ProcessName) (priority : Nat) (hok : (createProcess s name priority).1 ≠ 0) :
    ∃ s', createTerminate s name priority = some s' ∧ ¬ Undone s s' ring ∧
      (s.nextPid ≠ 0 → (∀ p ∈ ring, (s.pcb p).pid ≠ s.nextPid) → SameRing s s' ring ∧
        ∀ block, s'.heap.Live block ↔ s.heap.Live block ∨ block = s.heap.requests + 3) := by
  rcases createProcess_cases s name priority with ⟨hg, he⟩ | ⟨h0, -⟩
  · have hrun : createTerminate s name priority =
        terminateProcess (withProcess s name priority) s.nextPid := by
      simp only [createTerminate, he, withProcess_new, newPcb]
    have hnew : ((withProcess s name priority).pcb (s.heap.requests + 1)).pid = s.nextPid :=
      congrArg Pcb.pid (withProcess_new s name priority)
    have hlost : ∀ s', s'.heap.Live (s.heap.requests + 3) → ¬ Undone s s' ring := by
      intro s' hl hundone
      have hle := ((hundone.2 _).mp hl).le
      omega
    have h₁ := h.withProcess hg name priority
    have hlast : s.heap.requests + 1 ∈ ring ++ [s.heap.requests + 1] :=
      List.mem_append_right _ (List.mem_singleton.mpr rfl)
    rw [hrun]
    rcases h₁.terminateProcess_cases (List.ne_nil_of_mem hlast) s.nextPid with
      ⟨-, pre, x, post, hsplit, hx, hpre, -, hr⟩ | ⟨hno, hr⟩
    · have hmem : x ∈ ring ++ [s.heap.requests + 1] := by
        rw [hsplit]
        exact List.mem_append_right _ List.mem_cons_self
      refine ⟨_, hr, hlost _ (h.stack_kept hg name priority hmem), fun _ hfresh => ?_⟩
      have hxnew : x = s.heap.requests + 1 := by
        refine List.mem_singleton.mp ((List.mem_append.mp hmem).resolve_left fun hm => ?_)
        rw [h.withProcess_old name priority hm] at hx
        exact hfresh x hm hx
      rw [hxnew]
      exact h.endProcess_new hg name priority
    · refine ⟨_, hr, hlost _ ?_, fun hpid _ => ?_⟩
      · rw [withProcess_live h.sane hg]
        exact .inr ⟨Nat.lt_add_of_pos_right (by decide), Nat.le_refl _⟩
      · exact absurd hnew (hno.resolve_left hpid _ hlast)
  · exact absurd h0 hok

/-- A process is created next to the kernel process and terminated. -/
theorem create_terminate_leaks_first :
    ∃ s', createTerminate (initProcessManagement (.boot roomyHeap)) kernelName 5 = some s' ∧
      ¬ Undone (initProcessManagement (.boot roomyHeap)) s' [1] := by
  obtain ⟨s', hs', hlost, -⟩ := create_terminate_leaks (initProcessManagement (.boot roomyHeap)) [1]
    (((ProcInv.init roomyHeap_sane).resolve_left fun h => Bool.noConfusion h.1).2.2.1) kernelName 5
    (by decide)
  exact ⟨s', hs', hlost⟩

/-- The stack, the block of the fourth request, is live afterwards. -/
theorem not_undone_first :
    ¬ ∃ s', createTerminate (initProcessManagement (.boot roomyHeap)) kernelName 5 = some s' ∧
      Undone (initProcessManagement (.boot roomyHeap)) s' [1] := by
  rintro ⟨s', hs', -, hlive⟩
  have hheap : (createTerminate (initProcessManagement (.boot roomyHeap)) kernelName 5).map
      (fun s => (s.heap.requests, s.heap.freed, s.heap.grants 3)) = some (4, [2, 3], true) := by
    decide
  simp only [hs', Option.map_some, Option.some.injEq, Prod.mk.injEq] at hheap
  obtain ⟨hrequests, hfreed, hgranted⟩ := hheap
  have hstack : s'.heap.Live 4 :=
    ⟨by decide, Nat.le_of_eq hrequests.symm, hgranted, by rw [hfreed]; decide⟩
  exact absurd ((hlive 4).mp hstack).le (by decide)

end SynapseKernel.Process
