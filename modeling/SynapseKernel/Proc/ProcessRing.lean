import SynapseKernel.Proc.Process

/-! # The ring of processes

`ProcInv` keeps beside the pointers the list of the processes from `process_list`
on, and every operation of process.c has one lemma that says what it does to that
list: `ProcInv.withProcess` for a creation, `ProcInv.endProcess` for a termination,
`sameList_schedule` for the scheduler. -/
namespace SynapseKernel.Process
open SynapseKernel.Word SynapseKernel.Kheap SynapseKernel.Ring SynapseKernel.Search
open SynapseKernel.Proc (PageDir pageDirectorySize)

variable {s s' : Procs} {ring pre post : List Nat} {p x process : Nat}

/-! ## The two list functions -/

theorem isRing_addProcessToList (h : IsRing s.next s.prev ring)
    (hhead : s.processList = ring.headD 0) (hpos : ∀ p ∈ ring, p ≠ 0) (hx : x ∉ ring) :
    IsRing (addProcessToList s x).next (addProcessToList s x).prev (ring ++ [x]) ∧
      (addProcessToList s x).processList = (ring ++ [x]).headD 0 := by
  cases ring with
  | nil =>
    have h0 : s.processList = 0 := hhead
    rw [addProcessToList, if_pos h0]
    exact ⟨isRing_singleton (Function.update_self _ _ _) (Function.update_self _ _ _), rfl⟩
  | cons a l =>
    have ha : s.processList = a := hhead
    have hne : s.processList ≠ 0 := by
      rw [ha]
      exact hpos a List.mem_cons_self
    have hxa : x ≠ a := fun he => hx (he ▸ List.mem_cons_self)
    have hxl : x ≠ s.prev a := fun he => hx (he ▸ (@IsRing.mem_links _ _ [] l a h).1)
    -- the list's last node is still read through the head
    have hlast : Function.update s.prev x (s.prev a) a = s.prev a :=
      Function.update_of_ne hxa.symm _ _
    rw [addProcessToList, if_neg hne]
    simp only [ha, hlast]
    refine ⟨h.insert hx ⟨?_, ?_, ?_, ?_, fun y hyx hyl => ?_, fun y hyx hya => ?_⟩, rfl⟩
    · rw [Function.update_of_ne hxl, Function.update_self]
    · rw [Function.update_of_ne hxa, Function.update_self]
    · exact Function.update_self _ _ _
    · exact Function.update_self _ _ _
    · rw [Function.update_of_ne hyl, Function.update_of_ne hyx]
    · rw [Function.update_of_ne hya, Function.update_of_ne hyx]

/-- A node that points at itself is alone. -/
theorem eq_nil_of_next_self (h : IsRing s.next s.prev (pre ++ x :: post)) (hx : s.next x = x) :
    pre = [] ∧ post = [] := by
  have hrot : IsRing s.next s.prev (x :: (post ++ pre)) := h.rotate
  by_cases hnil : post ++ pre = []
  · exact ⟨(List.append_eq_nil_iff.mp hnil).2, (List.append_eq_nil_iff.mp hnil).1⟩
  · obtain ⟨⟨t, ht⟩, -⟩ := hrot.head_links hnil
    refine absurd ?_ (List.nodup_cons.mp hrot.nodup).1
    rw [ht, hx]
    exact List.mem_cons_self

theorem isRing_removeProcessFromList (h : IsRing s.next s.prev (pre ++ x :: post))
    (hhead : s.processList = (pre ++ x :: post).headD 0) :
    IsRing (removeProcessFromList s x).next (removeProcessFromList s x).prev (pre ++ post) ∧
      (removeProcessFromList s x).processList = (pre ++ post).headD 0 := by
  by_cases hself : s.next x = x
  · obtain ⟨rfl, rfl⟩ := eq_nil_of_next_self h hself
    rw [removeProcessFromList, if_pos hself]
    exact ⟨⟨List.nodup_nil, List.isChain_nil, fun y hy => (nomatch hy)⟩, rfl⟩
  · have hrot : IsRing s.next s.prev (x :: (post ++ pre)) := h.rotate
    have hnil : post ++ pre ≠ [] := by
      intro hnil
      rw [hnil] at hrot
      exact hself (hrot.closed x rfl x rfl).1
    obtain ⟨⟨t, ht⟩, -, hnp, hpn⟩ := hrot.head_links hnil
    have hprev : x ≠ s.prev x := by
      intro he
      rw [← he] at hnp
      exact hself hnp
    -- `process->next` is read again after the first store
    have hnext : Function.update s.next (s.prev x) (s.next x) x = s.next x :=
      Function.update_of_ne hprev _ _
    rw [removeProcessFromList, if_neg hself]
    simp only [hnext]
    refine ⟨h.remove ⟨Function.update_self _ _ _, Function.update_self _ _ _,
      fun y hy => Function.update_of_ne hy _ _, fun y hy => Function.update_of_ne hy _ _⟩, ?_⟩
    cases pre with
    | nil =>
      have hx : s.processList = x := hhead
      rw [List.append_nil] at ht
      rw [if_pos hx, List.nil_append, ht]
      rfl
    | cons a pre =>
      have ha : s.processList = a := hhead
      have hne : a ≠ x := by
        rintro rfl
        exact (List.nodup_cons.mp h.nodup).1 (List.mem_append_right _ List.mem_cons_self)
      rw [ha, if_neg hne]
      rfl

/-! ## The invariant -/

/-- The list holds different live blocks, and no page directory is one of them. -/
structure ProcInv (s : Procs) (ring : List Nat) : Prop where
  links : IsRing s.next s.prev ring
  head : s.processList = ring.headD 0
  live : ∀ p ∈ ring, s.heap.Live p
  sane : s.heap.Sane
  dirs : ∀ p ∈ ring, ∀ d, (s.pcb p).pageDir = .heap d → d ≤ s.heap.requests ∧ d ∉ ring

theorem ProcInv.pos (h : ProcInv s ring) : ∀ p ∈ ring, p ≠ 0 :=
  fun p hp => Nat.ne_of_gt (h.live p hp).pos

theorem ProcInv.length_le (h : ProcInv s ring) : ring.length ≤ s.heap.requests :=
  BlockHeap.length_le h.links.nodup fun p hp => ⟨(h.live p hp).pos, (h.live p hp).le⟩

theorem ProcInv.not_mem_new (h : ProcInv s ring) : s.heap.requests + 1 ∉ ring :=
  fun hm => absurd (h.live _ hm).le (Nat.not_succ_le_self _)

theorem ProcInv.processList_ne (h : ProcInv s ring) (hne : ring ≠ []) : s.processList ≠ 0 := by
  cases ring with
  | nil => exact absurd rfl hne
  | cons a l =>
    rw [h.head]
    exact h.pos a List.mem_cons_self

/-- What leaves the list and the heap alone. -/
structure SameList (s s' : Procs) : Prop where
  heap : s'.heap = s.heap
  next : s'.next = s.next
  prev : s'.prev = s.prev
  processList : s'.processList = s.processList
  nextPid : s'.nextPid = s.nextPid
  pid : ∀ p, (s'.pcb p).pid = (s.pcb p).pid
  pageDir : ∀ p, (s'.pcb p).pageDir = (s.pcb p).pageDir

theorem SameList.refl (s : Procs) : SameList s s :=
  ⟨rfl, rfl, rfl, rfl, rfl, fun _ => rfl, fun _ => rfl⟩

theorem ProcInv.same (h : ProcInv s ring) (hs : SameList s s') : ProcInv s' ring := by
  refine ⟨?_, hs.processList.trans h.head, hs.heap ▸ h.live, hs.heap ▸ h.sane, fun p hp d hd => ?_⟩
  · rw [hs.next, hs.prev]
    exact h.links
  · rw [hs.pageDir] at hd
    rw [hs.heap]
    exact h.dirs p hp d hd

/-! ## Creating a process -/

/-- The state after a creation that failed: next to what was freed again, only
`next_pid` may have moved. -/
structure Refused (s s' : Procs) : Prop where
  heap : s.heap.Later s'.heap
  pcb : ∀ p ≤ s.heap.requests, s'.pcb p = s.pcb p
  next : ∀ p ≤ s.heap.requests, s'.next p = s.next p
  prev : ∀ p ≤ s.heap.requests, s'.prev p = s.prev p
  processList : s'.processList = s.processList
  currentProcess : s'.currentProcess = s.currentProcess
  nextPid : s'.nextPid = s.nextPid ∨ s'.nextPid = u32 (s.nextPid + 1)

theorem ProcInv.refused (h : ProcInv s ring) (hr : Refused s s') : ProcInv s' ring := by
  have hle : ∀ p ∈ ring, p ≤ s.heap.requests := fun p hp => (h.live p hp).le
  refine ⟨h.links.congr fun p hp => ⟨hr.next p (hle p hp), hr.prev p (hle p hp)⟩,
    hr.processList.trans h.head, fun p hp => (hr.heap.live p (hle p hp)).mpr (h.live p hp),
    hr.heap.sane h.sane, fun p hp d hd => ?_⟩
  rw [hr.pcb p (hle p hp)] at hd
  obtain ⟨hd, hnot⟩ := h.dirs p hp d hd
  exact ⟨Nat.le_trans hd hr.heap.le, hnot⟩

/-- The record `create_process` makes. -/
def newPcb (s : Procs) (name : ProcessName) (priority : Nat) : Pcb :=
  let esp := u32 (s.heap.addr (s.heap.requests + 3) + 8192)
  { pid := s.nextPid, state := .ready, name, esp := esp, ebp := esp
    pageDir := .heap (s.heap.requests + 2), priority, ticks := 0 }

/-- The state before the new process enters the list. -/
def withPcb (s : Procs) (name : ProcessName) (priority : Nat) : Procs :=
  let process := s.heap.requests + 1
  { s with
    heap := { s.heap with requests := s.heap.requests + 3 }
    pcb := Function.update s.pcb process (newPcb s name priority)
    next := Function.update s.next process 0
    prev := Function.update s.prev process 0
    nextPid := u32 (s.nextPid + 1) }

/-- The state after a `create_process` that is granted its three blocks. -/
def withProcess (s : Procs) (name : ProcessName) (priority : Nat) : Procs :=
  addProcessToList (withPcb s name priority) (s.heap.requests + 1)

/-- Everything `create_process` can do. -/
theorem createProcess_cases (s : Procs) (name : ProcessName) (priority : Nat) :
    (s.heap.GrantsNext 3 ∧
      createProcess s name priority = (s.heap.requests + 1, withProcess s name priority)) ∨
    ((createProcess s name priority).1 = 0 ∧ Refused s (createProcess s name priority).2) := by
  have hlater := BlockHeap.Later.refl s.heap
  have hother : ∀ {α : Type} (f : Nat → α) (v : α), ∀ p ≤ s.heap.requests,
      Function.update f (s.heap.requests + 1) v p = f p :=
    fun f v p hp => Function.update_of_ne (Nat.ne_of_lt (Nat.lt_succ_of_le hp)) v f
  cases h1 : s.heap.grants s.heap.requests with
  | false =>
    refine .inr ?_
    simp (disch := decide) only [createProcess, BlockHeap.kmalloc_of_ne_zero, h1,
      Bool.false_eq_true, if_false, if_true]
    exact ⟨trivial, hlater.kmalloc pcbSize, fun _ _ => rfl, fun _ _ => rfl, fun _ _ => rfl, rfl, rfl,
      .inl rfl⟩
  | true =>
    have hg1 := (BlockHeap.grantsNext_zero s.heap).succ h1
    cases h2 : s.heap.grants (s.heap.requests + 1) with
    | false =>
      refine .inr ?_
      simp (disch := decide) only [createProcess, BlockHeap.kmalloc_of_ne_zero, Procs.modify,
        Procs.clear, h1, h2, if_true, Nat.succ_ne_zero, if_false, Bool.false_eq_true,
        Function.update_idem]
      exact ⟨trivial, ((hlater.kmalloc pcbSize).kmalloc pageDirectorySize).kfree
        (Nat.lt_succ_self _) (Nat.le_succ _), hother _ _, hother _ _, hother _ _, rfl, rfl,
        .inr rfl⟩
    | true =>
      have hg2 := hg1.succ h2
      cases h3 : s.heap.grants (s.heap.requests + 2) with
      | false =>
        refine .inr ?_
        simp (disch := decide) only [createProcess, BlockHeap.kmalloc_of_ne_zero, Procs.modify,
          Procs.clear, h1, h2, h3, if_true, Nat.succ_ne_zero, if_false, Bool.false_eq_true,
          Function.update_idem]
        refine ⟨trivial, ?_, hother _ _, hother _ _, hother _ _, rfl, rfl, .inr rfl⟩
        have h3' := ((hlater.kmalloc pcbSize).kmalloc pageDirectorySize).kmalloc stackSize
        exact (h3'.kfree (Nat.lt_succ_of_lt (Nat.lt_succ_self _)) (Nat.le_succ _)).kfree
          (Nat.lt_succ_self _) (Nat.le_add_right _ 2)
      | true =>
        refine .inl ⟨hg2.succ h3, ?_⟩
        simp (disch := decide) only [createProcess, BlockHeap.kmalloc_of_ne_zero, Procs.modify,
          Procs.clear, h1, h2, h3, if_true, Nat.succ_ne_zero, if_false, Function.update_idem,
          Function.update_self]
        rfl

@[simp] theorem addProcessToList_heap : (addProcessToList s x).heap = s.heap := by
  unfold addProcessToList
  split <;> rfl

@[simp] theorem addProcessToList_pcb : (addProcessToList s x).pcb = s.pcb := by
  unfold addProcessToList
  split <;> rfl

@[simp] theorem addProcessToList_currentProcess :
    (addProcessToList s x).currentProcess = s.currentProcess := by
  unfold addProcessToList
  split <;> rfl

@[simp] theorem addProcessToList_nextPid : (addProcessToList s x).nextPid = s.nextPid := by
  unfold addProcessToList
  split <;> rfl

theorem withProcess_pcb (s : Procs) (name : ProcessName) (priority : Nat) :
    (withProcess s name priority).pcb =
      Function.update s.pcb (s.heap.requests + 1) (newPcb s name priority) :=
  addProcessToList_pcb

theorem withProcess_currentProcess (s : Procs) (name : ProcessName) (priority : Nat) :
    (withProcess s name priority).currentProcess = s.currentProcess :=
  addProcessToList_currentProcess

theorem withProcess_nextPid (s : Procs) (name : ProcessName) (priority : Nat) :
    (withProcess s name priority).nextPid = u32 (s.nextPid + 1) :=
  addProcessToList_nextPid

/-- The records of the processes on the list stay. -/
theorem ProcInv.withProcess_old (h : ProcInv s ring) (name : ProcessName) (priority : Nat) {p : Nat}
    (hp : p ∈ ring) : (withProcess s name priority).pcb p = s.pcb p := by
  have hne : p ≠ s.heap.requests + 1 := fun he => h.not_mem_new (he ▸ hp)
  rw [withProcess_pcb, Function.update_of_ne hne]

theorem withProcess_new (s : Procs) (name : ProcessName) (priority : Nat) :
    (withProcess s name priority).pcb (s.heap.requests + 1) = newPcb s name priority := by
  rw [withProcess_pcb, Function.update_self]

/-- **A new process** enters the list at its end. -/
theorem ProcInv.withProcess (h : ProcInv s ring) (hg : s.heap.GrantsNext 3) (name : ProcessName)
    (priority : Nat) :
    ProcInv (withProcess s name priority) (ring ++ [s.heap.requests + 1]) := by
  have hnew := h.not_mem_new
  have hne : ∀ p ∈ ring, p ≠ s.heap.requests + 1 := fun p hp he => hnew (he ▸ hp)
  have hlater := (((BlockHeap.Later.refl s.heap).kmalloc pcbSize).kmalloc pageDirectorySize).kmalloc
    stackSize
  have hring : IsRing (withPcb s name priority).next (withPcb s name priority).prev ring :=
    h.links.congr fun p hp =>
      ⟨Function.update_of_ne (hne p hp) _ _, Function.update_of_ne (hne p hp) _ _⟩
  have hhead : (withPcb s name priority).processList = ring.headD 0 := h.head
  obtain ⟨hadd, hlist⟩ := isRing_addProcessToList hring hhead h.pos hnew
  refine ⟨hadd, hlist, fun p hp => ?_, ?_, fun p hp d hd => ?_⟩
  · rw [Process.withProcess, addProcessToList_heap]
    rcases List.mem_append.mp hp with hp | hp
    · exact (hlater.live p (h.live p hp).le).mpr (h.live p hp)
    · obtain rfl := List.mem_singleton.mp hp
      refine ⟨Nat.succ_pos _, Nat.le_add_right _ 2, hg 0 (by decide), fun hm => ?_⟩
      exact absurd (h.sane _ hm) (Nat.not_succ_le_self _)
  · rw [Process.withProcess, addProcessToList_heap]
    exact hlater.sane h.sane
  · rw [Process.withProcess, addProcessToList_pcb] at hd
    rw [Process.withProcess, addProcessToList_heap, List.mem_append, List.mem_singleton]
    simp only [withPcb] at hd ⊢
    rcases List.mem_append.mp hp with hp | hp
    · rw [Function.update_of_ne (hne p hp)] at hd
      obtain ⟨hle, hnot⟩ := h.dirs p hp d hd
      refine ⟨Nat.le_add_right_of_le hle, not_or.mpr ⟨hnot, ?_⟩⟩
      exact Nat.ne_of_lt (Nat.lt_succ_of_le hle)
    · obtain rfl := List.mem_singleton.mp hp
      rw [Function.update_self] at hd
      obtain rfl := PageDir.heap.inj hd
      refine ⟨Nat.le_succ _, not_or.mpr ⟨fun hm => ?_, Nat.succ_ne_self _⟩⟩
      exact absurd (h.live _ hm).le (Nat.not_le_of_gt (Nat.lt_add_of_pos_right Nat.two_pos))

/-! ## Terminating a process -/

theorem ProcInv.findProcess_eq (h : ProcInv s ring) (hne : ring ≠ []) (pid : Nat) :
    findProcess s pid = some (ring.foldlM (search fun p => (s.pcb p).pid = pid) ()) := by
  have hlen := h.length_le
  have hlist := h.processList_ne hne
  have hhead := h.head
  have hlinks := h.links
  cases ring with
  | nil => exact absurd rfl hne
  | cons a l =>
    rw [findProcess, if_neg hlist, hhead]
    exact hlinks.walk_eq (Nat.lt_of_succ_le hlen) ()

/-- **The search ends**, with the first process of that pid or with none. -/
theorem ProcInv.findProcess_cases (h : ProcInv s ring) (hne : ring ≠ []) (pid : Nat) :
    (∃ pre x post, ring = pre ++ x :: post ∧ (s.pcb x).pid = pid ∧
      (∀ y ∈ pre, (s.pcb y).pid ≠ pid) ∧ findProcess s pid = some (.error x)) ∨
    ((∀ y ∈ ring, (s.pcb y).pid ≠ pid) ∧ findProcess s pid = some (.ok ())) := by
  rw [h.findProcess_eq hne]
  rcases foldlM_search (fun p => (s.pcb p).pid = pid) ring with
    ⟨pre, x, post, he, hx, hpre, hr⟩ | ⟨hno, hr⟩
  · exact .inl ⟨pre, x, post, he, hx, hpre, congrArg some hr⟩
  · exact .inr ⟨hno, congrArg some hr⟩

/-- Everything `terminate_process` can do. -/
theorem ProcInv.terminateProcess_cases (h : ProcInv s ring) (hne : ring ≠ []) (pid : Nat) :
    (pid ≠ 0 ∧ ∃ pre x post, ring = pre ++ x :: post ∧ (s.pcb x).pid = pid ∧
      (∀ y ∈ pre, (s.pcb y).pid ≠ pid) ∧ findProcess s pid = some (.error x) ∧
      terminateProcess s pid = some (endProcess s x)) ∨
    ((pid = 0 ∨ ∀ y ∈ ring, (s.pcb y).pid ≠ pid) ∧ terminateProcess s pid = some s) := by
  by_cases h0 : pid = 0
  · exact .inr ⟨.inl h0, if_pos h0⟩
  · rw [terminateProcess, if_neg h0]
    rcases h.findProcess_cases hne pid with ⟨pre, x, post, he, hx, hpre, hr⟩ | ⟨hno, hr⟩
    · rw [hr]
      exact .inl ⟨h0, pre, x, post, he, hx, hpre, rfl, rfl⟩
    · rw [hr]
      exact .inr ⟨.inr hno, rfl⟩

/-- Marking a process does not change the list. -/
theorem sameList_modify {f : Pcb → Pcb} (hpid : ∀ p, (f p).pid = p.pid)
    (hdir : ∀ p, (f p).pageDir = p.pageDir) : SameList s (s.modify x f) := by
  refine ⟨rfl, rfl, rfl, rfl, rfl, fun p => ?_, fun p => ?_⟩
  · by_cases hp : p = x
    · subst hp
      simp only [Procs.modify, Function.update_self, hpid]
    · simp only [Procs.modify, Function.update_of_ne hp]
  · by_cases hp : p = x
    · subst hp
      simp only [Procs.modify, Function.update_self, hdir]
    · simp only [Procs.modify, Function.update_of_ne hp]

/-- Only the heap is changed. -/
theorem freePageDir_cases (s : Procs) (x : Nat) :
    freePageDir s x = s ∨ ∃ d, (s.pcb x).pageDir = .heap d ∧
      freePageDir s x = { s with heap := s.heap.kfree d } := by
  unfold freePageDir
  cases (s.pcb x).pageDir with
  | kernel => exact .inl rfl
  | heap d =>
    by_cases h0 : d = 0
    · exact .inl (if_pos h0)
    · exact .inr ⟨d, rfl, if_neg h0⟩

theorem ProcInv.freePageDir (h : ProcInv s ring) (hx : x ∈ ring) :
    ProcInv (freePageDir s x) ring ∧ (freePageDir s x).heap.requests = s.heap.requests ∧
      (freePageDir s x).pcb = s.pcb ∧ (freePageDir s x).currentProcess = s.currentProcess ∧
      (freePageDir s x).nextPid = s.nextPid := by
  rcases freePageDir_cases s x with he | ⟨d, hd, he⟩
  · rw [he]
    exact ⟨h, rfl, rfl, rfl, rfl⟩
  · rw [he]
    obtain ⟨hdle, hdr⟩ := h.dirs x hx d hd
    refine ⟨⟨h.links, h.head, fun p hp => ?_, h.sane.kfree hdle, h.dirs⟩, rfl, rfl, rfl, rfl⟩
    exact BlockHeap.live_kfree.mpr ⟨h.live p hp, fun hpd => hdr (hpd ▸ hp)⟩

/-- Only the list is changed. -/
theorem removeProcessFromList_frame (s : Procs) (x : Nat) :
    (removeProcessFromList s x).heap = s.heap ∧ (removeProcessFromList s x).pcb = s.pcb ∧
      (removeProcessFromList s x).currentProcess = s.currentProcess ∧
      (removeProcessFromList s x).nextPid = s.nextPid := by
  unfold removeProcessFromList
  split <;> exact ⟨rfl, rfl, rfl, rfl⟩

/-- What `terminate_process` does to the process it finds. -/
structure Ended (s s' : Procs) (pre : List Nat) (x : Nat) (post : List Nat) : Prop where
  links : IsRing s'.next s'.prev (pre ++ post)
  head : s'.processList = (pre ++ post).headD 0
  requests : s'.heap.requests = s.heap.requests
  sane : s'.heap.Sane
  live : ∀ p ∈ pre ++ post, s'.heap.Live p
  freed : ¬ s'.heap.Live x
  pcb : ∀ p, p ≠ x → s'.pcb p = s.pcb p
  currentProcess : s'.currentProcess = s.currentProcess
  nextPid : s'.nextPid = s.nextPid

/-- The processes next to `x`. -/
theorem ProcInv.other (h : ProcInv s (pre ++ x :: post)) :
    ∀ p ∈ pre ++ post, p ≠ x ∧ p ∈ pre ++ x :: post := by
  intro p hp
  have hnodup : (x :: (post ++ pre)).Nodup := h.links.rotate.nodup
  refine ⟨fun he => (List.nodup_cons.mp hnodup).1 ?_, ?_⟩
  · rw [List.mem_append, or_comm, ← List.mem_append]
    exact he ▸ hp
  · exact List.mem_append.mpr ((List.mem_append.mp hp).imp_right (List.mem_cons_of_mem _))

theorem ProcInv.ended (h : ProcInv s (pre ++ x :: post)) :
    Ended s (endProcess s x) pre x post := by
  have hx : x ∈ pre ++ x :: post := List.mem_append_right _ List.mem_cons_self
  have h₁ : ProcInv (s.modify x fun p => { p with state := .terminated }) (pre ++ x :: post) :=
    h.same (sameList_modify (fun _ => rfl) fun _ => rfl)
  obtain ⟨h₂, hrequests, hpcb, hcurrent, hnextPid⟩ := h₁.freePageDir hx
  rw [endProcess]
  set s₁ := s.modify x fun p => { p with state := .terminated } with hs₁
  set s₂ := Process.freePageDir s₁ x
  obtain ⟨hlinks, hhead⟩ := isRing_removeProcessFromList h₂.links h₂.head
  obtain ⟨hheap, hframe, hcurrent', hnextPid'⟩ := removeProcessFromList_frame s₂ x
  have hxle := (h₂.live x hx).le
  refine ⟨hlinks, hhead, ?_, ?_, fun p hp => ?_, ?_, fun p hp => ?_, hcurrent'.trans hcurrent,
    hnextPid'.trans hnextPid⟩
  · exact (congrArg BlockHeap.requests hheap).trans hrequests
  · simp only [hheap]
    exact h₂.sane.kfree hxle
  · simp only [hheap]
    exact BlockHeap.live_kfree.mpr ⟨h₂.live p (h.other p hp).2, (h.other p hp).1⟩
  · simp only [hheap]
    exact fun hl => (BlockHeap.live_kfree.mp hl).2 rfl
  · simp only [hframe, hpcb, hs₁, Procs.modify]
    exact Function.update_of_ne hp _ _

theorem ProcInv.endProcess (h : ProcInv s (pre ++ x :: post)) :
    ProcInv (endProcess s x) (pre ++ post) := by
  have hend := h.ended
  refine ⟨hend.links, hend.head, hend.live, hend.sane, fun p hp d hd => ?_⟩
  obtain ⟨hpx, hpm⟩ := h.other p hp
  rw [hend.pcb p hpx] at hd
  rw [hend.requests]
  obtain ⟨hdle, hdr⟩ := h.dirs p hpm d hd
  exact ⟨hdle, fun hm => hdr (h.other d hm).2⟩

/-! ## The other operations -/

/-- `schedule` changes `current_process` and two fields of one record at most. -/
theorem sameList_schedule {esp ebp : Nat} (h : schedule s esp ebp = some s') : SameList s s' := by
  have hswitch : ∀ next, switchProcess s next esp ebp = some s' → SameList s s' := by
    intro next hs
    unfold switchProcess at hs
    split at hs
    · exact Option.some.inj hs ▸ .refl s
    · split at hs
      · cases hs
      · obtain rfl := Option.some.inj hs
        have hm := @sameList_modify s s.currentProcess (fun p => { p with esp := esp, ebp := ebp })
          (fun _ => rfl) fun _ => rfl
        exact ⟨hm.heap, hm.next, hm.prev, hm.processList, hm.nextPid, hm.pid, hm.pageDir⟩
  unfold schedule at h
  split at h
  · exact Option.some.inj h ▸ .refl s
  · cases hc : chooseProcess s with
    | none =>
      rw [hc] at h
      cases h
    | some next =>
      simp only [hc] at h
      split at h
      · exact hswitch next h
      · exact Option.some.inj h ▸ .refl s

/-- The state after `init_process_management`, whose record may be refused. -/
theorem ProcInv.init {heap : BlockHeap} (hs : heap.Sane) :
    (heap.grants heap.requests = false ∧ (heap.kmalloc pcbSize).1 = 0 ∧
      ProcInv (initProcessManagement (.boot heap)) [] ∧
      (initProcessManagement (.boot heap)).currentProcess = 0) ∨
    (heap.grants heap.requests = true ∧ (heap.kmalloc pcbSize).1 = heap.requests + 1 ∧
      ProcInv (initProcessManagement (.boot heap)) [heap.requests + 1] ∧
      (initProcessManagement (.boot heap)).currentProcess = heap.requests + 1 ∧
      ((initProcessManagement (.boot heap)).pcb (heap.requests + 1)).pid = 0) := by
  cases hg : heap.grants heap.requests with
  | false =>
    refine .inl ⟨rfl, ?_⟩
    simp (disch := decide) only [initProcessManagement, Procs.boot, BlockHeap.kmalloc_of_ne_zero,
      hg, Bool.false_eq_true, if_false, if_true]
    have hnone : ∀ {P : Nat → Prop}, ∀ p ∈ ([] : List Nat), P p :=
      fun p hp => absurd hp List.not_mem_nil
    refine ⟨trivial, ⟨⟨List.nodup_nil, List.isChain_nil, fun x hx => ?_⟩, rfl, hnone,
      @BlockHeap.Sane.kmalloc _ pcbSize hs, hnone⟩, trivial⟩
    cases hx
  | true =>
    refine .inr ⟨rfl, ?_⟩
    simp (disch := decide) only [initProcessManagement, Procs.boot, Procs.clear, Procs.modify,
      addProcessToList, BlockHeap.kmalloc_of_ne_zero, hg, if_true, Nat.succ_ne_zero, if_false,
      Function.update_idem, Function.update_self]
    refine ⟨trivial, ⟨isRing_singleton ?_ ?_, rfl, fun p hp => ?_,
      @BlockHeap.Sane.kmalloc _ pcbSize hs, fun p hp d hd => ?_⟩, trivial, trivial⟩
    · simp only [Function.update_self]
    · simp only [Function.update_self]
    · obtain rfl := List.mem_singleton.mp hp
      exact BlockHeap.live_kmalloc_new hs hg (show pcbSize ≠ 0 by decide)
    · obtain rfl := List.mem_singleton.mp hp
      simp only [Function.update_self] at hd
      cases hd

/-- A heap that grants every request. -/
def roomyHeap : BlockHeap := ⟨fun _ => true, fun i => 8192 * i, 0, []⟩

theorem roomyHeap_sane : roomyHeap.Sane := fun _ hp => (nomatch hp)

end SynapseKernel.Process
