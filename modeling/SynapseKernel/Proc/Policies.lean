import SynapseKernel.Proc.ProcessSchedule

/-! # What the policies select

`schedule` goes for the next ready process in the ring, or for the first of lowest
priority value in the list. Both loops run over the list of the ring, so what they
stop at is told by that list (`nextReady_first`, `lowest_higherPriority`), and
`schedule_selects` puts the filter behind them. -/
namespace SynapseKernel.Process
open SynapseKernel.Kheap SynapseKernel.Ring

/-- The control blocks of a ring from `process_list` on. -/
structure PcbRing (s : Procs) (ring : List Nat) : Prop where
  links : IsRing s.next s.prev ring
  head : s.processList = ring.headD 0
  live : ∀ p ∈ ring, s.heap.Live p

/-- `p` is the first ready process of the list. -/
def FirstReady (s : Procs) (l : List Nat) (p : Nat) : Prop :=
  ∃ l₁ l₂, l = l₁ ++ p :: l₂ ∧ (s.pcb p).state = .ready ∧ ∀ q ∈ l₁, (s.pcb q).state ≠ .ready

/-- `p` is the first of the ready processes of the list with the smallest priority value. -/
def FirstLowest (s : Procs) (l : List Nat) (p : Nat) : Prop :=
  ∃ l₁ l₂, l = l₁ ++ p :: l₂ ∧ (s.pcb p).state = .ready ∧
    (∀ q ∈ l₁, (s.pcb q).state = .ready → (s.pcb p).priority < (s.pcb q).priority) ∧
    ∀ q ∈ l₂, (s.pcb q).state = .ready → (s.pcb p).priority ≤ (s.pcb q).priority

/-- The state after a switch: the old process has its stack pointers saved. -/
def switchedTo (s : Procs) (p esp ebp : Nat) : Procs :=
  { s.modify s.currentProcess fun q => { q with esp := esp, ebp := ebp } with
    currentProcess := p }

/-- What `schedule` should do where the processes after the current one in ring order
are `after`. -/
def Selects (s s' : Procs) (ring after : List Nat) (esp ebp : Nat) : Prop :=
  match s.currentScheduler with
  | .priority =>
    (∃ p, FirstLowest s ring p ∧ p ≠ s.currentProcess ∧ s' = switchedTo s p esp ebp) ∨
      (FirstLowest s ring s.currentProcess ∨ ∀ q ∈ ring, (s.pcb q).state ≠ .ready) ∧ s' = s
  | _ =>
    (∃ p, FirstReady s after p ∧ s' = switchedTo s p esp ebp) ∨
      (∀ q ∈ after, (s.pcb q).state ≠ .ready) ∧ s' = s

variable {s s' : Procs} {ring pre post l : List Nat} {p c : Nat}

theorem ProcInv.pcbRing (h : ProcInv s ring) : PcbRing s ring := ⟨h.links, h.head, h.live⟩

theorem PcbRing.pos (h : PcbRing s ring) : ∀ p ∈ ring, p ≠ 0 :=
  fun p hp => Nat.ne_of_gt (h.live p hp).pos

theorem PcbRing.length_le (h : PcbRing s ring) : ring.length ≤ s.heap.requests :=
  BlockHeap.length_le h.links.nodup fun p hp => ⟨(h.live p hp).pos, (h.live p hp).le⟩

/-! ## The round robin -/

/-- From a process on the loop comes to the first ready one of the rest of the ring, or
round to the current one. -/
theorem nextReady_first (h : IsRing s.next s.prev (c :: l)) (hc : s.currentProcess = c)
    (he : l = pre ++ post) {fuel : Nat} (hf : post.length < fuel) :
    (∃ p, FirstReady s post p ∧ nextReady s fuel (post.headD c) = some p) ∨
      (∀ q ∈ post, (s.pcb q).state ≠ .ready) ∧ nextReady s fuel (post.headD c) = some c := by
  induction post generalizing pre fuel with
  | nil =>
    obtain ⟨fuel, rfl⟩ := Nat.exists_eq_succ_of_ne_zero (Nat.ne_of_gt hf)
    refine .inr ⟨fun q hq => absurd hq List.not_mem_nil, ?_⟩
    rw [List.headD_nil, nextReady, if_neg fun hgo => hgo.2 hc.symm]
  | cons y post ih =>
    obtain ⟨fuel, rfl⟩ := Nat.exists_eq_succ_of_ne_zero (Nat.ne_zero_of_lt hf)
    have hy : c :: l = (c :: pre) ++ y :: post := by rw [he, List.cons_append]
    have hyc : y ≠ s.currentProcess := by
      rintro rfl
      have hnodup := (List.nodup_cons.mp h.nodup).1
      rw [he, hc] at hnodup
      exact hnodup (List.mem_append_right _ List.mem_cons_self)
    rw [List.headD_cons, nextReady]
    by_cases hready : (s.pcb y).state = .ready
    · rw [if_neg fun hgo => hgo.1 hready]
      exact .inl ⟨y, ⟨[], post, rfl, hready, fun q hq => absurd hq List.not_mem_nil⟩, rfl⟩
    · rw [if_pos ⟨hready, hyc⟩, h.next_eq hy]
      have hl : l = (pre ++ [y]) ++ post := by rw [he, List.append_cons]
      rcases ih hl (Nat.lt_of_succ_lt_succ hf) with
        ⟨p, ⟨l₁, l₂, rfl, hp, hno⟩, hr⟩ | ⟨hno, hr⟩
      · exact .inl ⟨p, ⟨y :: l₁, l₂, rfl, hp, List.forall_mem_cons.mpr ⟨hready, hno⟩⟩, hr⟩
      · exact .inr ⟨List.forall_mem_cons.mpr ⟨hready, hno⟩, hr⟩

/-- **The round robin** finds the first ready process behind the current one. -/
theorem PcbRing.nextReady_cases (h : PcbRing s (pre ++ s.currentProcess :: post)) :
    (∃ p, FirstReady s (post ++ pre) p ∧
      nextReady s s.heap.requests (s.next s.currentProcess) = some p) ∨
    (∀ q ∈ post ++ pre, (s.pcb q).state ≠ .ready) ∧
      nextReady s s.heap.requests (s.next s.currentProcess) = some s.currentProcess := by
  have hrot : IsRing s.next s.prev (s.currentProcess :: (post ++ pre)) := h.links.rotate
  have hfuel : (post ++ pre).length < s.heap.requests := by
    have hlen := h.length_le
    simp only [List.length_append, List.length_cons] at hlen ⊢
    omega
  rw [hrot.next_eq (List.nil_append _).symm]
  exact nextReady_first hrot rfl (List.nil_append _).symm hfuel

/-! ## The lowest priority value -/

/-- One round of the loop over all priorities, after the processes of `l`. -/
theorem firstLowest_concat {x : Nat} (hl : ∀ q ∈ l, q ≠ 0)
    (h : (p = 0 ∧ ∀ q ∈ l, (s.pcb q).state ≠ .ready) ∨ FirstLowest s l p) :
    ∃ p', higherPriority s p x = .ok p' ∧
      ((p' = 0 ∧ ∀ q ∈ l ++ [x], (s.pcb q).state ≠ .ready) ∨ FirstLowest s (l ++ [x]) p') := by
  unfold higherPriority
  rcases h with ⟨rfl, hno⟩ | ⟨l₁, l₂, rfl, hp, hbefore, hafter⟩
  · by_cases hx : (s.pcb x).state = .ready
    · rw [if_pos ⟨hx, .inl rfl⟩]
      refine ⟨x, rfl, .inr ⟨l, [], rfl, hx, fun q hq hqr => absurd hqr (hno q hq), ?_⟩⟩
      exact fun q hq => absurd hq List.not_mem_nil
    · rw [if_neg fun hgo => hx hgo.1]
      exact ⟨0, rfl, .inl ⟨rfl, List.forall_mem_append.mpr
        ⟨hno, List.forall_mem_singleton.mpr hx⟩⟩⟩
  · have hp0 := hl p (List.mem_append_right _ List.mem_cons_self)
    by_cases hgo : (s.pcb x).state = .ready ∧
        (p = 0 ∨ (s.pcb x).priority < (s.pcb p).priority)
    · rw [if_pos hgo]
      have hlt := hgo.2.resolve_left hp0
      refine ⟨x, rfl, .inr ⟨l₁ ++ p :: l₂, [], rfl, hgo.1, fun q hq hqr => ?_, ?_⟩⟩
      · rcases List.mem_append.mp hq with hq | hq
        · exact Nat.lt_trans hlt (hbefore q hq hqr)
        · rcases List.mem_cons.mp hq with rfl | hq
          · exact hlt
          · exact Nat.lt_of_lt_of_le hlt (hafter q hq hqr)
      · exact fun q hq => absurd hq List.not_mem_nil
    · rw [if_neg hgo]
      refine ⟨p, rfl, .inr ⟨l₁, l₂ ++ [x], ?_, hp, hbefore, fun q hq hqr => ?_⟩⟩
      · rw [List.append_assoc, List.cons_append]
      · rcases List.mem_append.mp hq with hq | hq
        · exact hafter q hq hqr
        · obtain rfl := List.mem_singleton.mp hq
          exact Nat.le_of_not_lt fun hlt => hgo ⟨hqr, .inr hlt⟩

/-- The loop over all priorities, by the processes it went through. -/
theorem lowest_higherPriority (s : Procs) (l : List Nat) (hl : ∀ q ∈ l, q ≠ 0) :
    ∃ p, l.foldlM (higherPriority s) 0 = .ok p ∧
      ((p = 0 ∧ ∀ q ∈ l, (s.pcb q).state ≠ .ready) ∨ FirstLowest s l p) := by
  induction l using List.reverseRecOn with
  | nil => exact ⟨0, rfl, .inl ⟨rfl, fun q hq => absurd hq List.not_mem_nil⟩⟩
  | append_singleton l x ih =>
    obtain ⟨hl, -⟩ := List.forall_mem_append.mp hl
    obtain ⟨p, hr, hp⟩ := ih hl
    obtain ⟨p', hr', hp'⟩ := @firstLowest_concat s l p x hl hp
    refine ⟨p', ?_, hp'⟩
    rw [List.foldlM_append, hr]
    simp only [List.foldlM_cons, List.foldlM_nil]
    exact congrArg (fun r => r >>= pure) hr'

/-- **The loop over all priorities** finds the first process of lowest value. -/
theorem PcbRing.walk_cases (h : PcbRing s ring) (hne : ring ≠ []) :
    ∃ p, walk (higherPriority s) s.next s.processList s.heap.requests s.processList 0 =
        some (.ok p) ∧
      ((p = 0 ∧ ∀ q ∈ ring, (s.pcb q).state ≠ .ready) ∨ FirstLowest s ring p) := by
  obtain ⟨p, hr, hp⟩ := lowest_higherPriority s ring h.pos
  refine ⟨p, ?_, hp⟩
  have hlen := h.length_le
  have hlinks := h.links
  have hhead := h.head
  cases ring with
  | nil => exact absurd rfl hne
  | cons a l =>
    have ha : s.processList = a := hhead
    rw [ha, hlinks.walk_eq (Nat.lt_of_succ_le hlen), hr]

/-! ## The switch -/

theorem schedule_switches {esp ebp : Nat} (hlist : s.processList ≠ 0) (hc : s.currentProcess ≠ 0)
    (hchoose : chooseProcess s = some p) (h0 : p ≠ 0) (hready : (s.pcb p).state = .ready)
    (hne : p ≠ s.currentProcess) : schedule s esp ebp = some (switchedTo s p esp ebp) := by
  rw [schedule, if_neg hlist, hchoose]
  refine (if_pos ⟨h0, hready, hne⟩).trans ?_
  rw [switchProcess, if_neg (not_or.mpr ⟨h0, hne.symm⟩), if_neg hc]
  rfl

theorem schedule_stays {esp ebp : Nat} (hlist : s.processList ≠ 0)
    (hchoose : chooseProcess s = some p)
    (hno : ¬ (p ≠ 0 ∧ (s.pcb p).state = .ready ∧ p ≠ s.currentProcess)) :
    schedule s esp ebp = some s := by
  rw [schedule, if_neg hlist, hchoose]
  exact if_neg hno

theorem PcbRing.processList_ne (h : PcbRing s ring) (hc : c ∈ ring) : s.processList ≠ 0 := by
  rw [h.head]
  cases ring with
  | nil => cases hc
  | cons a l => exact h.pos a List.mem_cons_self

/-- The processes behind the current one are the others of the ring. -/
theorem PcbRing.after_ne (h : PcbRing s (pre ++ s.currentProcess :: post))
    (hp : p ∈ post ++ pre) : p ≠ 0 ∧ p ≠ s.currentProcess := by
  have hrot : IsRing s.next s.prev (s.currentProcess :: (post ++ pre)) := h.links.rotate
  have hmem : p ∈ pre ++ s.currentProcess :: post := by
    rcases List.mem_append.mp hp with hp | hp
    · exact List.mem_append_right _ (List.mem_cons_of_mem _ hp)
    · exact List.mem_append_left _ hp
  refine ⟨h.pos p hmem, ?_⟩
  rintro rfl
  exact (List.nodup_cons.mp hrot.nodup).1 hp

/-- A switch to the first ready process behind the current one, if there is one. -/
theorem PcbRing.schedule_round (h : PcbRing s (pre ++ s.currentProcess :: post))
    (hchoose : chooseProcess s = nextReady s s.heap.requests (s.next s.currentProcess))
    (esp ebp : Nat) :
    ∃ s', schedule s esp ebp = some s' ∧
      ((∃ p, FirstReady s (post ++ pre) p ∧ s' = switchedTo s p esp ebp) ∨
        (∀ q ∈ post ++ pre, (s.pcb q).state ≠ .ready) ∧ s' = s) := by
  have hc : s.currentProcess ∈ pre ++ s.currentProcess :: post :=
    List.mem_append_right _ List.mem_cons_self
  have hlist := h.processList_ne hc
  rcases h.nextReady_cases with ⟨p, hp, hr⟩ | ⟨hno, hr⟩
  · obtain ⟨l₁, l₂, he, hready, -⟩ := id hp
    have hmem : p ∈ post ++ pre := he ▸ List.mem_append_right _ List.mem_cons_self
    obtain ⟨h0, hne⟩ := h.after_ne hmem
    exact ⟨_, schedule_switches hlist (h.pos _ hc) (hchoose.trans hr) h0 hready hne,
      .inl ⟨p, hp, rfl⟩⟩
  · exact ⟨s, schedule_stays hlist (hchoose.trans hr) fun hgo => hgo.2.2 rfl, .inr ⟨hno, rfl⟩⟩

/-- A switch to the first process of lowest value, if that is another one. -/
theorem PcbRing.schedule_lowest (h : PcbRing s ring) (hc : s.currentProcess ∈ ring)
    (htype : s.currentScheduler = .priority) (esp ebp : Nat) :
    ∃ s', schedule s esp ebp = some s' ∧
      ((∃ p, FirstLowest s ring p ∧ p ≠ s.currentProcess ∧ s' = switchedTo s p esp ebp) ∨
        (FirstLowest s ring s.currentProcess ∨ ∀ q ∈ ring, (s.pcb q).state ≠ .ready) ∧
          s' = s) := by
  have hlist := h.processList_ne hc
  obtain ⟨p, hr, hp⟩ := h.walk_cases (List.ne_nil_of_mem hc)
  have hchoose : chooseProcess s = some p := by simp only [chooseProcess, htype, hr]
  rcases hp with ⟨rfl, hno⟩ | hp
  · exact ⟨s, schedule_stays hlist hchoose fun hgo => hgo.1 rfl, .inr ⟨.inr hno, rfl⟩⟩
  · obtain ⟨l₁, l₂, he, hready, -⟩ := id hp
    have h0 := h.pos p (he ▸ List.mem_append_right _ List.mem_cons_self)
    by_cases hne : p = s.currentProcess
    · exact ⟨s, schedule_stays hlist hchoose fun hgo => hgo.2.2 hne, .inr ⟨.inl (hne ▸ hp), rfl⟩⟩
    · exact ⟨_, schedule_switches hlist (h.pos _ hc) hchoose h0 hready hne,
        .inl ⟨p, hp, hne, rfl⟩⟩

/-- **The policies select what they say**, whatever the states and the priorities, and
nothing but `current_process` and the saved stack pointers changes. -/
theorem schedule_selects (s : Procs) (pre post : List Nat)
    (h : PcbRing s (pre ++ s.currentProcess :: post)) (esp ebp : Nat) :
    ∃ s', schedule s esp ebp = some s' ∧
      Selects s s' (pre ++ s.currentProcess :: post) (post ++ pre) esp ebp := by
  have hc : s.currentProcess ∈ pre ++ s.currentProcess :: post :=
    List.mem_append_right _ List.mem_cons_self
  unfold Selects
  cases htype : s.currentScheduler with
  | priority => exact h.schedule_lowest hc htype esp ebp
  | roundRobin =>
    refine h.schedule_round ?_ esp ebp
    simp only [chooseProcess, htype, if_neg (h.pos _ hc)]
  | fcfs =>
    refine h.schedule_round ?_ esp ebp
    simp only [chooseProcess, htype, if_neg (h.pos _ hc)]

/-- The kernel process and one that is ready. -/
def oneReady : Procs := (createProcess (initProcessManagement (.boot roomyHeap)) kernelName 5).2

theorem pcbRing_oneReady : PcbRing oneReady [1, 2] := by
  refine ⟨isRing_pair (by decide) (by decide) (by decide) (by decide) (by decide), by decide, ?_⟩
  exact List.forall_mem_cons.mpr ⟨⟨by decide, by decide, by decide, by decide⟩,
    List.forall_mem_singleton.mpr ⟨by decide, by decide, by decide, by decide⟩⟩

theorem schedule_selects_oneReady :
    ∃ s', schedule oneReady 0 0 = some s' ∧ Selects oneReady s' [1, 2] [2] 0 0 :=
  schedule_selects oneReady [] [2] pcbRing_oneReady 0 0

end SynapseKernel.Process
