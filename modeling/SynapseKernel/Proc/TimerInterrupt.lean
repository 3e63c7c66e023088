import SynapseKernel.Lib.X86Calls
import SynapseKernel.Proc.PriorityDispatch

/-! # The timer interrupt (kernel/proc/switch.asm, sched.c)

The wrapper calls the handler without an argument, so the handler takes what is on
top of the stack, the interrupted `edi`, for the address of the registers; and it
loads `al` for the interrupt controller when the registers are already restored.
The records of the kernel are kept apart from the memory that the stack and `edi`
point into. -/
namespace SynapseKernel.Proc
open SynapseKernel.Word SynapseKernel.ByteMemory SynapseKernel.Kheap SynapseKernel.X86

/-- `registers_t`; what it has no field for is left `0`. -/
def registersAt (m : Mem) (p : Nat) : Regs :=
  let word (i : Nat) := read32 m (u32 (p + 4 * i))
  { edi := word 0, esi := word 1, ebp := word 2, esp := word 3, ebx := word 4, edx := word 5
    ecx := word 6, eax := word 7, eip := word 8, cs := word 9, eflags := word 10
    ds := 0, es := 0, fs := 0, gs := 0, ss := 0 }

/-! ## The code -/

/-- `timer_handler_wrapper` up to its call and from there on. -/
def beforeCall : List Instr := [.pusha]

def afterCall : List Instr := [.popa, .movAl 0x20, .outAl 0x20, .iret]

/-- Where the code is, and the kernel stack for an interrupt of user code. -/
structure TimerSetup where
  wrapper : Nat
  handler : Nat
  next : Nat
  esp0 : Nat
  ss0 : Nat
  next_lt : next < 2 ^ 32
  esp0_lt : esp0 < 2 ^ 32

/-- What `irq_install` puts into entry 0x20. -/
def TimerSetup.gate (t : TimerSetup) : Gate := ⟨t.wrapper, 0x08, t.esp0, t.ss0⟩

/-- The interrupted machine at the first instruction of `timer_interrupt_handler`. -/
def handlerEntry (t : TimerSetup) (m : Machine) : Machine :=
  (beforeCall.foldl step (m.interrupt t.gate)).call t.handler t.next

/-- The first argument of a C function, seen from its first instruction. -/
def argument (c : Machine) : Nat := read32 c.mem (u32 (c.reg .esp + 4))

/-- The machine after the wrapper, the handler having returned in `c`. -/
def afterHandler (c : Machine) : Machine := afterCall.foldl step c

/-- What the handler finds at the address it takes for `regs`. -/
def handlerRegs (t : TimerSetup) (m : Machine) : Regs :=
  registersAt (handlerEntry t m).mem (argument (handlerEntry t m))

/-- `schedule` gets to its call of `switch_to`. -/
def CallsSwitch (s : Sched) : Prop :=
  s.currentTask ≠ 0 ∧
    let (next, s) := popReady maxPriority (afterSlice s)
    if next ≠ 0 then s.currentTask ≠ next
    else
      let (idle, s) := createIdleTask s
      idle ≠ 0 ∧ s.currentTask ≠ idle

/-! ## What it is for -/

/-- There is a current task and it is `TASK_RUNNING`. -/
def Running (s : Sched) : Prop := s.currentTask ≠ 0 ∧ (s.tcb s.currentTask).state = .running

/-- The ten registers that the handler copies. -/
def Regs.copied (r : Regs) : List Nat :=
  [r.edi, r.esi, r.ebp, r.esp, r.ebx, r.edx, r.ecx, r.eax, r.eip, r.eflags]

def RegsContext.copied (r : RegsContext) : List Nat :=
  [r.edi, r.esi, r.ebp, r.esp, r.ebx, r.edx, r.ecx, r.eax, r.eip, r.eflags]

def interruptedWords (m : Machine) : List Nat :=
  [.edi, .esi, .ebp, .esp, .ebx, .edx, .ecx, .eax].map m.reg ++ [m.eip, m.eflags]

/-- `m'` goes on where `m` was interrupted, and the task that was running has the
registers of `m` saved. -/
structure Transparent (m m' : Machine) (s s' : Sched) : Prop where
  general : ∀ r, m'.reg r = m.reg r
  flags : m'.eflags = m.eflags
  resumed : m'.eip = m.eip
  saved : Running s → (s'.tcb s.currentTask).regs.copied = interruptedWords m

variable {s : Sched} {m c : Machine} {t : TimerSetup} {cpu : RegsContext}

/-! ## The handler -/

theorem afterSlice_keeps (s : Sched) :
    (∀ x, ((afterSlice s).tcb x).regs = (s.tcb x).regs) ∧
      ((afterSlice s).currentTask = s.currentTask ∨ (afterSlice s).currentTask = 0) := by
  have hcharge : ∀ x, ((chargeCurrent s).tcb x).regs = (s.tcb x).regs := by
    intro x
    refine s.modify_field Task.regs ?_ _ x
    exact fun _ => rfl
  unfold afterSlice
  by_cases hslice : ((chargeCurrent s).tcb (chargeCurrent s).currentTask).timeSlice = 0
  · simp only [if_pos hslice]
    refine ⟨fun x => ?_, .inr rfl⟩
    rw [tcb_requeueCurrent]
    by_cases hx : x = s.currentTask
    · rw [hx, Function.update_self]
    · rw [Function.update_of_ne hx]
  · simp only [if_neg hslice]
    exact ⟨hcharge, .inl rfl⟩

theorem popReady_keeps (n : Nat) (s : Sched) :
    (∀ x, ((popReady n s).2.tcb x).regs = (s.tcb x).regs) ∧
      (popReady n s).2.heap = s.heap ∧ (popReady n s).2.currentTask = s.currentTask := by
  induction n with
  | zero => exact ⟨fun _ => rfl, rfl, rfl⟩
  | succ n ih =>
    unfold popReady
    by_cases hq : s.readyQueue n ≠ 0
    · simp only [if_pos hq]
      refine ⟨fun x => ?_, rfl, rfl⟩
      refine Sched.modify_field Task.regs ?_ _ _ x
      exact fun _ => rfl
    · simp only [if_neg hq]
      exact ih

theorem dispatch_current {next : Nat} (h : ¬ s.currentTask ≠ next) (cpu : RegsContext) (x : Nat) :
    ((dispatch s cpu next).tcb x).regs = (s.tcb x).regs := by
  have he : dispatch s cpu next =
      s.modify next fun t => { t with state := .running, lastScheduled := 0 } := if_neg h
  rw [he]
  refine s.modify_field Task.regs ?_ _ x
  exact fun _ => rfl

theorem popReady_empty {n : Nat} (h : ∀ i < n, s.readyQueue i = 0) : popReady n s = (0, s) := by
  induction n with
  | zero => rfl
  | succ n ih =>
    unfold popReady
    simp only [h n (Nat.lt_succ_self n), ne_eq, not_true, if_false]
    exact ih fun i hi => h i (Nat.lt_succ_of_lt hi)

/-- With no other task and no memory for an idle task the current one goes on. -/
theorem alone_stays (hslice : sub32 (s.tcb s.currentTask).timeSlice 1 ≠ 0)
    (hqueues : ∀ i < maxPriority, s.readyQueue i = 0) (hheap : ¬ s.heap.GrantsNext 2) :
    ¬ CallsSwitch s := by
  have hcharged : ((chargeCurrent s).tcb (chargeCurrent s).currentTask).timeSlice =
      sub32 (s.tcb s.currentTask).timeSlice 1 := by
    simp only [chargeCurrent, Sched.modify, Function.update_self]
  have hafter : afterSlice s = chargeCurrent s := by
    unfold afterSlice
    exact if_neg (hcharged ▸ hslice)
  have hpop : popReady maxPriority (chargeCurrent s) = (0, chargeCurrent s) :=
    popReady_empty hqueues
  intro h
  have hgo := h.2
  rw [hafter, hpop] at hgo
  simp only [ne_eq, not_true, if_false] at hgo
  rcases createIdleTask_cases (chargeCurrent s) with ⟨hg, -⟩ | ⟨-, hidle, -⟩
  · exact hheap hg
  · exact hgo.1 hidle

/-- **A `schedule` that does not switch** leaves the saved registers of the current
task alone. -/
theorem Sound.schedule_regs (h : Sound s) (hstay : ¬ CallsSwitch s) (h0 : s.currentTask ≠ 0)
    (cpu : RegsContext) :
    ((Proc.schedule s cpu).tcb s.currentTask).regs = (s.tcb s.currentTask).regs := by
  obtain ⟨hregs, hheap, hcurrent⟩ := popReady_keeps maxPriority (afterSlice s)
  obtain ⟨hslice, hcurrent'⟩ := afterSlice_keeps s
  have hkeep : ((popReady maxPriority (afterSlice s)).2.tcb s.currentTask).regs =
      (s.tcb s.currentTask).regs := (hregs _).trans (hslice _)
  have hle : s.currentTask ≤ (popReady maxPriority (afterSlice s)).2.heap.requests := by
    obtain ⟨q, hinv, -⟩ := id h
    rw [hheap, (touches_afterSlice s).heap]
    exact (hinv.handed _ (h.current h0)).2
  have hstay' := not_and.mp hstay h0
  rw [schedule_eq h0]
  by_cases hnext : (popReady maxPriority (afterSlice s)).1 ≠ 0
  · simp only [if_pos hnext] at hstay' ⊢
    exact (dispatch_current hstay' cpu _).trans hkeep
  · simp only [if_neg hnext] at hstay' ⊢
    rcases createIdleTask_cases (popReady maxPriority (afterSlice s)).2 with
      ⟨-, he⟩ | ⟨-, hidle, hr⟩
    · -- a new idle task is not the current one
      rw [he] at hstay'
      refine absurd ⟨Nat.succ_ne_zero _, ?_⟩ hstay'
      have hsame : (withIdleTask (popReady maxPriority (afterSlice s)).2).currentTask =
          (afterSlice s).currentTask := hcurrent
      rw [hsame]
      omega
    · rw [if_pos hidle, hr.tcb _ hle]
      exact hkeep

/-- The saved registers after the handler. -/
theorem Sound.handler_regs (h : Sound s) (regs : Regs)
    (hstay : ¬ CallsSwitch (Proc.atInterrupt s regs)) (hrun : Running s) (cpu : RegsContext) :
    ((timerInterruptHandler s regs cpu).tcb s.currentTask).regs.copied = regs.copied := by
  obtain ⟨h0, hstate⟩ := hrun
  have hsaved : Proc.atInterrupt s regs = Sched.modify { s with systemTicks := u32 (s.systemTicks + 1) }
      s.currentTask fun t => { t with
        regs := { t.regs with
          eax := regs.eax, ebx := regs.ebx, ecx := regs.ecx, edx := regs.edx, edi := regs.edi
          esi := regs.esi, ebp := regs.ebp, esp := regs.esp, eip := regs.eip
          eflags := regs.eflags } } := if_pos ⟨h0, hstate⟩
  have hkeep := (h.atInterrupt regs).schedule_regs hstay (by rw [hsaved]; exact h0) cpu
  have hcurrent : (Proc.atInterrupt s regs).currentTask = s.currentTask :=
    (sameQueues_atInterrupt s regs).currentTask
  rw [hcurrent] at hkeep
  rw [timerInterruptHandler_eq_schedule, hkeep, hsaved]
  simp only [Sched.modify, Function.update_self, Regs.copied, RegsContext.copied]

/-! ## The wrapper -/

theorem handlerEntry_eq (t : TimerSetup) (m : Machine) :
    handlerEntry t m = (m.interrupt t.gate).pusha.call t.handler t.next := by
  unfold handlerEntry beforeCall
  rw [List.foldl_cons, List.foldl_nil, step]

theorem argument_eq {next v : Nat} {ws : List Nat} (h : Stacked c (next :: v :: ws)) :
    argument c = v := h 1 v rfl

/-- The handler takes the interrupted `edi` for its argument. -/
theorem argument_handlerEntry (hm : m.Fits) : argument (handlerEntry t m) = m.reg .edi := by
  have hstack := @stacked_call m t.gate t.handler t.next hm t.esp0_lt t.next_lt
  rw [handlerEntry_eq, argument_eq hstack]
  exact interrupt_reg (by decide)

/-- After `popa` the wrapper changes `eax` and nothing else. -/
theorem afterHandler_eq (c : Machine) :
    afterHandler c =
      (c.popa.setReg .eax (c.popa.reg .eax / 256 * 256 + 0x20)).iret := by
  unfold afterHandler afterCall
  simp only [List.foldl_cons, List.foldl_nil, step, Nat.reduceMod]

/-- **What the wrapper gives back**: every register but `al`. -/
theorem afterHandler_resumes (hm : m.Fits)
    (hret : Returns (8 + (interruptFrame t.gate m).length) (handlerEntry t m) c) :
    (afterHandler c).eip = m.eip ∧ (afterHandler c).eflags = m.eflags ∧
      ∀ r, (afterHandler c).reg r =
        if r = .eax then m.reg .eax / 256 * 256 + 0x20 else m.reg r := by
  rw [handlerEntry_eq] at hret
  obtain ⟨hregs, hesp, hframe⟩ := popa_returns hm t.esp0_lt t.next_lt hret
  rw [afterHandler_eq, hregs .eax (by decide)]
  -- the stack and its pointer are as `popa` left them
  have hset : ∀ r, (c.popa.setReg .eax (m.reg .eax / 256 * 256 + 0x20)).reg r =
      if r = .eax then m.reg .eax / 256 * 256 + 0x20 else c.popa.reg r := by
    intro r
    unfold Machine.setReg
    exact Function.update_apply c.popa.reg Reg.eax _ r
  have hloaded := @Stacked.congr _ (c.popa.setReg .eax (m.reg .eax / 256 * 256 + 0x20)) _ hframe rfl
    (hset .esp)
  have hcs : (c.popa.setReg .eax (m.reg .eax / 256 * 256 + 0x20)).seg .cs = t.gate.selector := by
    have hseg : c.seg .cs = t.gate.selector := by
      rw [hret.seg]
      exact call_cs ..
    exact hseg
  obtain ⟨heip, hflags, hsp, hkeep⟩ := iret_resumes hm t.esp0_lt hloaded
    ((hset .esp).trans hesp) hcs
  refine ⟨heip, hflags, fun r => ?_⟩
  by_cases hr : r = .esp
  · rw [hr]
    exact hsp
  · rw [hkeep r hr, hset r]
    by_cases hax : r = .eax
    · rw [if_pos hax, if_pos hax]
    · rw [if_neg hax, if_neg hax, hregs r hr]

/-- **The timer interrupt is transparent** exactly when `al` is the byte that goes to the
interrupt controller and, if a task is running, the interrupted registers happen to stand
where `edi` points. -/
theorem timer_transparent_iff (t : TimerSetup) (s : Sched) (m c : Machine) (cpu : RegsContext)
    (hm : m.Fits) (hs : Sound s)
    (hret : Returns (8 + (interruptFrame t.gate m).length) (handlerEntry t m) c)
    (hstay : ¬ CallsSwitch (atInterrupt s (handlerRegs t m))) :
    Transparent m (afterHandler c) s (timerInterruptHandler s (handlerRegs t m) cpu) ↔
      m.reg .eax % 256 = 0x20 ∧
        (Running s →
          (registersAt (handlerEntry t m).mem (m.reg .edi)).copied = interruptedWords m) := by
  obtain ⟨heip, hflags, hregs⟩ := afterHandler_resumes hm hret
  have hfound : handlerRegs t m = registersAt (handlerEntry t m).mem (m.reg .edi) := by
    unfold handlerRegs
    rw [argument_handlerEntry hm]
  constructor
  · intro h
    refine ⟨?_, fun hrun => ?_⟩
    · have hax := h.general .eax
      rw [hregs .eax, if_pos rfl] at hax
      omega
    · rw [← hfound, ← hs.handler_regs _ hstay hrun cpu]
      exact h.saved hrun
  · intro ⟨hal, hsaved⟩
    refine ⟨fun r => ?_, hflags, heip, fun hrun => ?_⟩
    · rw [hregs r]
      by_cases hax : r = .eax
      · rw [hax, if_pos rfl]
        omega
      · exact if_neg hax
    · rw [hs.handler_regs _ hstay hrun cpu, hfound]
      exact hsaved hrun

/-! ## An interrupt of the idle task -/

/-- As many blocks as `sched_init` asks for. -/
def fiveBlocks : BlockHeap := ⟨fun n => decide (n < 5), fun block => 0x200000 + 4096 * block, 0, []⟩

/-- The idle task is running, nothing is queued, and there is no memory for another
idle task. -/
def idleAlone : Sched := schedule (schedule (schedInit (.boot fiveBlocks 0 0)) .zero) .zero

theorem sound_idleAlone : Sound idleAlone := by
  have hsane : fiveBlocks.Sane := fun p hp => absurd hp List.not_mem_nil
  exact ((Sound.schedInit hsane 0 0).schedule _).schedule _

theorem running_idleAlone : Running idleAlone := ⟨by decide, rfl⟩

theorem idleAlone_stays (regs : Regs) : ¬ CallsSwitch (atInterrupt idleAlone regs) := by
  have hsame := sameQueues_atInterrupt idleAlone regs
  refine alone_stays ?_ (fun i hi => ?_) ?_
  · rw [hsame.timeSlice, hsame.currentTask]
    decide
  · rw [hsame.readyQueue]
    revert i
    decide
  · rw [hsame.heap]
    exact BlockHeap.not_grantsNext (by decide : 0 < 2) rfl

theorem next_lt_idleSetup : 0x100106 < 2 ^ 32 := by decide

theorem esp0_lt_idleSetup : 0x110000 < 2 ^ 32 := by decide

def idleSetup : TimerSetup :=
  ⟨0x100100, 0x100200, 0x100106, 0x110000, 0x10, next_lt_idleSetup, esp0_lt_idleSetup⟩

/-- Kernel code with its stack at `0x1000`. -/
def idleMachine : Machine :=
  { reg := fun r => if r = .esp then 0x1000 else 0, seg := fun _ => 0x08, eip := 0x101000
    eflags := 0x202, cr3 := 0, mem := fun _ => 0 }

theorem idleMachine_fits : idleMachine.Fits := by
  refine ⟨fun r => ?_, fun _ => show 0x08 < 2 ^ 16 by decide, by decide, by decide⟩
  simp only [idleMachine]
  split <;> decide

theorem timer_transparent_iff_idle :
    Transparent idleMachine (afterHandler (handlerEntry idleSetup idleMachine).ret) idleAlone
        (timerInterruptHandler idleAlone (handlerRegs idleSetup idleMachine) .zero) ↔
      idleMachine.reg .eax % 256 = 0x20 ∧
        (Running idleAlone → (registersAt (handlerEntry idleSetup idleMachine).mem
          (idleMachine.reg .edi)).copied = interruptedWords idleMachine) :=
  timer_transparent_iff idleSetup idleAlone idleMachine _ .zero idleMachine_fits sound_idleAlone
    (returns_ret _ _) (idleAlone_stays _)

theorem found_esp : (registersAt (handlerEntry idleSetup idleMachine).mem 0).esp = 0 := by
  decide +kernel

/-- The handler only returns, and still `eax` comes back with `0x20` in `al` and the
idle task has `0` saved for `esp`. -/
theorem idle_not_transparent :
    Running idleAlone ∧ ¬ CallsSwitch (atInterrupt idleAlone (handlerRegs idleSetup idleMachine)) ∧
      Returns (8 + (interruptFrame idleSetup.gate idleMachine).length)
        (handlerEntry idleSetup idleMachine) (handlerEntry idleSetup idleMachine).ret ∧
      (afterHandler (handlerEntry idleSetup idleMachine).ret).reg .eax = 0x20 ∧
      ((timerInterruptHandler idleAlone (handlerRegs idleSetup idleMachine) .zero).tcb
        idleAlone.currentTask).regs.esp = 0 ∧
      ¬ Transparent idleMachine (afterHandler (handlerEntry idleSetup idleMachine).ret) idleAlone
        (timerInterruptHandler idleAlone (handlerRegs idleSetup idleMachine) .zero) := by
  have hret := returns_ret (8 + (interruptFrame idleSetup.gate idleMachine).length)
    (handlerEntry idleSetup idleMachine)
  have hstay := idleAlone_stays (handlerRegs idleSetup idleMachine)
  have hax := (afterHandler_resumes idleMachine_fits hret).2.2 .eax
  have hsaved := sound_idleAlone.handler_regs _ hstay running_idleAlone .zero
  have hesp : (handlerRegs idleSetup idleMachine).esp = 0 := by
    unfold handlerRegs
    rw [argument_handlerEntry idleMachine_fits]
    exact found_esp
  simp only [RegsContext.copied, Regs.copied, List.cons.injEq] at hsaved
  refine ⟨running_idleAlone, hstay, hret, hax, hsaved.2.2.2.1.trans hesp, fun h => ?_⟩
  have hgeneral := h.general .eax
  rw [hax] at hgeneral
  exact absurd hgeneral (by decide)

end SynapseKernel.Proc
