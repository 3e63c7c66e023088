import SynapseKernel.Lib.X86

/-! # Interrupts and calls

An interrupt pushes the state of the interrupted code, `iret` pops it. A called
function gives back the registers it has to and the caller's part of the stack
(`Returns`), so what was pushed before the call is there after it
(`Stacked.returns`). -/
namespace SynapseKernel.X86
open SynapseKernel.Word SynapseKernel.ByteMemory

/-- These words are on top of the stack, the top one first. -/
def Stacked (m : Machine) (ws : List Nat) : Prop :=
  ∀ i v, ws[i]? = some v → read32 m.mem (u32 (m.reg .esp + 4 * i)) = v

/-- Every value fits its register. -/
structure Machine.Fits (m : Machine) : Prop where
  reg : ∀ r, m.reg r < 2 ^ 32
  seg : ∀ s, m.seg s < 2 ^ 16
  eip : m.eip < 2 ^ 32
  eflags : m.eflags < 2 ^ 32

/-- An interrupt gate, and the stack of the inner level in the task state segment. -/
structure Gate where
  offset : Nat
  selector : Nat
  esp0 : Nat
  ss0 : Nat

/-- IF, TF, NT, RF and VM are cleared on the way into the handler. -/
def gateFlags (eflags : Nat) : Nat := eflags &&& 0xFFFCBCFF

/-- From a less privileged level the stack is switched first, and where it was is
pushed, too. -/
def interruptFrame (g : Gate) (m : Machine) : List Nat :=
  if g.selector % 4 < m.seg .cs % 4 then [m.seg .ss, m.reg .esp, m.eflags, m.seg .cs, m.eip]
  else [m.eflags, m.seg .cs, m.eip]

def interruptStack (g : Gate) (m : Machine) : Machine :=
  if g.selector % 4 < m.seg .cs % 4 then
    { m.setReg .esp g.esp0 with seg := Function.update m.seg .ss g.ss0 }
  else m

/-- The machine at the first instruction of the handler. -/
def Machine.interrupt (m : Machine) (g : Gate) : Machine :=
  let entered := (interruptStack g m).pushAll (interruptFrame g m)
  { entered with
    eip := g.offset
    eflags := gateFlags m.eflags
    seg := Function.update entered.seg .cs g.selector }

/-- `call`, with the address of the next instruction. -/
def Machine.call (m : Machine) (target next : Nat) : Machine := { m.push next with eip := target }

/-- The function called in `c` has returned in `c'` as a C function does: to its
caller, with the registers a callee saves, and the `depth` words that the caller
had on its stack. -/
structure Returns (depth : Nat) (c c' : Machine) : Prop where
  eip : c'.eip = read32 c.mem (c.reg .esp)
  esp : c'.reg .esp = u32 (c.reg .esp + 4)
  saved : ∀ r ∈ [Reg.ebx, .esi, .edi, .ebp], c'.reg r = c.reg r
  seg : c'.seg = c.seg
  frame : ∀ i < depth, read32 c'.mem (u32 (c.reg .esp + 4 * (i + 1))) =
    read32 c.mem (u32 (c.reg .esp + 4 * (i + 1)))

variable {m c c' : Machine} {ws vs : List Nat} {v depth : Nat}

/-! ## The stack -/

theorem push_esp (m : Machine) (v : Nat) : (m.push v).reg .esp = sub32 (m.reg .esp) 4 := by
  unfold Machine.push Machine.setReg
  exact Function.update_self Reg.esp _ m.reg

theorem push_reg {r : Reg} (hr : r ≠ .esp) (v : Nat) : (m.push v).reg r = m.reg r := by
  unfold Machine.push Machine.setReg
  exact Function.update_of_ne hr _ m.reg

theorem Stacked.push (h : Stacked m ws) (hesp : m.reg .esp < 2 ^ 32) (hv : v < 2 ^ 32)
    (hlen : ws.length < 2 ^ 16) : Stacked (m.push v) (v :: ws) := by
  intro i w hw
  rw [push_esp]
  cases i with
  | zero =>
    obtain rfl := Option.some.inj hw
    have htop : u32 (sub32 (m.reg .esp) 4 + 4 * 0) = sub32 (m.reg .esp) 4 :=
      u32_of_lt (u32_lt _)
    rw [htop]
    exact (read32_write32 ..).trans (Nat.mod_eq_of_lt hv)
  | succ i =>
    have hw : ws[i]? = some w := hw
    have hi : i < ws.length := (List.getElem?_eq_some_iff.mp hw).1
    have hbelow : u32 (sub32 (m.reg .esp) 4 + 4 * (i + 1)) = u32 (m.reg .esp + 4 * i) := by
      unfold sub32 u32
      omega
    rw [hbelow]
    refine (read32_write32_ne ?_).trans (h i w hw)
    unfold sub32 u32
    omega

theorem pushAll_reg {r : Reg} (hr : r ≠ .esp) (vs : List Nat) :
    (m.pushAll vs).reg r = m.reg r := by
  induction vs generalizing m with
  | nil => rfl
  | cons v vs ih => exact ih.trans (push_reg hr v)

theorem pushAll_seg (m : Machine) (vs : List Nat) : (m.pushAll vs).seg = m.seg := by
  induction vs generalizing m with
  | nil => rfl
  | cons v vs ih => exact ih (m.push v)

/-- The stack pointer goes down by a word for each value. -/
theorem pushAll_esp (hesp : m.reg .esp < 2 ^ 32) (vs : List Nat) :
    (m.pushAll vs).reg .esp < 2 ^ 32 ∧
      u32 ((m.pushAll vs).reg .esp + 4 * vs.length) = m.reg .esp := by
  induction vs generalizing m with
  | nil => exact ⟨hesp, u32_of_lt hesp⟩
  | cons v vs ih =>
    have hpush : (m.push v).reg .esp < 2 ^ 32 := by
      rw [push_esp]
      exact u32_lt _
    obtain ⟨hlt, heq⟩ := ih hpush
    refine ⟨hlt, ?_⟩
    rw [push_esp] at heq
    unfold Machine.pushAll at heq hlt ⊢
    rw [List.foldl_cons, List.length_cons]
    unfold sub32 u32 at heq
    unfold u32
    omega

theorem Stacked.pushAll (h : Stacked m ws) (hesp : m.reg .esp < 2 ^ 32)
    (hvs : ∀ v ∈ vs, v < 2 ^ 32) (hlen : ws.length + vs.length < 2 ^ 16) :
    Stacked (m.pushAll vs) (vs.reverse ++ ws) := by
  induction vs generalizing m ws with
  | nil => exact h
  | cons v vs ih =>
    obtain ⟨hv, hrest⟩ := List.forall_mem_cons.mp hvs
    rw [List.length_cons] at hlen
    have hpush : (m.push v).reg .esp < 2 ^ 32 := by
      rw [push_esp]
      exact u32_lt _
    have htop := ih (h.push hesp hv (by omega)) hpush hrest (by rw [List.length_cons]; omega)
    rw [List.reverse_cons, List.append_assoc]
    exact htop

theorem Stacked.nil (m : Machine) : Stacked m [] := by
  intro i v h
  cases h

/-- What is below the top words is on top when these are gone. -/
theorem Stacked.drop (h : Stacked c (vs ++ ws)) (hmem : c'.mem = c.mem)
    (hesp : c'.reg .esp = u32 (c.reg .esp + 4 * vs.length)) : Stacked c' ws := by
  intro i v hv
  have hw := h (vs.length + i) v (by rwa [List.getElem?_append_right (Nat.le_add_right ..),
    Nat.add_sub_cancel_left])
  have haddr : u32 (c'.reg .esp + 4 * i) = u32 (c.reg .esp + 4 * (vs.length + i)) := by
    rw [hesp]
    unfold u32
    omega
  rw [haddr, hmem]
  exact hw

/-! ## Calls -/

theorem call_esp (m : Machine) (target next : Nat) :
    (m.call target next).reg .esp = sub32 (m.reg .esp) 4 :=
  push_esp m next

/-- `ret`. -/
def Machine.ret (m : Machine) : Machine :=
  { m.setReg .esp (u32 (m.reg .esp + 4)) with eip := read32 m.mem (m.reg .esp) }

/-- A function that only returns. -/
theorem returns_ret (depth : Nat) (c : Machine) : Returns depth c c.ret := by
  refine ⟨rfl, Function.update_self Reg.esp _ c.reg, fun r hr => ?_, rfl, fun _ _ => rfl⟩
  refine Function.update_of_ne ?_ _ c.reg
  rintro rfl
  exact absurd hr (by decide)

theorem Returns.esp_eq {target next : Nat} (hr : Returns depth (m.call target next) c')
    (hesp : m.reg .esp < 2 ^ 32) : c'.reg .esp = m.reg .esp := by
  rw [hr.esp, call_esp]
  unfold sub32 u32
  omega

/-- **What a caller has on its stack is there after the call.** -/
theorem Stacked.returns (h : Stacked c (v :: ws)) (hr : Returns depth c c')
    (hd : ws.length ≤ depth) : Stacked c' ws := by
  intro i w hw
  have hi : i < ws.length := (List.getElem?_eq_some_iff.mp hw).1
  have haddr : u32 (c'.reg .esp + 4 * i) = u32 (c.reg .esp + 4 * (i + 1)) := by
    rw [hr.esp]
    unfold u32
    omega
  rw [haddr, hr.frame i (by omega)]
  exact h (i + 1) w hw

/-! ## Saving all registers -/

theorem stacked_pusha (h : Stacked m ws) (hm : ∀ r, m.reg r < 2 ^ 32)
    (hlen : ws.length + 8 < 2 ^ 16) :
    Stacked m.pusha
      ([.edi, .esi, .ebp, .esp, .ebx, .edx, .ecx, .eax].map m.reg ++ ws) := by
  have hregs : ∀ v ∈ [Reg.eax, .ecx, .edx, .ebx, .esp, .ebp, .esi, .edi].map m.reg, v < 2 ^ 32 := by
    intro v hv
    obtain ⟨r, -, rfl⟩ := List.mem_map.mp hv
    exact hm r
  exact h.pushAll (hm .esp) hregs hlen

theorem pusha_esp (hesp : m.reg .esp < 2 ^ 32) :
    m.pusha.reg .esp < 2 ^ 32 ∧ u32 (m.pusha.reg .esp + 32) = m.reg .esp := by
  have hpushed := pushAll_esp hesp ([.eax, .ecx, .edx, .ebx, .esp, .ebp, .esi, .edi].map m.reg)
  rw [List.length_map] at hpushed
  exact hpushed

/-- **`popa` brings back what `pusha` saved**; the stack pointer it only moves. -/
theorem popa_reg (h : Stacked m ([.edi, .esi, .ebp, .esp, .ebx, .edx, .ecx, .eax].map c.reg ++ ws))
    (r : Reg) : m.popa.reg r = if r = .esp then u32 (m.reg .esp + 32) else c.reg r := by
  cases r with
  | esp => rfl
  | edi => exact h 0 _ rfl
  | esi => exact h 1 _ rfl
  | ebp => exact h 2 _ rfl
  | ebx => exact h 4 _ rfl
  | edx => exact h 5 _ rfl
  | ecx => exact h 6 _ rfl
  | eax => exact h 7 _ rfl

/-! ## Interrupts -/

section Interrupts
variable {g : Gate} {target next : Nat}

theorem Stacked.congr (h : Stacked c ws) (hmem : c'.mem = c.mem)
    (hesp : c'.reg .esp = c.reg .esp) : Stacked c' ws := by
  intro i v hv
  rw [hesp, hmem]
  exact h i v hv

theorem interruptStack_esp (hm : m.Fits) (hg : g.esp0 < 2 ^ 32) :
    (interruptStack g m).reg .esp < 2 ^ 32 := by
  unfold interruptStack
  split
  · exact hg
  · exact hm.reg .esp

theorem interruptFrame_lt (hm : m.Fits) : ∀ v ∈ interruptFrame g m, v < 2 ^ 32 := by
  have hseg : ∀ s, m.seg s < 2 ^ 32 := fun s => Nat.lt_trans (hm.seg s) (by decide)
  have hlast : ∀ v ∈ [m.eflags, m.seg .cs, m.eip], v < 2 ^ 32 :=
    List.forall_mem_cons.mpr ⟨hm.eflags, List.forall_mem_cons.mpr
      ⟨hseg .cs, List.forall_mem_singleton.mpr hm.eip⟩⟩
  unfold interruptFrame
  split
  · exact List.forall_mem_cons.mpr ⟨hseg .ss, List.forall_mem_cons.mpr ⟨hm.reg .esp, hlast⟩⟩
  · exact hlast

theorem length_interruptFrame (g : Gate) (m : Machine) : (interruptFrame g m).length ≤ 5 := by
  unfold interruptFrame
  split
  · exact Nat.le_refl 5
  · exact Nat.le_add_right 3 2

/-- Only the stack pointer of the general registers moves. -/
theorem interrupt_reg {r : Reg} (hr : r ≠ .esp) : (m.interrupt g).reg r = m.reg r := by
  have hstack : (interruptStack g m).reg r = m.reg r := by
    unfold interruptStack
    split
    · exact Function.update_of_ne hr _ m.reg
    · rfl
  exact (pushAll_reg hr _).trans hstack

theorem interrupt_esp (hm : m.Fits) (hg : g.esp0 < 2 ^ 32) :
    (m.interrupt g).reg .esp < 2 ^ 32 ∧
      u32 ((m.interrupt g).reg .esp + 4 * (interruptFrame g m).length) =
        (interruptStack g m).reg .esp :=
  pushAll_esp (interruptStack_esp hm hg) _

theorem stacked_interrupt (hm : m.Fits) (hg : g.esp0 < 2 ^ 32) :
    Stacked (m.interrupt g) (interruptFrame g m).reverse := by
  have hlen := length_interruptFrame g m
  have hpushed := (Stacked.nil (interruptStack g m)).pushAll (interruptStack_esp hm hg)
    (@interruptFrame_lt m g hm) (by rw [List.length_nil]; omega)
  rw [List.append_nil] at hpushed
  exact hpushed.congr rfl rfl

/-- The registers when the handler starts. -/
theorem interrupt_fits (hm : m.Fits) (hg : g.esp0 < 2 ^ 32) (r : Reg) :
    (m.interrupt g).reg r < 2 ^ 32 := by
  by_cases hr : r = .esp
  · rw [hr]
    exact (interrupt_esp hm hg).1
  · rw [interrupt_reg hr]
    exact hm.reg r

/-- The stack in a function that a handler calls after `pusha`. -/
theorem stacked_call (hm : m.Fits) (hg : g.esp0 < 2 ^ 32) (hnext : next < 2 ^ 32) :
    Stacked ((m.interrupt g).pusha.call target next)
      (next :: ([.edi, .esi, .ebp, .esp, .ebx, .edx, .ecx, .eax].map (m.interrupt g).reg ++
        (interruptFrame g m).reverse)) := by
  have hlen := length_interruptFrame g m
  have hsaved := stacked_pusha (@stacked_interrupt m g hm hg) (@interrupt_fits m g hm hg)
    (by rw [List.length_reverse]; omega)
  have hesp := (pusha_esp (@interrupt_esp m g hm hg).1).1
  have hpushed := hsaved.push hesp hnext (by
    rw [List.length_append, List.length_map, List.length_reverse]
    simp only [List.length_cons, List.length_nil]
    omega)
  exact hpushed.congr rfl rfl

/-- The called function runs in the code segment of the gate. -/
theorem call_cs (g : Gate) (m : Machine) (target next : Nat) :
    ((m.interrupt g).pusha.call target next).seg .cs = g.selector := by
  have hsaved : (m.interrupt g).pusha.seg = (m.interrupt g).seg := pushAll_seg ..
  have hcall : ((m.interrupt g).pusha.call target next).seg = (m.interrupt g).pusha.seg := rfl
  rw [hcall, hsaved]
  exact Function.update_self SegReg.cs g.selector
    ((interruptStack g m).pushAll (interruptFrame g m)).seg

/-- **`popa` after the call gives the interrupted code its registers back**, and the
frame of the interrupt is on top. -/
theorem popa_returns (hm : m.Fits) (hg : g.esp0 < 2 ^ 32) (hnext : next < 2 ^ 32)
    (hr : Returns (8 + (interruptFrame g m).length) ((m.interrupt g).pusha.call target next) c') :
    (∀ r ≠ Reg.esp, c'.popa.reg r = m.reg r) ∧
      c'.popa.reg .esp = (m.interrupt g).reg .esp ∧
      Stacked c'.popa (interruptFrame g m).reverse := by
  have hd : ([.edi, .esi, .ebp, .esp, .ebx, .edx, .ecx, .eax].map (m.interrupt g).reg ++
      (interruptFrame g m).reverse).length ≤ 8 + (interruptFrame g m).length := by
    rw [List.length_append, List.length_reverse]
    exact Nat.le_refl _
  have hback := (@stacked_call m g target next hm hg hnext).returns hr hd
  obtain ⟨hlt, hmoved⟩ := pusha_esp (@interrupt_esp m g hm hg).1
  rw [← hr.esp_eq hlt] at hmoved
  refine ⟨fun r hne => ?_, hmoved, hback.drop rfl ?_⟩
  · rw [popa_reg hback, if_neg hne, interrupt_reg hne]
  · rw [List.length_map]
    rfl

/-- **`iret` on the frame of an interrupt resumes the interrupted code.** -/
theorem iret_resumes (hm : m.Fits) (hg : g.esp0 < 2 ^ 32)
    (h : Stacked c (interruptFrame g m).reverse) (hesp : c.reg .esp = (m.interrupt g).reg .esp)
    (hcs : c.seg .cs = g.selector) :
    c.iret.eip = m.eip ∧ c.iret.eflags = m.eflags ∧ c.iret.reg .esp = m.reg .esp ∧
      ∀ r ≠ Reg.esp, c.iret.reg r = c.reg r := by
  obtain ⟨hlt, hback⟩ := interrupt_esp hm hg
  have htop : u32 (c.reg .esp + 4 * 0) = c.reg .esp := by
    rw [hesp]
    exact u32_of_lt hlt
  have hpopped : read16 c.mem (u32 (c.reg .esp + 4)) =
      read32 c.mem (u32 (c.reg .esp + 4 * 1)) % 2 ^ 16 := read16_eq ..
  unfold interruptFrame interruptStack at *
  unfold Machine.iret Machine.setReg
  by_cases hout : g.selector % 4 < m.seg .cs % 4
  · simp only [if_pos hout] at h
    have heip : read32 c.mem (u32 (c.reg .esp + 4 * 0)) = m.eip := h 0 _ rfl
    have hcs' : read32 c.mem (u32 (c.reg .esp + 4 * 1)) = m.seg .cs := h 1 _ rfl
    have hfl : read32 c.mem (u32 (c.reg .esp + 4 * 2)) = m.eflags := h 2 _ rfl
    have hsp : read32 c.mem (u32 (c.reg .esp + 4 * 3)) = m.reg .esp := h 3 _ rfl
    rw [htop] at heip
    rw [hcs', Nat.mod_eq_of_lt (hm.seg .cs)] at hpopped
    simp only [hpopped, hcs, if_pos hout]
    exact ⟨heip, hfl, hsp, fun r hr => Function.update_of_ne hr _ c.reg⟩
  · simp only [if_neg hout] at h hback
    have heip : read32 c.mem (u32 (c.reg .esp + 4 * 0)) = m.eip := h 0 _ rfl
    have hcs' : read32 c.mem (u32 (c.reg .esp + 4 * 1)) = m.seg .cs := h 1 _ rfl
    have hfl : read32 c.mem (u32 (c.reg .esp + 4 * 2)) = m.eflags := h 2 _ rfl
    rw [htop] at heip
    rw [hcs', Nat.mod_eq_of_lt (hm.seg .cs)] at hpopped
    simp only [hpopped, hcs, if_neg hout]
    refine ⟨heip, hfl, ?_, fun r hr => Function.update_of_ne hr _ c.reg⟩
    rw [Function.update_self, hesp]
    exact hback

end Interrupts

end SynapseKernel.X86
