import SynapseKernel.Lib.ByteMemory
import SynapseKernel.Lib.Word

/-! # Straight-line IA-32 code

The instructions a context switch is written with, on a machine with flat
segments and a flat memory. Selectors are sixteen bits wide in a register and
in memory. `test` leaves the auxiliary carry flag as it was, which the
processor may also change. A jump goes forward over a number of instructions. -/
namespace SynapseKernel.X86
open SynapseKernel.Word SynapseKernel.ByteMemory

inductive Reg
  | eax | ecx | edx | ebx | esp | ebp | esi | edi
deriving DecidableEq, Repr

inductive SegReg
  | cs | ds | es | fs | gs | ss
deriving DecidableEq, Repr

structure Machine where
  reg : Reg → Nat
  seg : SegReg → Nat
  eip : Nat
  eflags : Nat
  cr3 : Nat
  mem : Mem

inductive Instr
  /-- `mov dst, [base + disp]` -/
  | movLoad (dst base : Reg) (disp : Nat)
  /-- `mov [base + disp], src` -/
  | movStore (base : Reg) (disp : Nat) (src : Reg)
  | movStoreSeg (base : Reg) (disp : Nat) (src : SegReg)
  | movLoadSeg (dst : SegReg) (base : Reg) (disp : Nat)
  | movCr3 (src : Reg)
  | test (a b : Reg)
  /-- `jz`, over the next `skip` instructions -/
  | jz (skip : Nat)
  /-- `push dword [base + disp]` -/
  | pushMem (base : Reg) (disp : Nat)
  | pushfd
  | pop (dst : Reg)
  | pusha
  | popa
  /-- `mov al, imm` -/
  | movAl (imm : Nat)
  /-- `out port, al`; the device is not part of the machine -/
  | outAl (port : Nat)
  | iret
deriving DecidableEq, Repr

def Machine.setReg (m : Machine) (r : Reg) (v : Nat) : Machine :=
  { m with reg := Function.update m.reg r v }

/-- The address of the operand `[base + disp]`. -/
def Machine.operand (m : Machine) (base : Reg) (disp : Nat) : Nat := u32 (m.reg base + disp)

def Machine.push (m : Machine) (v : Nat) : Machine :=
  let esp := sub32 (m.reg .esp) 4
  { m.setReg .esp esp with mem := write32 m.mem esp v }

/-- The values go onto the stack, the last one on top. -/
def Machine.pushAll (m : Machine) (vs : List Nat) : Machine := vs.foldl Machine.push m

/-- `pusha` pushes the stack pointer it started with. -/
def Machine.pusha (m : Machine) : Machine :=
  m.pushAll ([.eax, .ecx, .edx, .ebx, .esp, .ebp, .esi, .edi].map m.reg)

/-- `popa` passes over the stack pointer that was pushed. -/
def Machine.popa (m : Machine) : Machine :=
  let word (i : Nat) := read32 m.mem (u32 (m.reg .esp + 4 * i))
  { m with reg := fun
      | .edi => word 0
      | .esi => word 1
      | .ebp => word 2
      | .esp => u32 (m.reg .esp + 32)
      | .ebx => word 4
      | .edx => word 5
      | .ecx => word 6
      | .eax => word 7 }

/-- The low byte has an even number of bits set. -/
def evenParity (v : Nat) : Bool := (List.range 8).countP (v.testBit ·) % 2 == 0

/-- The flags after an `and` with result `v`: CF and OF are cleared, PF, ZF and
SF follow the result. -/
def logicFlags (eflags v : Nat) : Nat :=
  (eflags &&& 0xFFFFF73A) ||| (if evenParity v then 0x4 else 0) |||
    (if v = 0 then 0x40 else 0) ||| (if v.testBit 31 then 0x80 else 0)

def zeroFlag (eflags : Nat) : Bool := eflags.testBit 6

/-- `iret`: `esp` and `ss` are popped only on a return to a less privileged level. -/
def Machine.iret (m : Machine) : Machine :=
  let esp := m.reg .esp
  let cs := read16 m.mem (u32 (esp + 4))
  let returned := { m with
    eip := read32 m.mem esp
    eflags := read32 m.mem (u32 (esp + 8))
    seg := Function.update m.seg .cs cs }
  if m.seg .cs % 4 < cs % 4 then
    let ss := read16 m.mem (u32 (esp + 16))
    { returned.setReg .esp (read32 m.mem (u32 (esp + 12))) with
      seg := Function.update returned.seg .ss ss }
  else returned.setReg .esp (u32 (esp + 12))

def step (m : Machine) : Instr → Machine
  | .movLoad dst base disp => m.setReg dst (read32 m.mem (m.operand base disp))
  | .movStore base disp src => { m with mem := write32 m.mem (m.operand base disp) (m.reg src) }
  | .movStoreSeg base disp src =>
    { m with mem := write16 m.mem (m.operand base disp) (m.seg src) }
  | .movLoadSeg dst base disp =>
    { m with seg := Function.update m.seg dst (read16 m.mem (m.operand base disp)) }
  | .movCr3 src => { m with cr3 := m.reg src }
  | .test a b => { m with eflags := logicFlags m.eflags (m.reg a &&& m.reg b) }
  | .jz _ => m
  | .pushMem base disp => m.push (read32 m.mem (m.operand base disp))
  | .pushfd => m.push m.eflags
  | .pop dst => (m.setReg .esp (u32 (m.reg .esp + 4))).setReg dst (read32 m.mem (m.reg .esp))
  | .pusha => m.pusha
  | .popa => m.popa
  | .movAl imm => m.setReg .eax (m.reg .eax / 256 * 256 + imm % 256)
  | .outAl _ => m
  | .iret => m.iret

/-- Run the code after passing over its first `skip` instructions. -/
def exec : Nat → List Instr → Machine → Machine
  | _, [], m => m
  | skip + 1, _ :: code, m => exec skip code m
  | 0, .jz n :: code, m => exec (if zeroFlag m.eflags then n else 0) code m
  | 0, i :: code, m => exec 0 code (step m i)

/-- The code runs from its first to its last instruction. -/
def Instr.straight : Instr → Bool
  | .jz _ => false
  | _ => true

/-! ## Running code in parts -/

theorem exec_straight {block : List Instr} (h : ∀ i ∈ block, i.straight = true)
    (code : List Instr) (m : Machine) :
    exec 0 (block ++ code) m = exec 0 code (block.foldl step m) := by
  induction block generalizing m with
  | nil => rfl
  | cons i block ih =>
    have hrest := ih (fun j hj => h j (List.mem_cons_of_mem _ hj)) (step m i)
    have hi := h i List.mem_cons_self
    cases i with
    | jz n => cases hi
    | _ => exact hrest

/-! ## What code leaves alone -/

/-- The instruction neither stores to memory nor moves the stack pointer. -/
def Instr.quiet : Instr → Bool
  | .movLoad dst _ _ => dst != .esp
  | .movLoadSeg _ _ _ => true
  | .movCr3 _ => true
  | .test _ _ => true
  | _ => false

theorem step_quiet {m : Machine} {i : Instr} (h : i.quiet = true) :
    (step m i).mem = m.mem ∧ (step m i).reg .esp = m.reg .esp := by
  cases i with
  | movLoad dst base disp =>
    have hne : Reg.esp ≠ dst := by
      intro he
      rw [← he] at h
      cases h
    exact ⟨rfl, Function.update_of_ne hne _ _⟩
  | movLoadSeg dst base disp => exact ⟨rfl, rfl⟩
  | movCr3 src => exact ⟨rfl, rfl⟩
  | test a b => exact ⟨rfl, rfl⟩
  | _ => cases h

theorem foldl_quiet {block : List Instr} (h : ∀ i ∈ block, i.quiet = true) (m : Machine) :
    (block.foldl step m).mem = m.mem ∧ (block.foldl step m).reg .esp = m.reg .esp := by
  induction block generalizing m with
  | nil => exact ⟨rfl, rfl⟩
  | cons i block ih =>
    obtain ⟨hmem, hesp⟩ := ih (fun j hj => h j (List.mem_cons_of_mem _ hj)) (step m i)
    obtain ⟨hmem', hesp'⟩ := step_quiet (m := m) (h i List.mem_cons_self)
    exact ⟨hmem.trans hmem', hesp.trans hesp'⟩

/-- Pushes write below the stack pointer, one word each. -/
theorem foldl_pushMem {ops : List (Reg × Nat)} {m : Machine} (hesp : m.reg .esp < 2 ^ 32)
    (hroom : 4 * ops.length ≤ m.reg .esp) {x : Nat}
    (hx : x < m.reg .esp - 4 * ops.length ∨ m.reg .esp ≤ x) :
    ((ops.map fun op => Instr.pushMem op.1 op.2).foldl step m).mem x = m.mem x := by
  induction ops generalizing m with
  | nil => rfl
  | cons op ops ih =>
    rw [List.length_cons] at hroom hx
    have hpush : (step m (.pushMem op.1 op.2)).reg .esp = m.reg .esp - 4 :=
      sub32_of_le hesp (by omega)
    have hrest := ih (m := step m (.pushMem op.1 op.2)) (by omega) (by omega) (by omega)
    refine hrest.trans (writeLE_frame ?_)
    rw [sub32_of_le hesp (by omega)]
    omega

/-! ## Stores to the fields of a record -/

/-- The registers go to the fields at these offsets of the record at `a`. -/
def storeRegs (reg : Reg → Nat) (a : Nat) (fields : List (Nat × Reg)) (mem : Mem) : Mem :=
  fields.foldl (fun mem op => write32 mem (a + op.1) (reg op.2)) mem

def storeSegs (seg : SegReg → Nat) (a : Nat) (fields : List (Nat × SegReg)) (mem : Mem) : Mem :=
  fields.foldl (fun mem op => write16 mem (a + op.1) (seg op.2)) mem

section Stores
variable {base : Reg} {m : Machine} {a : Nat}

theorem foldl_movStore {ops : List (Nat × Reg)} (ha : m.reg base = a)
    (hfit : ∀ op ∈ ops, a + op.1 < 2 ^ 32) :
    (ops.map fun op => Instr.movStore base op.1 op.2).foldl step m =
      { m with mem := storeRegs m.reg a ops m.mem } := by
  induction ops generalizing m with
  | nil => rfl
  | cons op ops ih =>
    obtain ⟨hop, hops⟩ := List.forall_mem_cons.mp hfit
    have hstep : step m (.movStore base op.1 op.2) =
        { m with mem := write32 m.mem (a + op.1) (m.reg op.2) } := by
      rw [step, Machine.operand, ha, u32_of_lt hop]
    rw [List.map_cons, List.foldl_cons, hstep]
    exact @ih { m with mem := write32 m.mem (a + op.1) (m.reg op.2) } ha hops

theorem foldl_movStoreSeg {ops : List (Nat × SegReg)} (ha : m.reg base = a)
    (hfit : ∀ op ∈ ops, a + op.1 < 2 ^ 32) :
    (ops.map fun op => Instr.movStoreSeg base op.1 op.2).foldl step m =
      { m with mem := storeSegs m.seg a ops m.mem } := by
  induction ops generalizing m with
  | nil => rfl
  | cons op ops ih =>
    obtain ⟨hop, hops⟩ := List.forall_mem_cons.mp hfit
    have hstep : step m (.movStoreSeg base op.1 op.2) =
        { m with mem := write16 m.mem (a + op.1) (m.seg op.2) } := by
      rw [step, Machine.operand, ha, u32_of_lt hop]
    rw [List.map_cons, List.foldl_cons, hstep]
    exact @ih { m with mem := write16 m.mem (a + op.1) (m.seg op.2) } ha hops

end Stores

theorem iret_mem (m : Machine) : m.iret.mem = m.mem := by
  simp only [Machine.iret, Machine.setReg]
  split <;> rfl

theorem zeroFlag_logicFlags (eflags v : Nat) : zeroFlag (logicFlags eflags v) = decide (v = 0) := by
  have hmask : (0xFFFFF73A : Nat).testBit 6 = false := by decide
  have hpf : (if evenParity v then 0x4 else 0 : Nat).testBit 6 = false := by split <;> decide
  have hsf : (if v.testBit 31 then 0x80 else 0 : Nat).testBit 6 = false := by split <;> decide
  have hzf : (if v = 0 then 0x40 else 0 : Nat).testBit 6 = decide (v = 0) := by
    by_cases hv : v = 0 <;> simp [hv]
    decide
  simp only [zeroFlag, logicFlags, Nat.testBit_or, Nat.testBit_and, hmask, hpf, hsf, hzf,
    Bool.and_false, Bool.false_or, Bool.or_false]

end SynapseKernel.X86
