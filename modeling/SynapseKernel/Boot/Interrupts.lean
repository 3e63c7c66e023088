import Mathlib.Logic.Function.Basic
import SynapseKernel.Lib.Gates
import SynapseKernel.Lib.Word

/-! # The interrupt table (lib/interrupts.c)

An `idt_entry_t` is a gate of 64-bit mode. Read in this mode, the table gives for every vector
the gate that was set last (`idt_gates`). The kernel runs in 32-bit mode, in which the gate
that is set for a vector is found at twice the vector, and only half of the vectors have one
(`irq_vectors`). -/
namespace SynapseKernel.Interrupts
open SynapseKernel.Word SynapseKernel.ByteMemory SynapseKernel.Gates

abbrev idtEntries : Nat := 256
abbrev idtEntrySize : Nat := 16

/-- The arguments of `idt_set_gate` behind the number. -/
structure GateArgs where
  base : UInt64
  sel : UInt16
  flags : UInt8

structure GateCall extends GateArgs where
  num : UInt8

/-- The stores to `idt[num]`, the table being at `idt`. -/
def idtSetGate (idt : Nat) (m : Mem) (call : GateCall) : Mem :=
  let a := idt + idtEntrySize * call.num.toNat
  let base := call.base.toNat
  let m := write16 m a (base &&& 0xFFFF)
  let m := write16 m (a + 6) (base >>> 16 &&& 0xFFFF)
  let m := write32 m (a + 8) (base >>> 32 &&& 0xFFFFFFFF)
  let m := write16 m (a + 2) call.sel.toNat
  let m := write8 m (a + 4) 0
  let m := write8 m (a + 5) call.flags.toNat
  write32 m (a + 12) 0

def setGates (idt : Nat) (m : Mem) (calls : List GateCall) : Mem := calls.foldl (idtSetGate idt) m

def noGate : GateArgs := ⟨0, 0, 0⟩

def idtInit (idt : Nat) (m : Mem) : Mem :=
  setGates idt m ((List.range idtEntries).map fun i => ⟨noGate, UInt8.ofNat i⟩)

/-- `irq_install`, without `lidt` and the mask of the controller. -/
def irqInstall (idt : Nat) (m : Mem) (keyboardAddr timerAddr : UInt32) : Mem :=
  setGates idt m
    [⟨⟨keyboardAddr.toUInt64, 0x08, 0x8E⟩, 0x21⟩, ⟨⟨timerAddr.toUInt64, 0x08, 0x8E⟩, 0x20⟩]

variable {idt n : Nat} {m : Mem} {args : GateArgs} {call : GateCall} {calls : List GateCall}

/-! ## Entries -/

/-- The entry of a vector has these values. -/
structure Holds (idt : Nat) (m : Mem) (n : Nat) (args : GateArgs) : Prop where
  offsetLow : read16 m (idt + idtEntrySize * n) = args.base.toNat % 2 ^ 16
  selector : read16 m (idt + idtEntrySize * n + 2) = args.sel.toNat
  typeAttr : read8 m (idt + idtEntrySize * n + 5) = args.flags.toNat
  offsetMid : read16 m (idt + idtEntrySize * n + 6) = args.base.toNat / 2 ^ 16 % 2 ^ 16
  offsetHigh : read32 m (idt + idtEntrySize * n + 8) = args.base.toNat / 2 ^ 32
  zero : read32 m (idt + idtEntrySize * n + 12) = 0

theorem land_word (n : Nat) : n &&& 0xFFFF = n % 2 ^ 16 := Nat.and_two_pow_sub_one_eq_mod n 16

theorem land_dword (n : Nat) : n &&& 0xFFFFFFFF = n % 2 ^ 32 :=
  Nat.and_two_pow_sub_one_eq_mod n 32

theorem holds_idtSetGate (idt : Nat) (m : Mem) (call : GateCall) :
    Holds idt (idtSetGate idt m call) call.num.toNat call.toGateArgs := by
  have hbase := call.base.toNat_lt
  have hsel := call.sel.toNat_lt
  have hflags := call.flags.toNat_lt
  constructor
  all_goals
    simp (disch := omega) only [idtSetGate, read8, read16, read32, write8, write16, write32,
      readLE_writeLE_of_disjoint, readLE_writeLE, land_word, land_dword, Nat.shiftRight_eq_div_pow]
  · exact Nat.mod_mod _ _
  · exact Nat.mod_eq_of_lt hsel
  · exact Nat.mod_eq_of_lt hflags
  · exact Nat.mod_mod _ _
  · omega
  · rfl

/-- The other entries stay. -/
theorem Holds.setGate (h : Holds idt m n args) (hn : n ≠ call.num.toNat) :
    Holds idt (idtSetGate idt m call) n args := by
  have hread : ∀ k w, k + w ≤ 16 →
      readLE (idtSetGate idt m call) (idt + idtEntrySize * n + k) w =
        readLE m (idt + idtEntrySize * n + k) w := by
    intro k w hk
    rcases Nat.lt_or_gt_of_ne hn with hlt | hgt
    · have hbelow : idtEntrySize * n + 16 ≤ idtEntrySize * call.num.toNat :=
        Nat.mul_le_mul_left idtEntrySize hlt
      simp (disch := omega) only [idtSetGate, write8, write16, write32, readLE_writeLE_of_disjoint]
    · have habove : idtEntrySize * call.num.toNat + 16 ≤ idtEntrySize * n :=
        Nat.mul_le_mul_left idtEntrySize hgt
      simp (disch := omega) only [idtSetGate, write8, write16, write32, readLE_writeLE_of_disjoint]
  exact ⟨(hread 0 2 (by decide)).trans h.offsetLow, (hread 2 2 (by decide)).trans h.selector,
    (hread 5 1 (by decide)).trans h.typeAttr, (hread 6 2 (by decide)).trans h.offsetMid,
    (hread 8 4 (by decide)).trans h.offsetHigh, (hread 12 4 (by decide)).trans h.zero⟩

/-! ## Runs -/

/-- What the table is to hold after a call. -/
def setArgs (t : Nat → GateArgs) (call : GateCall) : Nat → GateArgs :=
  Function.update t call.num.toNat call.toGateArgs

def HoldsAll (idt : Nat) (m : Mem) (t : Nat → GateArgs) : Prop :=
  ∀ n < idtEntries, Holds idt m n (t n)

theorem HoldsAll.setGates {t : Nat → GateArgs} (h : HoldsAll idt m t) (calls : List GateCall) :
    HoldsAll idt (setGates idt m calls) (calls.foldl setArgs t) := by
  induction calls generalizing m t with
  | nil => exact h
  | cons call calls ih =>
    refine ih fun n hn => ?_
    by_cases hnum : n = call.num.toNat
    · subst hnum
      rw [setArgs, Function.update_self]
      exact holds_idtSetGate idt m call
    · rw [setArgs, Function.update_of_ne hnum]
      exact (h n hn).setGate hnum

/-- `idt_init` leaves no gate, whatever was there. -/
theorem holdsAll_idtInit (idt : Nat) (m : Mem) : HoldsAll idt (idtInit idt m) fun _ => noGate := by
  have hfirst : ∀ k ≤ idtEntries, ∀ n < k, Holds idt
      (setGates idt m ((List.range k).map fun i => ⟨noGate, UInt8.ofNat i⟩)) n noGate := by
    intro k hk
    induction k with
    | zero => exact fun n hn => absurd hn (Nat.not_lt_zero n)
    | succ k ih =>
      intro n hn
      have hnum : (UInt8.ofNat k).toNat = k := UInt8.toNat_ofNat_of_lt' hk
      rw [List.range_succ, List.map_append, setGates, List.foldl_append]
      rcases Nat.lt_succ_iff_lt_or_eq.mp hn with hlt | rfl
      · refine Holds.setGate (ih (Nat.le_of_succ_le hk) n hlt) ?_
        change n ≠ (UInt8.ofNat k).toNat
        exact hnum.symm ▸ Nat.ne_of_lt hlt
      · have hset := holds_idtSetGate idt
          (setGates idt m ((List.range n).map fun i => ⟨noGate, UInt8.ofNat i⟩))
          ⟨noGate, UInt8.ofNat n⟩
        rwa [hnum] at hset
  exact hfirst idtEntries (Nat.le_refl _)

/-! ## What the processor finds -/

theorem Holds.gate64_eq (h : Holds idt m n args) :
    gate64 m idt n = ⟨args.base.toNat, args.sel.toNat, args.flags.toNat⟩ := by
  have hlow := h.offsetLow
  have hmid := h.offsetMid
  have hhigh := h.offsetHigh
  have hoffset : args.base.toNat % 2 ^ 16 + 2 ^ 16 * (args.base.toNat / 2 ^ 16 % 2 ^ 16) +
      2 ^ 32 * (args.base.toNat / 2 ^ 32) = args.base.toNat := by omega
  rw [gate64, gateAt64, hlow, hmid, hhigh, h.selector, h.typeAttr, hoffset]

/-- The first half of an entry is the gate of an even vector. -/
theorem Holds.gate32_even (h : Holds idt m n args) :
    gate32 m idt (2 * n) = ⟨args.base.toNat % 2 ^ 32, args.sel.toNat, args.flags.toNat⟩ := by
  have haddr : idt + 8 * (2 * n) = idt + idtEntrySize * n := by
    rw [← Nat.mul_assoc]
  have hoffset : args.base.toNat % 2 ^ 16 + 2 ^ 16 * (args.base.toNat / 2 ^ 16 % 2 ^ 16) =
      args.base.toNat % 2 ^ 32 := by omega
  rw [gate32, haddr, gateAt32, h.offsetLow, h.offsetMid, h.selector, h.typeAttr, hoffset]

/-- The second half of it is no gate. -/
theorem Holds.gate32_odd (h : Holds idt m n args) : ¬ (gate32 m idt (2 * n + 1)).Present := by
  have haddr : idt + 8 * (2 * n + 1) = idt + idtEntrySize * n + 8 := by
    rw [Nat.mul_add, ← Nat.mul_assoc]
    rfl
  rw [gate32, haddr]
  exact not_present_of_read32 h.zero

/-- **The table** designates in 64-bit mode for every vector the gate that was set last, and in
32-bit mode for an even vector the gate that was set for half of it, and for no odd one. -/
theorem idt_gates (idt : Nat) (m : Mem) (calls : List GateCall) (n : Nat) (hn : n < idtEntries) :
    let m' := setGates idt (idtInit idt m) calls
    let args := calls.foldl setArgs (fun _ => noGate) n
    gate64 m' idt n = ⟨args.base.toNat, args.sel.toNat, args.flags.toNat⟩ ∧
      gate32 m' idt (2 * n) = ⟨args.base.toNat % 2 ^ 32, args.sel.toNat, args.flags.toNat⟩ ∧
      ¬ (gate32 m' idt (2 * n + 1)).Present := by
  have h := (holdsAll_idtInit idt m).setGates calls n hn
  exact ⟨h.gate64_eq, h.gate32_even, h.gate32_odd⟩

theorem idt_gates_timer : gate64 (setGates 0 (idtInit 0 fun _ => 7)
    [⟨⟨0x101234, 0x08, 0x8E⟩, 0x20⟩]) 0 0x20 = ⟨0x101234, 0x08, 0x8E⟩ :=
  (idt_gates 0 (fun _ => 7) [⟨⟨0x101234, 0x08, 0x8E⟩, 0x20⟩] 0x20 (by decide)).1

/-- The gates that `irq_install` sets. -/
theorem irq_args (keyboardAddr timerAddr : UInt32) (n : Nat) :
    [GateCall.mk ⟨keyboardAddr.toUInt64, 0x08, 0x8E⟩ 0x21,
      ⟨⟨timerAddr.toUInt64, 0x08, 0x8E⟩, 0x20⟩].foldl setArgs (fun _ => noGate) n =
      if n = 0x20 then ⟨timerAddr.toUInt64, 0x08, 0x8E⟩
      else if n = 0x21 then ⟨keyboardAddr.toUInt64, 0x08, 0x8E⟩ else noGate := by
  simp only [List.foldl_cons, List.foldl_nil, setArgs, Function.update_apply]
  rfl

/-- **The timer and the keyboard** have their gates at 0x40 and 0x42 for the processor in
32-bit mode, and no other vector has one, 0x20 and 0x21 included. -/
theorem irq_vectors (idt : Nat) (m : Mem) (keyboardAddr timerAddr : UInt32) (v : Nat)
    (hv : v < idtEntries) :
    let m' := irqInstall idt (idtInit idt m) keyboardAddr timerAddr
    ((gate32 m' idt v).Present ↔ v = 0x40 ∨ v = 0x42) ∧
      (v = 0x40 → gate32 m' idt v = ⟨timerAddr.toNat, 0x08, 0x8E⟩) ∧
      (v = 0x42 → gate32 m' idt v = ⟨keyboardAddr.toNat, 0x08, 0x8E⟩) := by
  have htable := (holdsAll_idtInit idt m).setGates
    [⟨⟨keyboardAddr.toUInt64, 0x08, 0x8E⟩, 0x21⟩, ⟨⟨timerAddr.toUInt64, 0x08, 0x8E⟩, 0x20⟩]
  have hhalf : v / 2 < idtEntries := Nat.lt_of_le_of_lt (Nat.div_le_self v 2) hv
  have hentry := htable (v / 2) hhalf
  rw [irq_args] at hentry
  have htimer := timerAddr.toNat_lt
  have hkeyboard := keyboardAddr.toNat_lt
  rcases Nat.even_or_odd' v with ⟨n, rfl | rfl⟩
  · rw [Nat.mul_div_cancel_left n (by decide)] at hentry
    have hgate := hentry.gate32_even
    by_cases htick : n = 0x20
    · subst htick
      rw [if_pos rfl, UInt32.toNat_toUInt64, Nat.mod_eq_of_lt htimer] at hgate
      refine ⟨iff_of_true ?_ (.inl rfl), fun _ => hgate, fun h => absurd h (by decide)⟩
      exact hgate ▸ (rfl : 0x8E / 2 ^ 7 % 2 = 1)
    · by_cases hkey : n = 0x21
      · subst hkey
        rw [if_neg htick, if_pos rfl, UInt32.toNat_toUInt64, Nat.mod_eq_of_lt hkeyboard] at hgate
        refine ⟨iff_of_true ?_ (.inr rfl), fun h => absurd h (by decide), fun _ => hgate⟩
        exact hgate ▸ (rfl : 0x8E / 2 ^ 7 % 2 = 1)
      · rw [if_neg htick, if_neg hkey] at hgate
        refine ⟨iff_of_false ?_ (by omega), by omega, by omega⟩
        exact hgate ▸ (by decide : ¬ 0 / 2 ^ 7 % 2 = 1)
  · rw [show (2 * n + 1) / 2 = n by omega] at hentry
    exact ⟨iff_of_false hentry.gate32_odd (by omega), by omega, by omega⟩

theorem irq_vectors_installed :
    (gate32 (irqInstall 0 (idtInit 0 fun _ => 7) 0x1000 0x2000) 0 0x40).Present ∧
      ¬ (gate32 (irqInstall 0 (idtInit 0 fun _ => 7) 0x1000 0x2000) 0 0x20).Present := by
  refine ⟨(irq_vectors 0 (fun _ => 7) 0x1000 0x2000 0x40 (by decide)).1.mpr (.inl rfl), fun h => ?_⟩
  exact absurd ((irq_vectors 0 (fun _ => 7) 0x1000 0x2000 0x20 (by decide)).1.mp h) (by decide)

end SynapseKernel.Interrupts
