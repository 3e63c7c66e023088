import SynapseKernel.Lib.ByteMemory

/-! # Interrupt gates

Where the processor finds the gate of a vector: in 32-bit mode eight bytes for each, in
64-bit mode sixteen, the first eight of them laid out alike. -/
namespace SynapseKernel.Gates
open SynapseKernel.ByteMemory

structure GateDescriptor where
  offset : Nat
  selector : Nat
  attr : Nat

/-- An interrupt through a gate that is not present is a fault. -/
def GateDescriptor.Present (g : GateDescriptor) : Prop := g.attr / 2 ^ 7 % 2 = 1

instance (g : GateDescriptor) : Decidable g.Present :=
  inferInstanceAs (Decidable (g.attr / 2 ^ 7 % 2 = 1))

def gateAt32 (m : Mem) (a : Nat) : GateDescriptor where
  offset := read16 m a + 2 ^ 16 * read16 m (a + 6)
  selector := read16 m (a + 2)
  attr := read8 m (a + 5)

def gateAt64 (m : Mem) (a : Nat) : GateDescriptor where
  offset := read16 m a + 2 ^ 16 * read16 m (a + 6) + 2 ^ 32 * read32 m (a + 8)
  selector := read16 m (a + 2)
  attr := read8 m (a + 5)

/-- The gate of a vector in the table that begins at `table`. -/
def gate32 (m : Mem) (table v : Nat) : GateDescriptor := gateAt32 m (table + 8 * v)

def gate64 (m : Mem) (table v : Nat) : GateDescriptor := gateAt64 m (table + 16 * v)

/-- A gate of 32-bit mode of which the high word is zero is not present. -/
theorem not_present_of_read32 {m : Mem} {a : Nat} (h : read32 m (a + 4) = 0) :
    ¬ (gateAt32 m a).Present := by
  have hattr : read8 m (a + 5) = 0 := by
    simp only [read32, read8, readLE, Nat.add_assoc, Nat.reduceAdd] at h ⊢
    omega
  rw [GateDescriptor.Present]
  change ¬ read8 m (a + 5) / 2 ^ 7 % 2 = 1
  rw [hattr]
  decide

end SynapseKernel.Gates
