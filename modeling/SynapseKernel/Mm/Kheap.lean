import SynapseKernel.Lib.ByteMemory
import SynapseKernel.Lib.Word

/-! # The kernel heap (kernel/mm/kheap.c)

The heap is a doubly linked list of blocks threaded through a byte memory. A
block begins with a 16-byte `heap_block_t`: `size` at offset 0, `next` at 4,
`prev` at 8 and the one-byte `is_free` at 12. Every field is read from and
written to the memory in the order of the source, so headers that overlap
behave as they do in the machine. -/
namespace SynapseKernel.Kheap
open SynapseKernel.Word SynapseKernel.ByteMemory

abbrev kheapStart : Nat := 0xC0000000
abbrev kheapSize : Nat := 0x1000000

/-- `sizeof(heap_block_t)` on the 32-bit target. -/
abbrev headerSize : Nat := 16

/-- `heap_block_t`. -/
structure Header where
  size : Nat
  next : Nat
  prev : Nat
  isFree : Bool
deriving DecidableEq, Repr

def header (m : Mem) (b : Nat) : Header :=
  ⟨read32 m b, read32 m (b + 4), read32 m (b + 8), read8 m (b + 12) != 0⟩

def setSize (m : Mem) (b v : Nat) : Mem := write32 m b v
def setNext (m : Mem) (b v : Nat) : Mem := write32 m (b + 4) v
def setPrev (m : Mem) (b v : Nat) : Mem := write32 m (b + 8) v
def setIsFree (m : Mem) (b : Nat) (f : Bool) : Mem := write8 m (b + 12) f.toNat

/-- `kheap_t`, with the memory the blocks live in. -/
structure Heap where
  mem : Mem
  freeList : Nat
  start : Nat
  endAddr : Nat
  totalSize : Nat
  usedSize : Nat

def initKheap (m : Mem) : Heap :=
  let m := setSize m kheapStart kheapSize
  let m := setNext m kheapStart 0
  let m := setPrev m kheapStart 0
  let m := setIsFree m kheapStart true
  { mem := m, freeList := kheapStart, start := kheapStart, endAddr := kheapStart + kheapSize,
    totalSize := kheapSize, usedSize := 0 }

/-- `(size + 7) & ~7`. -/
def alignSize (size : Nat) : Nat := u32 (size + 7) &&& 0xFFFFFFF8

/-- The first-fit walk from `current`: `some 0` is the `NULL` the source
returns at the end of the list, `none` a walk that goes on after `fuel` steps. -/
def findFreeBlock (m : Mem) (size : Nat) : Nat → Nat → Option Nat
  | 0, _ => none
  | fuel + 1, current =>
    if current = 0 then some 0
    else if (header m current).isFree ∧ size ≤ (header m current).size then some current
    else findFreeBlock m size fuel (header m current).next

def splitBlock (m : Mem) (block size : Nat) : Mem :=
  if sub32 (header m block).size size < headerSize + 8 then m
  else
    let newBlock := u32 (block + size)
    let m := setSize m newBlock (sub32 (header m block).size size)
    let m := setIsFree m newBlock true
    let m := setNext m newBlock (header m block).next
    let m := setPrev m newBlock block
    let m := if (header m block).next ≠ 0 then setPrev m (header m block).next newBlock else m
    let m := setNext m block newBlock
    setSize m block size

/-- The first half of `merge_blocks`: absorb the next block when it is free. -/
def mergeNext (m : Mem) (block : Nat) : Mem :=
  if (header m block).next ≠ 0 ∧ (header m (header m block).next).isFree then
    let m := setSize m block (u32 ((header m block).size + (header m (header m block).next).size))
    let m := setNext m block (header m (header m block).next).next
    if (header m block).next ≠ 0 then setPrev m (header m block).next block else m
  else m

/-- The second half of `merge_blocks`: let the previous block absorb this one. -/
def mergePrev (m : Mem) (block : Nat) : Mem :=
  if (header m block).prev ≠ 0 ∧ (header m (header m block).prev).isFree then
    let m := setSize m (header m block).prev
      (u32 ((header m (header m block).prev).size + (header m block).size))
    let m := setNext m (header m block).prev (header m block).next
    if (header m block).next ≠ 0 then setPrev m (header m block).next (header m block).prev else m
  else m

def mergeBlocks (m : Mem) (block : Nat) : Mem := mergePrev (mergeNext m block) block

/-- The walk visits pairwise distinct addresses or never ends, so as many steps
as there are addresses tell the two apart. -/
abbrev walkFuel : Nat := 2 ^ 32

/-- `kmalloc`: the pointer (0 is `NULL`) and the new heap, `none` when the
search of the block list never ends. -/
def kmalloc (h : Heap) (size : Nat) : Option (Nat × Heap) :=
  if size = 0 then some (0, h)
  else
    let actualSize := u32 (alignSize size + headerSize)
    (findFreeBlock h.mem actualSize walkFuel h.freeList).map fun block =>
      if block = 0 then (0, h)
      else
        let m := splitBlock h.mem block actualSize
        let m := setIsFree m block false
        (u32 (block + headerSize), { h with mem := m, usedSize := u32 (h.usedSize + actualSize) })

def kfree (h : Heap) (ptr : Nat) : Heap :=
  if ptr = 0 then h
  else
    let block := sub32 ptr headerSize
    if (header h.mem block).isFree then h
    else
      let m := setIsFree h.mem block true
      let used := sub32 h.usedSize (header m block).size
      { h with mem := mergeBlocks m block, usedSize := used }

/-! ## Headers after a store to a header -/

section Stores
variable {m : Mem} {b c v : Nat} {f : Bool}

@[simp] theorem header_setSize : header (setSize m b v) b =
    { header m b with size := v % 2 ^ 32 } := by
  simp only [header, setSize, read32_write32]
  rw [read32_write32_ne (by omega), read32_write32_ne (by omega), read8_write32_ne (by omega)]

@[simp] theorem header_setNext : header (setNext m b v) b =
    { header m b with next := v % 2 ^ 32 } := by
  simp only [header, setNext, read32_write32]
  rw [read32_write32_ne (by omega), read32_write32_ne (by omega), read8_write32_ne (by omega)]

@[simp] theorem header_setPrev : header (setPrev m b v) b =
    { header m b with prev := v % 2 ^ 32 } := by
  simp only [header, setPrev, read32_write32]
  rw [read32_write32_ne (by omega), read32_write32_ne (by omega), read8_write32_ne (by omega)]

@[simp] theorem header_setIsFree : header (setIsFree m b f) b =
    { header m b with isFree := f } := by
  simp only [header, setIsFree, read8_write8]
  rw [read32_write8_ne (by omega), read32_write8_ne (by omega), read32_write8_ne (by omega)]
  cases f <;> rfl

/-- A header depends on its first thirteen bytes only. -/
theorem header_congr {m' : Mem} (h : ∀ a, b ≤ a → a < b + 13 → m' a = m a) :
    header m' b = header m b := by
  have h32 : ∀ k, k + 4 ≤ 13 → read32 m' (b + k) = read32 m (b + k) := fun k hk =>
    readLE_congr fun a ha ha' => h a (by omega) (by omega)
  have h8 : read8 m' (b + 12) = read8 m (b + 12) :=
    readLE_congr fun a ha ha' => h a (by omega) (by omega)
  have h0 := h32 0 (by omega)
  simp only [Nat.add_zero] at h0
  simp only [header, h0, h32 4 (by omega), h32 8 (by omega), h8]

variable (hsep : b + 16 ≤ c ∨ c + 16 ≤ b)
include hsep

theorem header_setSize_of_apart : header (setSize m b v) c = header m c :=
  header_congr fun a _ _ => writeLE_frame (by omega)

theorem header_setNext_of_apart : header (setNext m b v) c = header m c :=
  header_congr fun a _ _ => writeLE_frame (by omega)

theorem header_setPrev_of_apart : header (setPrev m b v) c = header m c :=
  header_congr fun a _ _ => writeLE_frame (by omega)

theorem header_setIsFree_of_apart : header (setIsFree m b f) c = header m c :=
  header_congr fun a _ _ => writeLE_frame (by omega)

end Stores

end SynapseKernel.Kheap
