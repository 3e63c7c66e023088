import SynapseKernel.Lib.Blocks
import SynapseKernel.Lib.Runs
import SynapseKernel.Mm.BlockHeap

/-! # Files and descriptors of tmpfs (kernel/fs/tmpfs.c)

`read`, `write` and `lseek` on a descriptor, and the functions on inodes below
them. Sizes, offsets and counts are 32-bit words, and so are the sums of them. A
`memcpy` to or from the data of a file is kept as the `Span` of the block that it
goes through. -/
namespace SynapseKernel.Fs
open SynapseKernel.Word SynapseKernel.Kheap SynapseKernel.Blocks

abbrev maxFiles : Int := 64
abbrev ftRegular : Nat := 1

/-- `inode_t`, as far as files use it. -/
structure TmpfsInode where
  size : Nat
  type : Nat
  mtime : Nat
  data : Nat

/-- `file_descriptor_t`. -/
structure FileDescriptor where
  used : Bool
  inode : Nat
  offset : Nat

/-- The table of descriptors, the inodes and the heap with what is in its blocks. -/
structure Tmpfs where
  heap : BlockHeap
  inodes : Nat → TmpfsInode
  fileDescriptors : Nat → FileDescriptor
  bytes : Nat → Nat → UInt8

/-- The bytes that a `memcpy` goes through in a block. -/
structure Span where
  block : Nat
  offset : Nat
  count : Nat

def Tmpfs.get (s : Tmpfs) (span : Span) : List UInt8 :=
  slice (s.bytes span.block) span.offset span.count

def Span.Covers (span : Span) (block k : Nat) : Prop :=
  span.block = block ∧ span.offset ≤ k ∧ k < span.offset + span.count

/-- Only the first `capacity` bytes of the block are in the span. -/
def Span.Inside (span : Span) (block capacity : Nat) : Prop :=
  span.block = block ∧ ∀ k, span.Covers block k → k < capacity

theorem Span.inside_iff {block at_ count capacity : Nat} :
    (Span.mk block at_ count).Inside block capacity ↔ count = 0 ∨ at_ + count ≤ capacity := by
  constructor
  · intro h
    by_contra hno
    have hlast := h.2 (at_ + count - 1) ⟨rfl, by simp only; omega, by simp only; omega⟩
    omega
  · rintro h
    refine ⟨rfl, fun k hk => ?_⟩
    have hk' : at_ ≤ k ∧ k < at_ + count := hk.2
    omega

/-- `memcpy(block + offset, buf, n)`. -/
def Tmpfs.put (s : Tmpfs) (block offset : Nat) (buf : List UInt8) : Tmpfs :=
  { s with bytes := Function.update s.bytes block (overwrite (s.bytes block) offset buf) }

def Tmpfs.setInode (s : Tmpfs) (inode : Nat) (f : TmpfsInode → TmpfsInode) : Tmpfs :=
  { s with inodes := Function.update s.inodes inode (f (s.inodes inode)) }

def Tmpfs.setOffset (s : Tmpfs) (fd : Int) (offset : Nat) : Tmpfs :=
  { s with
    fileDescriptors := Function.update s.fileDescriptors fd.toNat
      { s.fileDescriptors fd.toNat with offset := offset } }

/-- The result, and what is copied to the caller. -/
def tmpfsRead (s : Tmpfs) (inode count offset : Nat) : Int × List Span :=
  if inode = 0 ∨ (s.inodes inode).type ≠ ftRegular then (-1, [])
  else if (s.inodes inode).size ≤ offset then (0, [])
  else
    let readSize :=
      if (s.inodes inode).size < u32 (offset + count) then (s.inodes inode).size - offset
      else count
    (s32 readSize, [⟨(s.inodes inode).data, offset, readSize⟩])

/-- Room for `newSize` bytes, with the spans that the copy to it writes; `none` is
a refusal. -/
def growFile (s : Tmpfs) (inode newSize : Nat) : Option (List Span) × Tmpfs :=
  if (s.inodes inode).size < newSize then
    let (newData, heap) := s.heap.kmalloc newSize
    let s := { s with heap := heap }
    if newData = 0 then (none, s)
    else
      let old := s.inodes inode
      let (spans, s) :=
        if old.data ≠ 0 then
          let s := s.put newData 0 (s.get ⟨old.data, 0, old.size⟩)
          ([⟨newData, 0, old.size⟩], { s with heap := s.heap.kfree old.data })
        else ([], s)
      (some spans, s.setInode inode fun i => { i with data := newData, size := newSize })
  else (some [], s)

/-- The result, the spans that are written and the next state. -/
def tmpfsWrite (s : Tmpfs) (inode : Nat) (buf : List UInt8) (offset : Nat) :
    Int × List Span × Tmpfs :=
  if inode = 0 ∨ (s.inodes inode).type ≠ ftRegular then (-1, [], s)
  else
    match growFile s inode (u32 (offset + buf.length)) with
    | (none, s) => (-1, [], s)
    | (some spans, s) =>
      let data := (s.inodes inode).data
      (s32 buf.length, spans ++ [⟨data, offset, buf.length⟩],
        (s.put data offset buf).setInode inode fun i => { i with mtime := 0 })

/-- The number names a descriptor in use. -/
def IsOpen (s : Tmpfs) (fd : Int) : Prop :=
  0 ≤ fd ∧ fd < maxFiles ∧ (s.fileDescriptors fd.toNat).used

instance (s : Tmpfs) (fd : Int) : Decidable (IsOpen s fd) := inferInstanceAs (Decidable (_ ∧ _))

/-- The offset moves on by a result above zero. -/
def advance (s : Tmpfs) (fd result : Int) : Tmpfs :=
  if 0 < result then
    s.setOffset fd (u32 ((s.fileDescriptors fd.toNat).offset + result.toNat))
  else s

def read (s : Tmpfs) (fd : Int) (count : Nat) : Int × List UInt8 × Tmpfs :=
  if IsOpen s fd then
    let entry := s.fileDescriptors fd.toNat
    let (result, spans) := tmpfsRead s entry.inode count entry.offset
    (result, spans.flatMap s.get, advance s fd result)
  else (-1, [], s)

def write (s : Tmpfs) (fd : Int) (buf : List UInt8) : Int × Tmpfs :=
  if IsOpen s fd then
    let entry := s.fileDescriptors fd.toNat
    let (result, _, s) := tmpfsWrite s entry.inode buf entry.offset
    (result, advance s fd result)
  else (-1, s)

/-- The word that stands for a number, as in a conversion to `uint32_t`. -/
def toWord (n : Int) : Nat := (n % 2 ^ 32).toNat

def lseek (s : Tmpfs) (fd offset : Int) (whence : Int) : Int × Tmpfs :=
  if IsOpen s fd then
    let entry := s.fileDescriptors fd.toNat
    let seek (target : Nat) := (s32 target, s.setOffset fd target)
    if whence = 0 then seek (toWord offset)
    else if whence = 1 then seek (u32 (entry.offset + toWord offset))
    else if whence = 2 then seek (u32 ((s.inodes entry.inode).size + toWord offset))
    else (-1, s)
  else (-1, s)

/-- What is asked of a descriptor. -/
inductive TmpfsOp
  | lseek (offset whence : Int)
  | read (count : Nat)
  | write (buf : List UInt8)

/-- Counts are 32-bit words. -/
def TmpfsOp.Word : TmpfsOp → Prop
  | .lseek _ _ => True
  | .read count => count < 2 ^ 32
  | .write buf => buf.length < 2 ^ 32

/-- The result, what is delivered to the caller and the next state. -/
def tmpfsStep (fd : Int) (s : Tmpfs) : TmpfsOp → Int × List UInt8 × Tmpfs
  | .lseek offset whence =>
    let (result, s) := lseek s fd offset whence
    (result, [], s)
  | .read count => read s fd count
  | .write buf =>
    let (result, s) := write s fd buf
    (result, [], s)

abbrev tmpfsNext (fd : Int) (s : Tmpfs) (op : TmpfsOp) : Tmpfs := (tmpfsStep fd s op).2.2

/-- The inode of a descriptor. -/
abbrev Tmpfs.file (s : Tmpfs) (fd : Int) : Nat := (s.fileDescriptors fd.toNat).inode

abbrev Tmpfs.offset (s : Tmpfs) (fd : Int) : Nat := (s.fileDescriptors fd.toNat).offset

/-- The descriptor is in use for a regular file. -/
structure OpenFile (s : Tmpfs) (fd : Int) : Prop where
  isOpen : IsOpen s fd
  inode : s.file fd ≠ 0
  regular : (s.inodes (s.file fd)).type = ftRegular
  size : (s.inodes (s.file fd)).size < 2 ^ 32
  offset : s.offset fd < 2 ^ 32

variable {s s' : Tmpfs} {fd : Int} {inode newSize : Nat}

/-- A write leaves the size and the data of every inode as growth left them. -/
theorem Tmpfs.inodes_stored (s : Tmpfs) (data offset : Nat) (buf : List UInt8) (inode j : Nat) :
    ((s.put data offset buf).setInode inode fun i => { i with mtime := 0 }).inodes j =
      { s.inodes j with mtime := if j = inode then 0 else (s.inodes j).mtime } := by
  simp only [setInode, put, Function.update_apply]
  by_cases hj : j = inode
  · simp only [hj, if_true]
  · simp only [if_neg hj]

/-- The data of a file are in a block just handed out. -/
structure Regrown (s s' : Tmpfs) (inode newSize : Nat) (spans : List Span) : Prop where
  inodes : s'.inodes = Function.update s.inodes inode
    { s.inodes inode with data := s.heap.requests + 1, size := newSize }
  fileDescriptors : s'.fileDescriptors = s.fileDescriptors
  spans : spans =
    if (s.inodes inode).data ≠ 0 then [⟨s.heap.requests + 1, 0, (s.inodes inode).size⟩] else []
  bytes : (s.inodes inode).data ≠ 0 → ∀ k < (s.inodes inode).size,
    s'.bytes (s.heap.requests + 1) k = s.bytes (s.inodes inode).data k

/-- Growth moves the data to a new block, of which it fills in the old bytes. -/
theorem growFile_moves (hsize : (s.inodes inode).size < newSize)
    (hg : s.heap.grants s.heap.requests = true) :
    ∃ spans s', growFile s inode newSize = (some spans, s') ∧
      s'.inodes = Function.update s.inodes inode
        { s.inodes inode with data := s.heap.requests + 1, size := newSize } ∧
      s'.fileDescriptors = s.fileDescriptors ∧ s'.heap.requests = s.heap.requests + 1 ∧
      (s'.bytes = Function.update s.bytes (s.heap.requests + 1) fun k =>
        if (s.inodes inode).data ≠ 0 ∧ k < (s.inodes inode).size then s.bytes (s.inodes inode).data k
        else s.bytes (s.heap.requests + 1) k) ∧
      spans = if (s.inodes inode).data ≠ 0 then [⟨s.heap.requests + 1, 0, (s.inodes inode).size⟩]
        else [] := by
  have hpos : newSize ≠ 0 := Nat.ne_zero_of_lt hsize
  have hnew := BlockHeap.kmalloc_granted hg newSize hpos
  have hrequests := @BlockHeap.requests_kmalloc s.heap newSize hpos
  have hcopy := copy_block s.bytes ((s.inodes inode).data ≠ 0) (s.inodes inode).data
    (s.heap.requests + 1) (s.inodes inode).size
  rw [growFile, if_pos hsize]
  simp only [hnew, if_neg (Nat.succ_ne_zero _)]
  by_cases h0 : (s.inodes inode).data ≠ 0
  · rw [if_pos h0] at hcopy
    simp only [if_pos h0]
    exact ⟨_, _, rfl, rfl, rfl, hrequests, hcopy, rfl⟩
  · rw [if_neg h0] at hcopy
    simp only [if_neg h0]
    exact ⟨_, _, rfl, rfl, rfl, hrequests, hcopy, rfl⟩

/-- **Room for the new size** is there, is refused or is found in a new block. -/
theorem growFile_cases (s : Tmpfs) (inode newSize : Nat) :
    (newSize ≤ (s.inodes inode).size ∧ growFile s inode newSize = (some [], s)) ∨
    ((s.inodes inode).size < newSize ∧ s.heap.grants s.heap.requests = false ∧
      growFile s inode newSize = (none, { s with heap := (s.heap.kmalloc newSize).2 })) ∨
    ((s.inodes inode).size < newSize ∧ s.heap.grants s.heap.requests = true ∧
      ∃ spans s', growFile s inode newSize = (some spans, s') ∧
        Regrown s s' inode newSize spans) := by
  by_cases hsize : (s.inodes inode).size < newSize
  · rcases s.heap.kmalloc_cases newSize (Nat.ne_zero_of_lt hsize) with ⟨hg, h0⟩ | ⟨hg, -⟩
    · rw [growFile, if_pos hsize]
      exact .inr (.inl ⟨hsize, hg, if_pos h0⟩)
    · obtain ⟨spans, s', hgrow, hinodes, hfd, -, hbytes, hspans⟩ := growFile_moves hsize hg
      refine .inr (.inr ⟨hsize, hg, spans, s', hgrow, hinodes, hfd, hspans, fun h0 k hk => ?_⟩)
      rw [hbytes, Function.update_self, if_pos ⟨h0, hk⟩]
  · exact .inl ⟨Nat.le_of_not_lt hsize, if_neg hsize⟩

theorem tmpfsStep_write (s : Tmpfs) (fd : Int) (buf : List UInt8) :
    tmpfsStep fd s (.write buf) =
      if IsOpen s fd then
        let w := tmpfsWrite s (s.file fd) buf (s.offset fd)
        (w.1, [], advance w.2.2 fd w.1)
      else (-1, [], s) := by
  rw [tmpfsStep, write]
  by_cases hopen : IsOpen s fd
  · rw [if_pos hopen, if_pos hopen]
  · rw [if_neg hopen, if_neg hopen]

theorem toWord_lt (n : Int) : toWord n < 2 ^ 32 := by
  rw [toWord]
  omega

/-- A seek is refused or moves the offset to a word. -/
theorem lseek_cases (s : Tmpfs) (fd offset whence : Int) :
    (lseek s fd offset whence).2 = s ∨
      ∃ target < 2 ^ 32, (lseek s fd offset whence).2 = s.setOffset fd target := by
  rw [lseek]
  by_cases hopen : IsOpen s fd
  · rw [if_pos hopen]
    by_cases h0 : whence = 0
    · simp only [if_pos h0]
      exact .inr ⟨_, toWord_lt offset, rfl⟩
    by_cases h1 : whence = 1
    · simp only [if_neg h0, if_pos h1]
      exact .inr ⟨_, u32_lt _, rfl⟩
    by_cases h2 : whence = 2
    · simp only [if_neg h0, if_neg h1, if_pos h2]
      exact .inr ⟨_, u32_lt _, rfl⟩
    · simp only [if_neg h0, if_neg h1, if_neg h2]
      exact .inl trivial
  · rw [if_neg hopen]
    exact .inl rfl

/-! ## What a step keeps -/

/-- A step moves the offset and may give the file another size and data. -/
structure Kept (s s' : Tmpfs) (fd : Int) : Prop where
  isOpen : IsOpen s' fd ↔ IsOpen s fd
  file : s'.file fd = s.file fd
  type : ∀ j, (s'.inodes j).type = (s.inodes j).type

theorem Kept.refl (s : Tmpfs) (fd : Int) : Kept s s fd := ⟨Iff.rfl, rfl, fun _ => rfl⟩

theorem Kept.trans {s'' : Tmpfs} (h : Kept s s' fd) (h' : Kept s' s'' fd) : Kept s s'' fd :=
  ⟨h'.isOpen.trans h.isOpen, h'.file.trans h.file, fun j => (h'.type j).trans (h.type j)⟩

theorem Kept.of_descriptors (hf : s'.fileDescriptors = s.fileDescriptors)
    (ht : ∀ j, (s'.inodes j).type = (s.inodes j).type) : Kept s s' fd := by
  refine ⟨?_, ?_, ht⟩
  · rw [IsOpen, IsOpen, hf]
  · rw [Tmpfs.file, hf]

theorem kept_setOffset (s : Tmpfs) (fd : Int) (target : Nat) : Kept s (s.setOffset fd target) fd ∧
    (s.setOffset fd target).offset fd = target := by
  have hfd : (s.setOffset fd target).fileDescriptors fd.toNat =
      { s.fileDescriptors fd.toNat with offset := target } := Function.update_self _ _ _
  refine ⟨⟨?_, ?_, fun _ => rfl⟩, ?_⟩
  · rw [IsOpen, IsOpen, hfd]
  · rw [Tmpfs.file, hfd]
  · rw [Tmpfs.offset, hfd]

theorem OpenFile.not_refused (h : OpenFile s fd) :
    ¬ (s.file fd = 0 ∨ (s.inodes (s.file fd)).type ≠ ftRegular) :=
  not_or.mpr ⟨h.inode, not_not.mpr h.regular⟩

theorem OpenFile.of_kept (h : OpenFile s fd) (hk : Kept s s' fd)
    (hsize : (s'.inodes (s.file fd)).size < 2 ^ 32) (hoffset : s'.offset fd < 2 ^ 32) :
    OpenFile s' fd := by
  refine ⟨hk.isOpen.mpr h.isOpen, ?_, ?_, ?_, hoffset⟩ <;> rw [hk.file]
  · exact h.inode
  · exact (hk.type _).trans h.regular
  · exact hsize

theorem tmpfsWrite_kept (h : OpenFile s fd) (buf : List UInt8) :
    let s' := (tmpfsWrite s (s.file fd) buf (s.offset fd)).2.2
    Kept s s' fd ∧ (s'.inodes (s.file fd)).size < 2 ^ 32 ∧
      s'.fileDescriptors = s.fileDescriptors := by
  have hsize := h.size
  rw [tmpfsWrite, if_neg h.not_refused]
  rcases growFile_cases s (s.file fd) (u32 (s.offset fd + buf.length)) with
    ⟨-, hgrow⟩ | ⟨-, -, hgrow⟩ | ⟨-, -, spans, s', hgrow, hre⟩
  · simp only [hgrow]
    refine ⟨.of_descriptors rfl fun j => ?_, ?_, rfl⟩ <;> rw [Tmpfs.inodes_stored]
    exact hsize
  · simp only [hgrow]
    exact ⟨.of_descriptors rfl fun _ => rfl, hsize, trivial⟩
  · simp only [hgrow]
    refine ⟨.of_descriptors hre.fileDescriptors fun j => ?_, ?_, hre.fileDescriptors⟩ <;>
      rw [Tmpfs.inodes_stored, hre.inodes]
    · by_cases hj : j = s.file fd
      · rw [hj, Function.update_self]
      · rw [Function.update_of_ne hj]
    · rw [Function.update_self]
      exact u32_lt _

/-- A read or a write moves the offset to a word. -/
theorem OpenFile.advance (h : OpenFile s fd) (result : Int) : OpenFile (advance s fd result) fd := by
  rw [Fs.advance]
  split
  · obtain ⟨hk, hoffset⟩ := kept_setOffset s fd (u32 (s.offset fd + result.toNat))
    exact h.of_kept hk h.size (hoffset.symm ▸ u32_lt _)
  · exact h

/-- **A step** leaves the descriptor open for the regular file. -/
theorem OpenFile.step (h : OpenFile s fd) (op : TmpfsOp) : OpenFile (tmpfsNext fd s op) fd := by
  cases op with
  | lseek offset whence =>
    rw [tmpfsNext, tmpfsStep]
    rcases lseek_cases s fd offset whence with he | ⟨target, ht, he⟩ <;> rw [he]
    · exact h
    · obtain ⟨hk, hoffset⟩ := kept_setOffset s fd target
      exact h.of_kept hk h.size (hoffset.symm ▸ ht)
  | read count =>
    rw [tmpfsNext, tmpfsStep, read, if_pos h.isOpen]
    exact h.advance _
  | write buf =>
    rw [tmpfsNext, tmpfsStep, write, if_pos h.isOpen]
    obtain ⟨hk, hsize, hfd⟩ := tmpfsWrite_kept h buf
    have hoffset := h.offset
    refine OpenFile.advance (h.of_kept hk hsize ?_) _
    rwa [Tmpfs.offset, hfd]

end SynapseKernel.Fs
