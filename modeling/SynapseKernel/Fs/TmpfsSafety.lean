import SynapseKernel.Fs.Tmpfs

/-! # Accesses to the data of a tmpfs file

Both checks of tmpfs.c add the offset and the count as 32-bit words. The accesses
stay inside of the file exactly when these sums do not wrap and its data are no larger
than `kmalloc` can take (`accessOk_iff_noWrap`). -/
namespace SynapseKernel.Fs
open SynapseKernel.Word SynapseKernel.Kheap SynapseKernel.Blocks SynapseKernel.Runs

/-- A `memcpy` of the operation stays inside of the data of the file, after any
growth, and `read` returns no more than there is. -/
def AccessOk (fd : Int) (s : Tmpfs) : TmpfsOp → Prop
  | .lseek _ _ => True
  | .read count =>
    let inode := s.inodes (s.file fd)
    let (result, spans) := tmpfsRead s (s.file fd) count (s.offset fd)
    (∀ span ∈ spans, span.Inside inode.data (usable inode.size)) ∧
      result ≤ (inode.size - s.offset fd : Nat)
  | .write buf =>
    let (_, spans, s') := tmpfsWrite s (s.file fd) buf (s.offset fd)
    let inode := s'.inodes (s.file fd)
    ∀ span ∈ spans, span.Inside inode.data (usable inode.size)

/-- The sum of offset and count does not wrap and the data are no larger than `kmalloc`
can take, unless nothing is copied: a read of nothing or at the end, a write that a
refusal of the heap ends, or one of nothing that moves no old bytes. -/
def NoWrap (fd : Int) (s : Tmpfs) : TmpfsOp → Prop
  | .lseek _ _ => True
  | .read count =>
    (s.inodes (s.file fd)).size ≤ s.offset fd ∨ count = 0 ∨
      s.offset fd + count < 2 ^ 32 ∧ (s.inodes (s.file fd)).size ≤ maxSize
  | .write buf =>
    let inode := s.inodes (s.file fd)
    (s.offset fd + buf.length ≤ maxSize ∧ inode.size ≤ maxSize) ∨
    (inode.size < u32 (s.offset fd + buf.length) ∧ s.heap.grants s.heap.requests = false) ∨
    (buf.length = 0 ∧ (s.offset fd ≤ inode.size ∨ inode.data = 0 ∨ inode.size = 0))

variable {s : Tmpfs} {fd : Int} {op : TmpfsOp}

/-- **A read** stays inside of the file unless the sum wraps. -/
theorem OpenFile.read_iff (h : OpenFile s fd) {count : Nat} (hc : count < 2 ^ 32) :
    AccessOk fd s (.read count) ↔ NoWrap fd s (.read count) := by
  have hoffset := h.offset
  rw [AccessOk, NoWrap, tmpfsRead, if_neg h.not_refused]
  by_cases hend : (s.inodes (s.file fd)).size ≤ s.offset fd
  · rw [if_pos hend]
    exact iff_of_true ⟨fun span hm => (nomatch hm), Int.natCast_nonneg _⟩ (.inl hend)
  rw [if_neg hend, or_iff_right hend]
  have hsize := h.size
  set size := (s.inodes (s.file fd)).size
  simp only [List.forall_mem_singleton, Span.inside_iff, usable]
  by_cases hfits : s.offset fd + count < 2 ^ 32
  · have hsum : u32 (s.offset fd + count) = s.offset fd + count := u32_of_lt hfits
    have hresult : s32 (if size < u32 (s.offset fd + count) then size - s.offset fd else count) ≤
        (size - s.offset fd : Nat) := by
      rw [hsum, s32]
      split <;> split <;> omega
    rw [and_iff_left hresult, hsum]
    split <;> split <;> omega
  · -- the wrapped sum is below the size, so nothing is cut off
    have hwrap : u32 (s.offset fd + count) = s.offset fd + count - 2 ^ 32 := by
      rw [u32]
      omega
    have hcut : ¬ size < s.offset fd + count - 2 ^ 32 := by omega
    rw [hwrap, if_neg hcut]
    refine iff_of_false (fun hok => ?_) (by omega)
    have hspan := hok.1
    split at hspan <;> omega

/-- **A write** stays inside of the file unless the sum wraps. -/
theorem OpenFile.write_iff (h : OpenFile s fd) {buf : List UInt8} (hc : buf.length < 2 ^ 32) :
    AccessOk fd s (.write buf) ↔ NoWrap fd s (.write buf) := by
  have hoffset := h.offset
  have hsize := h.size
  rw [AccessOk, NoWrap, tmpfsWrite, if_neg h.not_refused]
  set size := (s.inodes (s.file fd)).size
  have hsum : s.offset fd + buf.length < 2 ^ 32 ∧
      u32 (s.offset fd + buf.length) = s.offset fd + buf.length ∨
    ¬ s.offset fd + buf.length < 2 ^ 32 ∧
      u32 (s.offset fd + buf.length) = s.offset fd + buf.length - 2 ^ 32 := by
    rw [u32]
    omega
  rcases growFile_cases s (s.file fd) (u32 (s.offset fd + buf.length)) with
    ⟨hroom, hgrow⟩ | ⟨hlt, hg, hgrow⟩ | ⟨hlt, hg, spans, s', hgrow, hre⟩
  · have hno : ¬ size < u32 (s.offset fd + buf.length) := Nat.not_lt_of_le hroom
    simp only [hgrow, Tmpfs.inodes_stored, List.nil_append, List.forall_mem_singleton,
      Span.inside_iff, usable, maxSize, hno, false_and, false_or]
    split <;> omega
  · rw [hgrow]
    exact iff_of_true (fun span hm => absurd hm List.not_mem_nil) (.inr (.inl ⟨hlt, hg⟩))
  · have hinode : s'.inodes (s.file fd) = { s.inodes (s.file fd) with
        data := s.heap.requests + 1, size := u32 (s.offset fd + buf.length) } := by
      rw [hre.inodes, Function.update_self]
    simp only [hgrow, Tmpfs.inodes_stored, hinode, hre.spans, List.forall_mem_append,
      List.forall_mem_singleton, Span.inside_iff, usable, maxSize, hg, Bool.true_eq_false, and_false,
      false_or]
    by_cases h0 : (s.inodes (s.file fd)).data = 0
    · simp only [h0, ne_eq, not_true_eq_false, if_false, List.not_mem_nil, false_imp_iff,
        implies_true, true_and, true_or, or_true, and_true]
      split <;> omega
    · simp only [h0, ne_eq, not_false_eq_true, if_true, List.forall_mem_singleton,
        Span.inside_iff, Nat.zero_add, false_or]
      split <;> omega

/-- **Accesses stay inside of the file** in a run of reads, writes and seeks if and
only if no sum of offset and count that is used wraps. -/
theorem accessOk_iff_noWrap (s : Tmpfs) (fd : Int) (h : OpenFile s fd) (ops : List TmpfsOp)
    (hw : ∀ op ∈ ops, op.Word) :
    Guarded (tmpfsNext fd) (AccessOk fd) s ops ↔ Guarded (tmpfsNext fd) (NoWrap fd) s ops := by
  refine guarded_congr (fun s => OpenFile s fd) (fun s op _ hs _ => hs.step op)
    (fun s op hm hs => ?_) h
  cases op with
  | lseek offset whence => exact Iff.rfl
  | read count => exact hs.read_iff (hw _ hm)
  | write buf => exact hs.write_iff (hw _ hm)

/-- A file of two bytes behind descriptor `0`. -/
def twoBytes : Tmpfs :=
  { heap := ⟨fun _ => true, fun block => block, 2, []⟩
    inodes := fun _ => ⟨2, ftRegular, 0, 2⟩
    fileDescriptors := fun _ => ⟨true, 1, 0⟩
    bytes := fun _ _ => 0 }

theorem openFile_twoBytes : OpenFile twoBytes 0 := by
  refine ⟨?_, ?_, rfl, ?_, ?_⟩ <;> decide

theorem accessOk_iff_twoBytes :
    Guarded (tmpfsNext 0) (AccessOk 0) twoBytes [.read 1, .write [1, 2, 3]] ↔
      Guarded (tmpfsNext 0) (NoWrap 0) twoBytes [.read 1, .write [1, 2, 3]] := by
  refine accessOk_iff_noWrap twoBytes 0 openFile_twoBytes _ fun op hm => ?_
  rcases List.mem_cons.mp hm with rfl | hm
  · exact (by decide : 1 < 2 ^ 32)
  · obtain rfl := List.mem_singleton.mp hm
    exact (by decide : 3 < 2 ^ 32)

/-- **A read of `2 ^ 32 - 1` bytes at offset `1`** reads past the end. -/
theorem read_wraps : ¬ ∀ (s : Tmpfs) (fd : Int), OpenFile s fd → ∀ ops : List TmpfsOp,
    (∀ op ∈ ops, op.Word) → Guarded (tmpfsNext fd) (AccessOk fd) s ops := by
  intro h
  have hrun := h twoBytes 0 openFile_twoBytes [.lseek 1 0, .read (2 ^ 32 - 1)] fun op hm => by
    rcases List.mem_cons.mp hm with rfl | hm
    · trivial
    · obtain rfl := List.mem_singleton.mp hm
      exact (by decide : 2 ^ 32 - 1 < 2 ^ 32)
  have hread := ((openFile_twoBytes.step (.lseek 1 0)).read_iff (by decide)).mp hrun.2.1
  have hwraps : ¬ NoWrap 0 (tmpfsNext 0 twoBytes (.lseek 1 0)) (.read (2 ^ 32 - 1)) :=
    not_or.mpr ⟨by decide, by decide⟩
  exact hwraps hread

end SynapseKernel.Fs
