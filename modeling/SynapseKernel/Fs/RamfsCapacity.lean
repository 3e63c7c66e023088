import SynapseKernel.Fs.RamfsWrites
import SynapseKernel.Fs.Tmpfs

/-! # The copies of a RamFS write

`ramfs_write` adds the offset and the count, and then rounds up to whole pages, both
as 32-bit words. A capacity that wraps to `0` is refused, so its copies stay inside of
the data exactly when the end of the write does not wrap where it is used
(`writeContained_iff`). An offset is its 32-bit word. -/
namespace SynapseKernel.Fs
open SynapseKernel.Word SynapseKernel.Kheap SynapseKernel.Blocks

variable {s s' : Ramfs} {i : Nat} {file : RamfsFile} {buf : List UInt8} {offset : Nat}

/-- The bytes that `ramfs_write` copies to: those of a new block that get the old
data, and those that get what is written. -/
def ramfsWriteSpans (s : Ramfs) (file : RamfsFile) (buf : List UInt8) (offset : Nat) : List Span :=
  let inode := (s.inodes file.inode).privateData
  if (s.inodes file.inode).type ≠ .regular then []
  else
    let old := s.inodes inode
    let newSize := u32 (offset + buf.length)
    let (ok, s) := growData s inode newSize
    let data := (s.inodes inode).data
    if ok then
      (if old.dataCapacity < newSize ∧ old.data ≠ 0 then [⟨data, 0, old.dataSize⟩] else []) ++
        [⟨data, offset, buf.length⟩]
    else []

/-- A regular file. -/
structure RegularFile (s : Ramfs) (i : Nat) : Prop where
  type : (s.inodes i).type = .regular
  self : (s.inodes i).privateData = i
  capacity : (s.inodes i).dataCapacity < 2 ^ 32

/-- The write is refused without a copy and the file stays as it is, or all copies are
inside of its data and the size goes up to the end of what was written. -/
def WriteContained (s : Ramfs) (file : RamfsFile) (buf : List UInt8) (offset : Nat) : Prop :=
  let spans := ramfsWriteSpans s file buf offset
  let result := (ramfsWrite s file buf offset).1
  let s' := (ramfsWrite s file buf offset).2
  let inode := s'.inodes file.inode
  (result = -1 ∧ spans = [] ∧ s'.inodes = s.inodes ∧ s'.bytes = s.bytes) ∨
  (∀ span ∈ spans, span.Inside inode.data inode.dataCapacity) ∧ offset + buf.length ≤ inode.dataSize

/-- There is room, or the write outgrows the capacity as words too and the new block is
refused, as it is when the capacity for it wraps to `0`, or is large enough. -/
def WriteFits (s : Ramfs) (i offset count : Nat) : Prop :=
  let inode := s.inodes i
  offset + count ≤ inode.dataCapacity ∨
  inode.dataCapacity < u32 (offset + count) ∧
    (s.heap.grants s.heap.requests = false ∨ 2 ^ 32 ≤ u32 (offset + count) + 4095 ∨
      offset + count + 4095 < 2 ^ 32 ∧
        (inode.data = 0 ∨ inode.dataSize ≤ (offset + count + 4095) / 4096 * 4096))

/-! ## The copies -/

theorem storeData_inode (s : Ramfs) (i : Nat) (buf : List UInt8) (offset newSize : Nat) :
    let inode := (storeData s i i buf offset newSize).inodes i
    inode.data = (s.inodes i).data ∧ inode.dataCapacity = (s.inodes i).dataCapacity ∧
      inode.dataSize = max (s.inodes i).dataSize newSize := by
  simp only [storeData_eq, Function.update_self]
  exact ⟨(grown_fields _ _).2.2.2, (grown_data _ _).2, (grown_data _ _).1⟩

theorem overwrite_of_not_covered {data b k : Nat} {f : Nat → UInt8}
    (hout : ¬ (Span.mk data offset buf.length).Covers b k) (hb : b = data) :
    overwrite f offset buf k = f k := by
  rcases overwrite_cases buf offset k with ⟨hlt, hle, -⟩ | ⟨-, hkeep⟩
  · have hcover : (Span.mk data offset buf.length).Covers b k :=
      ⟨hb.symm, hle, (Nat.sub_lt_iff_lt_add' hle).mp hlt⟩
    exact absurd hcover hout
  · exact hkeep f

/-- **Nothing else is written.** A byte that no copy covers stays as it is. -/
theorem ramfsWrite_bytes (h : RegularFile s file.inode) {b k : Nat}
    (hout : ∀ span ∈ ramfsWriteSpans s file buf offset, ¬ span.Covers b k) :
    (ramfsWrite s file buf offset).2.bytes b k = s.bytes b k := by
  have hstore : ∀ s₁ : Ramfs, ¬ (Span.mk (s₁.inodes file.inode).data offset buf.length).Covers b k →
      (storeData s₁ file.inode file.inode buf offset (u32 (offset + buf.length))).bytes b k =
        s₁.bytes b k := by
    intro s₁ hlast
    rw [storeData_eq]
    by_cases hb : b = (s₁.inodes file.inode).data
    · simp only [hb, Function.update_self]
      exact overwrite_of_not_covered hlast hb
    · exact congrFun (Function.update_of_ne hb _ _) k
  simp only [ramfsWriteSpans, h.self, h.type, ne_eq, not_true_eq_false, if_false] at hout
  simp only [ramfsWrite, h.self, h.type, ne_eq, not_true_eq_false, if_false]
  rcases growData_cases s file.inode (u32 (offset + buf.length)) with
    ⟨-, hgrow⟩ | ⟨-, -, hgrow⟩ | ⟨hlt, hpos, hg, -⟩
  · simp only [hgrow, if_true] at hout ⊢
    exact hstore s (hout _ (List.mem_append_right _ List.mem_cons_self))
  · simp only [hgrow]
    rfl
  · obtain ⟨s₁, hgrow, hmoved, hbytes⟩ := growData_moves hlt hpos hg
    simp only [hgrow, if_true] at hout ⊢
    rw [hstore s₁ (hout _ (List.mem_append_right _ List.mem_cons_self)), hbytes]
    by_cases hb : b = s.heap.requests + 1
    · subst hb
      rw [Function.update_self]
      refine if_neg fun hold => ?_
      -- the copy of the old data covers the byte
      rw [if_pos ⟨hlt, hold.1⟩, hmoved.inodes_self] at hout
      exact hout _ List.mem_cons_self ⟨rfl, Nat.zero_le k, (Nat.zero_add _).symm ▸ hold.2⟩
    · rw [Function.update_of_ne hb]

/-! ## Inside of the data -/

/-- **A write stays inside of its buffer** if and only if the end that it uses does not
wrap. -/
theorem writeContained_iff (s : Ramfs) (file : RamfsFile) (buf : List UInt8) (offset : Nat)
    (h : RegularFile s file.inode) (hoffset : offset < 2 ^ 32) (hcount : buf.length < 2 ^ 32) :
    WriteContained s file buf offset ↔ WriteFits s file.inode offset buf.length := by
  have hcap := h.capacity
  have hsum : offset + buf.length < 2 ^ 32 ∧
      u32 (offset + buf.length) = offset + buf.length ∨
    ¬ offset + buf.length < 2 ^ 32 ∧
      u32 (offset + buf.length) = offset + buf.length - 2 ^ 32 := by
    rw [u32]
    omega
  have hword := u32_lt (offset + buf.length)
  simp only [WriteContained, WriteFits, ramfsWriteSpans, ramfsWrite, h.self, h.type, ne_eq,
    not_true_eq_false, if_false]
  generalize u32 (offset + buf.length) = newSize at *
  -- the capacity is rounded up, or wraps to `0`
  have hround : newSize + 4095 < 2 ^ 32 ∧
      u32 (newSize + 4095) / 4096 * 4096 = (newSize + 4095) / 4096 * 4096 ∨
    2 ^ 32 ≤ newSize + 4095 ∧ u32 (newSize + 4095) / 4096 * 4096 = 0 := by
    rw [u32]
    omega
  rcases growData_cases s file.inode newSize with
    ⟨hroom, hgrow⟩ | ⟨hlt, h0, hgrow⟩ | ⟨hlt, hpos, hg, s₁, hgrow, hmoved⟩
  · obtain ⟨hdata, hcapacity, hsize⟩ := storeData_inode s file.inode buf offset newSize
    have hno : ¬ (s.inodes file.inode).dataCapacity < newSize := Nat.not_lt_of_le hroom
    simp only [hgrow, if_true, hdata, hcapacity, hsize, hno, false_and, if_false, List.nil_append,
      List.forall_mem_singleton, Span.inside_iff, List.cons_ne_nil, and_false, false_or, or_false]
    omega
  · simp only [hgrow]
    refine iff_of_true (.inl ⟨rfl, rfl, rfl, rfl⟩) (.inr ⟨hlt, ?_⟩)
    rcases BlockHeap.kmalloc_eq_zero.mp h0 with hwrap | hno
    · exact .inr (.inl (by omega))
    · exact .inl hno
  · obtain ⟨hdata, hcapacity, hsize⟩ := storeData_inode s₁ file.inode buf offset newSize
    simp only [hgrow, if_true, hdata, hcapacity, hsize, hmoved.inodes_self, hg, Bool.true_eq_false,
      false_or, List.append_eq_nil_iff, List.cons_ne_nil, and_false, false_and,
      List.forall_mem_append, List.forall_mem_singleton, Span.inside_iff]
    by_cases h0 : (s.inodes file.inode).data = 0
    · simp only [h0, not_true_eq_false, and_false, if_false, List.not_mem_nil, false_imp_iff,
        implies_true, true_and, true_or, and_true]
      omega
    · simp only [h0, not_false_eq_true, hlt, and_self, if_true, List.forall_mem_singleton,
        Span.inside_iff, Nat.zero_add, false_or, true_and]
      -- the sum wraps or does not
      rcases hround with ⟨hr, hpages⟩ | ⟨hr, hpages⟩
      · rcases hsum with ⟨-, hs⟩ | ⟨hs, hs'⟩ <;> omega
      · exact absurd hpages hpos

/-- A file of one full page, in block 2. -/
def onePage : Ramfs :=
  { heap := ⟨fun _ => true, fun block => block, 2, []⟩
    inodes := fun i =>
      { inode := 1, type := .regular, size := 4096, permissions := 0o755, uid := 0, gid := 0
        atime := 0, mtime := 0, ctime := 0, privateData := i, entries := 0, data := 2
        dataSize := 4096, dataCapacity := 4096 }
    entries := fun _ => ⟨dotName, 0, 0, 0⟩
    bytes := fun _ _ => 0
    nextInode := 2, made := [1], dots := [] }

theorem regularFile_onePage (i : Nat) : RegularFile onePage i := ⟨rfl, rfl, (by decide : 4096 < 2 ^ 32)⟩

/-- A byte at the end of the page takes a second page. -/
theorem writeContained_iff_onePage :
    WriteContained onePage ⟨1, 0, 0, 0⟩ [7] 4096 ↔ WriteFits onePage 1 4096 1 :=
  writeContained_iff onePage ⟨1, 0, 0, 0⟩ [7] 4096 (regularFile_onePage 1) (by decide) (by decide)

/-- A byte at offset `2 ^ 32 - 1` is copied to just before the page. -/
theorem write_before_page :
    ¬ ∀ (s : Ramfs) (file : RamfsFile) (buf : List UInt8) (offset : Nat),
      RegularFile s file.inode → offset < 2 ^ 32 → buf.length < 2 ^ 32 →
        WriteContained s file buf offset := by
  intro h
  have hcopy := h onePage ⟨1, 0, 0, 0⟩ [7] (2 ^ 32 - 1) (regularFile_onePage 1) (by decide)
    (by decide)
  rcases hcopy with ⟨hresult, -⟩ | ⟨hinside, -⟩
  · exact absurd hresult (by decide)
  · have hpage := (hinside ⟨2, 2 ^ 32 - 1, 1⟩ List.mem_cons_self).2 (2 ^ 32 - 1)
      ⟨rfl, Nat.le_refl _, Nat.lt_succ_self _⟩
    exact absurd hpage (by decide)

end SynapseKernel.Fs
