import SynapseKernel.Fs.RamfsOps

/-! # What a write does to a RamFS

The data of a file move to a larger block when they outgrow theirs. The tree
stays as it is (`ramfsWrite_forest`). -/
namespace SynapseKernel.Fs
open SynapseKernel.Word SynapseKernel.Kheap SynapseKernel.Blocks

variable {s s' : Ramfs} {i c : Nat} {file : RamfsFile} {buf : List UInt8} {offset : Nat}
  {q : Nat → List Nat} {role : Nat → Role}

/-- The data of the inode `i` are in a block just handed out, with the capacity `n`. -/
structure Moved (s s' : Ramfs) (i n : Nat) : Prop where
  heap : s'.heap =
    if (s.inodes i).data ≠ 0 then (s.heap.kmalloc n).2.kfree (s.inodes i).data
    else (s.heap.kmalloc n).2
  inodes : s'.inodes = Function.update s.inodes i
    { s.inodes i with data := s.heap.requests + 1, dataCapacity := n }
  entries : s'.entries = s.entries
  made : s'.made = s.made
  dots : s'.dots = s.dots
  bytes : (s.inodes i).data ≠ 0 → ∀ k < (s.inodes i).dataSize,
    s'.bytes (s.heap.requests + 1) k = s.bytes (s.inodes i).data k

/-- Growth moves the data to a new block, of which it fills in the old bytes. -/
theorem growData_moves {newSize : Nat} (hcap : (s.inodes i).dataCapacity < newSize)
    (hpos : u32 (newSize + 4095) / 4096 * 4096 ≠ 0) (hg : s.heap.grants s.heap.requests = true) :
    ∃ s', growData s i newSize = (true, s') ∧
      Moved s s' i (u32 (newSize + 4095) / 4096 * 4096) ∧
      s'.bytes = Function.update s.bytes (s.heap.requests + 1) fun k =>
        if (s.inodes i).data ≠ 0 ∧ k < (s.inodes i).dataSize then s.bytes (s.inodes i).data k
        else s.bytes (s.heap.requests + 1) k := by
  have hnew := BlockHeap.kmalloc_granted hg (u32 (newSize + 4095) / 4096 * 4096) hpos
  have hcopy := copy_block s.bytes ((s.inodes i).data ≠ 0) (s.inodes i).data
    (s.heap.requests + 1) (s.inodes i).dataSize
  have hold : (s.inodes i).data ≠ 0 → ∀ k < (s.inodes i).dataSize,
      (if (s.inodes i).data ≠ 0 ∧ k < (s.inodes i).dataSize then s.bytes (s.inodes i).data k
        else s.bytes (s.heap.requests + 1) k) = s.bytes (s.inodes i).data k :=
    fun h0 k hk => if_pos ⟨h0, hk⟩
  rw [growData, if_pos hcap]
  simp only [hnew, if_neg (Nat.succ_ne_zero _)]
  by_cases h0 : (s.inodes i).data ≠ 0
  · rw [if_pos h0] at hcopy ⊢
    refine ⟨_, rfl, ⟨(if_pos h0).symm, rfl, rfl, rfl, rfl, fun _ k hk => ?_⟩, hcopy⟩
    refine (congrFun (congrFun hcopy _) k).trans ?_
    rw [Function.update_self, hold h0 k hk]
  · rw [if_neg h0] at hcopy ⊢
    exact ⟨_, rfl, ⟨(if_neg h0).symm, rfl, rfl, rfl, rfl, fun h => absurd h h0⟩, hcopy⟩

/-- **Room for the new size** is there, is refused or is found in a new block. The
capacity can wrap to `0`, and then it is refused. -/
theorem growData_cases (s : Ramfs) (i newSize : Nat) :
    (newSize ≤ (s.inodes i).dataCapacity ∧ growData s i newSize = (true, s)) ∨
    ((s.inodes i).dataCapacity < newSize ∧
      (s.heap.kmalloc (u32 (newSize + 4095) / 4096 * 4096)).1 = 0 ∧
      growData s i newSize = (false,
        { s with heap := (s.heap.kmalloc (u32 (newSize + 4095) / 4096 * 4096)).2 })) ∨
    ((s.inodes i).dataCapacity < newSize ∧ u32 (newSize + 4095) / 4096 * 4096 ≠ 0 ∧
      s.heap.grants s.heap.requests = true ∧ ∃ s', growData s i newSize = (true, s') ∧
        Moved s s' i (u32 (newSize + 4095) / 4096 * 4096)) := by
  by_cases hcap : (s.inodes i).dataCapacity < newSize
  · by_cases h0 : (s.heap.kmalloc (u32 (newSize + 4095) / 4096 * 4096)).1 = 0
    · rw [growData, if_pos hcap]
      exact .inr (.inl ⟨hcap, h0, if_pos h0⟩)
    · obtain ⟨hpos, hyes⟩ := not_or.mp (mt BlockHeap.kmalloc_eq_zero.mpr h0)
      have hg := Bool.eq_true_of_not_eq_false hyes
      obtain ⟨s', hgrow, hmoved, -⟩ := growData_moves hcap hpos hg
      exact .inr (.inr ⟨hcap, hpos, hg, s', hgrow, hmoved⟩)
  · exact .inl ⟨Nat.le_of_not_lt hcap, if_neg hcap⟩

theorem quiet_kmalloc (s : Ramfs) (n : Nat) : Quiet s { s with heap := (s.heap.kmalloc n).2 } :=
  ⟨(BlockHeap.Later.refl _).kmalloc n, fun _ _ => rfl, fun _ _ => rfl, fun _ => id,
    fun _ => .inl, rfl⟩

theorem Moved.inodes_self {n : Nat} (hm : Moved s s' i n) :
    s'.inodes i = { s.inodes i with data := s.heap.requests + 1, dataCapacity := n } := by
  rw [hm.inodes, Function.update_self]

theorem Moved.inodes_ne {j n : Nat} (hm : Moved s s' i n) (hj : j ≠ i) :
    s'.inodes j = s.inodes j := by
  rw [hm.inodes, Function.update_of_ne hj]

theorem Moved.sameTree {n : Nat} (hm : Moved s s' i n) :
    SameTree { s with heap := (s.heap.kmalloc n).2 } s' := by
  refine ⟨?_, hm.entries, hm.made, hm.dots, fun j => ?_⟩
  · rw [hm.heap]
    split <;> rfl
  · by_cases hj : j = i
    · rw [hj, hm.inodes_self]
      exact ⟨rfl, rfl, rfl⟩
    · rw [hm.inodes_ne hj]
      exact ⟨rfl, rfl, rfl⟩

/-- Only the old data of the file are freed. -/
theorem Moved.live {n : Nat} (hm : Moved s s' i n) (b : Nat) :
    s'.heap.Live b ↔
      (s.heap.kmalloc n).2.Live b ∧ ((s.inodes i).data ≠ 0 → b ≠ (s.inodes i).data) := by
  rw [hm.heap]
  by_cases h0 : (s.inodes i).data ≠ 0
  · rw [if_pos h0, BlockHeap.live_kfree]
    exact and_congr_right fun _ => ⟨fun hb _ => hb, fun hb => hb h0⟩
  · rw [if_neg h0]
    exact (and_iff_left fun h => absurd h h0).symm

theorem Moved.forest {n : Nat} (hm : Moved s s' i n) (hpos : n ≠ 0) (h : Forest s q role)
    (hi : LiveInode s i) (hg : s.heap.grants s.heap.requests = true) : Rewrites s s' q role := by
  have hquiet := quiet_kmalloc s n
  have h₁ := h.quiet hquiet
  have hn := h.node i hi
  have hnew := BlockHeap.live_kmalloc_new h.sane hg hpos
  have hspare : role (s.heap.requests + 1) = .spare := h.spare _ (Nat.lt_succ_self _)
  set p := s.heap.requests + 1
  have hsane : s'.heap.Sane := by
    rw [hm.heap]
    split
    · exact h₁.sane.kfree (Nat.le_trans (hn.data ‹_›).1.le (s.heap.requests_le_kmalloc n))
    · exact h₁.sane
  have hsame : ∀ b, role b ≠ .spare → Function.update role p (.data i) b = role b := by
    intro b hb
    have hbp : b ≠ p := fun hbp => hb (hbp ▸ hspare)
    exact Function.update_of_ne hbp _ _
  have hset : Rewrites { s with heap := (s.heap.kmalloc n).2 } s' q role := by
    refine h₁.setData hm.sameTree hsane hsame (fun b hb => ?_) (fun b hb => ((hm.live b).mp hb).1)
      (fun b hb hl => ?_) fun j hj h0 => ?_
    · have hb' : p < b := (BlockHeap.requests_kmalloc hpos).symm.trans_lt hb
      rw [Function.update_of_ne (Nat.ne_of_gt hb')]
      exact h.spare b (Nat.lt_trans (Nat.lt_succ_self _) hb')
    · exact (hm.live b).mpr ⟨hl, fun h0 hbd => hb i (hbd ▸ (hn.data h0).2)⟩
    · have hj' := (hquiet.liveInode h.made).mp hj
      by_cases hji : j = i
      · subst hji
        rw [hm.inodes_self]
        refine ⟨(hm.live p).mpr ⟨hnew, fun h0 hpd => ?_⟩, Function.update_self _ _ _⟩
        exact nomatch (hpd ▸ hspare).symm.trans (hn.data h0).2
      · rw [hm.inodes_ne hji] at h0 ⊢
        obtain ⟨hd, hr⟩ := (h.node j hj').data h0
        refine ⟨(hm.live _).mpr ⟨(hquiet.heap.live _ hd.le).mpr hd, fun _ he => hji ?_⟩, ?_⟩
        · exact (h.node j hj').data_inj hn h0 he
        · exact (hsame _ fun he => nomatch hr.symm.trans he).trans hr
  exact ⟨hset.forest, fun j => (hset.live j).trans (hquiet.liveInode h.made)⟩

/-- The inode after the sizes followed a write up to `newSize`. -/
def grown (inode : RamfsInode) (newSize : Nat) : RamfsInode :=
  if inode.dataSize < newSize then { inode with dataSize := newSize, size := newSize } else inode

theorem storeData_eq (s : Ramfs) (i : Nat) (buf : List UInt8) (offset newSize : Nat) :
    storeData s i i buf offset newSize =
      { s with
        inodes := Function.update s.inodes i (grown (s.inodes i) newSize)
        bytes := Function.update s.bytes (s.inodes i).data
          (overwrite (s.bytes (s.inodes i).data) offset buf) } := by
  rw [storeData, grown]
  by_cases h : (s.inodes i).dataSize < newSize
  · simp only [if_pos h, Ramfs.setInode, Function.update_self, Function.update_idem]
  · simp only [if_neg h, Function.update_eq_self]

theorem grown_fields (inode : RamfsInode) (newSize : Nat) :
    (grown inode newSize).privateData = inode.privateData ∧
      (grown inode newSize).entries = inode.entries ∧ (grown inode newSize).type = inode.type ∧
      (grown inode newSize).data = inode.data := by
  rw [grown]
  split <;> exact ⟨rfl, rfl, rfl, rfl⟩

theorem grown_data (inode : RamfsInode) (newSize : Nat) :
    (grown inode newSize).dataSize = max inode.dataSize newSize ∧
      (grown inode newSize).dataCapacity = inode.dataCapacity := by
  rw [grown]
  by_cases hlt : inode.dataSize < newSize
  · rw [if_pos hlt, Nat.max_eq_right (Nat.le_of_lt hlt)]
    exact ⟨rfl, rfl⟩
  · rw [if_neg hlt, Nat.max_eq_left (Nat.le_of_not_lt hlt)]
    exact ⟨rfl, rfl⟩

theorem sameTree_storeData (s : Ramfs) (i : Nat) (buf : List UInt8) (offset newSize : Nat) :
    SameTree s (storeData s i i buf offset newSize) := by
  rw [storeData_eq]
  refine ⟨rfl, rfl, rfl, rfl, fun j => ?_⟩
  by_cases hj : j = i
  · have hfields := grown_fields (s.inodes i) newSize
    simp only [hj, Function.update_self]
    exact ⟨hfields.1, hfields.2.1, hfields.2.2.1⟩
  · simp only [Function.update_of_ne hj, and_self]

theorem Forest.storeData (h : Forest s q role) (i : Nat) (buf : List UInt8)
    (offset newSize : Nat) : Rewrites s (storeData s i i buf offset newSize) q role := by
  have hsame := sameTree_storeData s i buf offset newSize
  have hdata : ∀ j, ((Fs.storeData s i i buf offset newSize).inodes j).data =
      (s.inodes j).data := by
    intro j
    rw [storeData_eq]
    by_cases hj : j = i
    · simp only [hj, Function.update_self]
      exact (grown_fields _ _).2.2.2
    · simp only [Function.update_of_ne hj]
  have hheap : (Fs.storeData s i i buf offset newSize).heap = s.heap := by rw [storeData_eq]
  refine h.setData hsame (hheap.symm ▸ h.sane) (fun _ _ => rfl) h.spare (fun p hp => hheap ▸ hp)
    (fun p _ hp => hheap.symm ▸ hp) fun j hj h0 => ?_
  rw [hdata] at h0 ⊢
  rw [hheap]
  exact (h.node j hj).data h0

/-- **What `ramfs_write` does** to the tree. -/
theorem ramfsWrite_forest (h : Forest s q role) (hi : LiveInode s file.inode)
    (buf : List UInt8) (offset : Nat) : Rewrites s (ramfsWrite s file buf offset).2 q role := by
  have hsame : Rewrites s s q role := ⟨⟨role, h, fun _ _ => rfl⟩, fun _ => Iff.rfl⟩
  rw [ramfsWrite, (h.node _ hi).self]
  by_cases htype : (s.inodes file.inode).type ≠ .regular
  · rw [if_pos htype]
    exact hsame
  rw [if_neg htype]
  rcases growData_cases s file.inode (u32 (offset + buf.length)) with
    ⟨-, hgrow⟩ | ⟨-, -, hgrow⟩ | ⟨-, hpos, hg, s', hgrow, hmoved⟩
  · simp only [hgrow, if_true]
    exact h.storeData _ _ _ _
  · simp only [hgrow]
    have hquiet := quiet_kmalloc s (u32 (u32 (offset + buf.length) + 4095) / 4096 * 4096)
    exact ⟨⟨role, h.quiet hquiet, fun _ _ => rfl⟩, fun _ => hquiet.liveInode h.made⟩
  · simp only [hgrow, if_true]
    obtain ⟨⟨role', h', hrole⟩, hlive⟩ := hmoved.forest hpos h hi hg
    obtain ⟨⟨role'', h'', hrole'⟩, hlive'⟩ :=
      h'.storeData file.inode buf offset (u32 (offset + buf.length))
    refine ⟨⟨role'', h'', fun p hp => ?_⟩, fun i => (hlive' i).trans (hlive i)⟩
    rw [hrole' p ((hrole p hp).symm ▸ hp), hrole p hp]

/-! ## A write and the blocks -/

/-- The data of the inode `c` are where they were, or in a new block for the old one. -/
structure DataMoves (s s' : Ramfs) (c : Nat) : Prop where
  requests : s.heap.requests ≤ s'.heap.requests
  entries : s'.entries = s.entries
  dots : s'.dots = s.dots
  type : ∀ j, (s'.inodes j).type = (s.inodes j).type
  live : ((s'.inodes c).data = (s.inodes c).data ∧ ∀ p, s'.heap.Live p ↔ s.heap.Live p) ∨
    (s'.inodes c).data = s.heap.requests + 1 ∧ ∀ p, s'.heap.Live p ↔
      (s.heap.Live p ∨ p = s.heap.requests + 1) ∧
        ((s.inodes c).data ≠ 0 → p ≠ (s.inodes c).data)

/-- Storing moves nothing. -/
theorem DataMoves.store (h : DataMoves s s' c) (offset newSize : Nat) :
    DataMoves s (storeData s' c c buf offset newSize) c := by
  have hsame := sameTree_storeData s' c buf offset newSize
  have hdata : ((storeData s' c c buf offset newSize).inodes c).data = (s'.inodes c).data := by
    rw [storeData_eq]
    simp only [Function.update_self]
    exact (grown_fields _ _).2.2.2
  have hheap : (storeData s' c c buf offset newSize).heap = s'.heap := by rw [storeData_eq]
  refine ⟨hheap ▸ h.requests, hsame.entries.trans h.entries, hsame.dots.trans h.dots,
    fun j => (hsame.inode j).2.2.trans (h.type j), ?_⟩
  rw [hdata, hheap]
  exact h.live

/-- **What a write does to the blocks.** -/
theorem dataMoves_write (hs : s.heap.Sane) (hself : (s.inodes file.inode).privateData = file.inode) :
    DataMoves s (ramfsWrite s file buf offset).2 file.inode := by
  have hrefl : DataMoves s s file.inode :=
    ⟨Nat.le_refl _, rfl, rfl, fun _ => rfl, .inl ⟨rfl, fun _ => Iff.rfl⟩⟩
  rw [ramfsWrite, hself]
  by_cases htype : (s.inodes file.inode).type ≠ .regular
  · rw [if_pos htype]
    exact hrefl
  rw [if_neg htype]
  rcases growData_cases s file.inode (u32 (offset + buf.length)) with
    ⟨-, hgrow⟩ | ⟨-, hno, hgrow⟩ | ⟨-, hpos, hg, s', hgrow, hmoved⟩
  · simp only [hgrow, if_true]
    exact hrefl.store _ _
  · simp only [hgrow]
    exact ⟨s.heap.requests_le_kmalloc _, rfl, rfl, fun _ => rfl,
      .inl ⟨rfl, fun _ => BlockHeap.live_kmalloc_null hno⟩⟩
  · simp only [hgrow, if_true]
    have hsame := hmoved.sameTree
    have hgrown : DataMoves s s' file.inode := by
      refine ⟨?_, hsame.entries, hsame.dots, fun j => (hsame.inode j).2.2, .inr ⟨?_, fun p => ?_⟩⟩
      · exact hsame.requests ▸ s.heap.requests_le_kmalloc _
      · rw [hmoved.inodes_self]
      · rw [hmoved.live, BlockHeap.live_kmalloc_granted hs hg hpos]
    exact hgrown.store _ _

end SynapseKernel.Fs
