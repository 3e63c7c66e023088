import SynapseKernel.Fs.RamfsUndo
import SynapseKernel.Lib.Chunks

/-! # Reading a directory of a RamFS

`ramfs_readdir` takes the offset into the names of the directory, each with its NUL,
and copies out what the buffer can take of the rest of one name. An offset is its
32-bit word; sums and comparisons with it are those of unsigned words. -/
namespace SynapseKernel.Fs
open SynapseKernel.Word SynapseKernel.Kheap SynapseKernel.Str SynapseKernel.Ring
open SynapseKernel.Chunks

/-- What stands in `entry->name` up to its NUL. -/
def RamfsDirEntry.text (e : RamfsDirEntry) : List UInt8 := e.name.bytes ++ [0]

/-- The body of the loop of `ramfs_readdir`; it returns with what it copied. -/
def readdirEntry (s : Ramfs) (count offset currentOffset entry : Nat) :
    Except (Int × List UInt8) Nat :=
  let entrySize := (s.entries entry).name.bytes.length + 1
  if offset < u32 (currentOffset + entrySize) then
    let copySize := sub32 entrySize (sub32 offset currentOffset)
    let copySize := if count < copySize then count else copySize
    .error (s32 copySize, ((s.entries entry).text.drop (sub32 offset currentOffset)).take copySize)
  else .ok (u32 (currentOffset + entrySize))

/-- The result, and what is copied to the caller's buffer. -/
def ramfsReaddir (s : Ramfs) (inode count offset : Nat) : Option (Int × List UInt8) :=
  let dir := (s.inodes inode).privateData
  if (s.inodes inode).type ≠ .directory then some (-1, [])
  else
    let entries := (s.inodes dir).entries
    if entries = 0 then some (0, [])
    else
      match Ring.walk (readdirEntry s count offset) s.next entries s.heap.requests entries 0 with
      | none => none
      | some (.error r) => some r
      | some (.ok _) => some (0, [])

/-- The names of the entries, each followed by its NUL. -/
def listing (s : Ramfs) (l : List Nat) : List UInt8 := l.flatMap fun e => (s.entries e).text

/-- The entries of the directory, round the ring from the head on. -/
structure EntryRing (s : Ramfs) (d : Nat) (l : List Nat) : Prop where
  ring : IsRing s.next s.prev l
  head : (s.inodes d).entries = l.headD 0
  live : ∀ e ∈ l, s.heap.Live e

variable {m : Mount} {s : Ramfs} {d e count offset current : Nat} {l : List Nat}
  {role : Nat → Role}

theorem length_text (e : RamfsDirEntry) : e.text.length = e.name.bytes.length + 1 :=
  List.length_append

theorem listing_cons (s : Ramfs) (e : Nat) (l : List Nat) :
    listing s (e :: l) = (s.entries e).text ++ listing s l := List.flatMap_cons

/-- The entry that the offset is in. -/
theorem readdirEntry_here (hle : current ≤ offset)
    (hlt : offset < current + (s.entries e).text.length)
    (hsmall : current + (s.entries e).text.length < 2 ^ 32) :
    readdirEntry s count offset current e =
      .error (((min count (current + (s.entries e).text.length - offset) : Nat) : Int),
        ((s.entries e).text.drop (offset - current)).take
          (min count (current + (s.entries e).text.length - offset))) := by
  have hfits := (s.entries e).name.fits
  have hlen := length_text (s.entries e)
  have hstart : sub32 offset current = offset - current := sub32_of_le (by omega) hle
  have hsize : sub32 ((s.entries e).name.bytes.length + 1) (offset - current) =
      current + (s.entries e).text.length - offset := by
    rw [sub32_of_le (by omega) (by omega)]
    omega
  have hcopy : (if count < current + (s.entries e).text.length - offset then count
      else current + (s.entries e).text.length - offset) =
      min count (current + (s.entries e).text.length - offset) := by
    rw [Nat.min_def]
    split <;> split <;> omega
  unfold readdirEntry
  simp only [hstart, hsize, hcopy]
  rw [u32_of_lt (by omega), if_pos (by omega), s32_of_lt (by omega)]

/-- One before it. -/
theorem readdirEntry_before (hle : current + (s.entries e).text.length ≤ offset)
    (hsmall : current + (s.entries e).text.length < 2 ^ 32) :
    readdirEntry s count offset current e = .ok (current + (s.entries e).text.length) := by
  have hlen := length_text (s.entries e)
  have hsum : u32 (current + ((s.entries e).name.bytes.length + 1)) =
      current + (s.entries e).text.length := by
    rw [u32_of_lt (by omega), hlen]
  unfold readdirEntry
  simp only [hsum]
  exact if_neg (Nat.not_lt_of_le hle)

/-- **The loop over the entries** copies out some of what stands at the offset. -/
theorem foldlM_readdirEntry (count : Nat) (hle : current ≤ offset)
    (hsmall : current + (listing s l).length < 2 ^ 32) :
    (∃ n, (n = 0 → count = 0) ∧ offset + n ≤ current + (listing s l).length ∧
      offset < current + (listing s l).length ∧
      l.foldlM (readdirEntry s count offset) current =
        .error ((n : Int), ((listing s l).drop (offset - current)).take n)) ∨
    (current + (listing s l).length ≤ offset ∧ l.foldlM (readdirEntry s count offset) current =
      .ok (current + (listing s l).length)) := by
  induction l generalizing current with
  | nil => exact .inr ⟨hle, rfl⟩
  | cons e l ih =>
    rw [listing_cons, List.length_append] at hsmall ⊢
    rw [List.foldlM_cons]
    by_cases hlt : offset < current + (s.entries e).text.length
    · rw [readdirEntry_here hle hlt (by omega)]
      refine .inl ⟨min count (current + (s.entries e).text.length - offset), by omega, by omega,
        by omega, ?_⟩
      · have hrest : offset - current ≤ (s.entries e).text.length := by omega
        rw [List.drop_append_of_le_length hrest, List.take_append_of_le_length]
        · rfl
        · rw [List.length_drop]
          omega
    · have hge := Nat.le_of_not_lt hlt
      rw [readdirEntry_before hge (by omega)]
      rcases ih hge (by omega) with ⟨n, h0, hn, hin, hr⟩ | ⟨hout, hr⟩
      · refine .inl ⟨n, h0, by omega, by omega, hr.trans ?_⟩
        have hpast : (s.entries e).text.length ≤ offset - current := by omega
        rw [List.drop_append, List.drop_eq_nil_of_le hpast, List.nil_append, Nat.sub_sub]
      · exact .inr ⟨by omega, hr.trans (congrArg _ (Nat.add_assoc _ _ _))⟩

/-- The loop, from the head of the ring. -/
theorem NodeOk.readdir_eq (h : NodeOk s role l d) (htype : (s.inodes d).type = .directory)
    (count offset : Nat) :
    ramfsReaddir s d count offset =
      match l.foldlM (readdirEntry s count offset) 0 with
      | .error r => some r
      | .ok _ => some (0, []) := by
  have hlen := h.length_le
  have hring := h.ring
  have hhead := h.head
  unfold ramfsReaddir
  simp only [h.self]
  rw [if_neg (not_not.mpr htype)]
  cases l with
  | nil => exact if_pos hhead
  | cons a l =>
    have ha : (s.inodes d).entries = a := hhead
    have hne : a ≠ 0 := Nat.ne_of_gt (h.live a List.mem_cons_self).pos
    rw [ha, if_neg hne, hring.walk_eq (Nat.lt_of_succ_le hlen)]
    cases (a :: l).foldlM (readdirEntry s count offset) 0 with
    | error r => rfl
    | ok c => rfl

/-- **`ramfs_readdir` returns** for every offset and buffer. -/
theorem NodeOk.readdir_isSome (h : NodeOk s role l d) (count offset : Nat) :
    ∃ r, ramfsReaddir s d count offset = some r := by
  by_cases htype : (s.inodes d).type = .directory
  · rw [h.readdir_eq htype]
    cases l.foldlM (readdirEntry s count offset) 0 with
    | error r => exact ⟨r, rfl⟩
    | ok c => exact ⟨_, rfl⟩
  · unfold ramfsReaddir
    exact ⟨_, if_pos htype⟩

/-- With room for at least a byte the calls read the names. -/
theorem NodeOk.reads (h : NodeOk s role l d) (htype : (s.inodes d).type = .directory)
    (hsmall : (listing s l).length < 2 ^ 32) {counts : Nat → Nat} (hcounts : ∀ k, 1 ≤ counts k) :
    Reads (fun k => ramfsReaddir s d (counts k)) (listing s l) := by
  have hsmall' : 0 + (listing s l).length < 2 ^ 32 := by omega
  refine ⟨fun k offset hlt => ?_, fun k => ?_⟩
  · simp only [h.readdir_eq htype]
    rcases foldlM_readdirEntry (counts k) (Nat.zero_le offset) hsmall' with
      ⟨n, h0, hn, -, hr⟩ | ⟨hout, -⟩
    · have hcount := hcounts k
      exact ⟨n, by omega, by omega, by rw [hr]; rfl⟩
    · omega
  · simp only [h.readdir_eq htype]
    rcases foldlM_readdirEntry (counts k) (Nat.zero_le (listing s l).length) hsmall' with
      ⟨n, -, -, hin, -⟩ | ⟨-, hr⟩
    · omega
    · rw [hr]

/-- **The names of a directory are streamed** in the order of the ring, with no byte
lost or repeated, whatever the sizes of the buffers are; and every call returns. -/
theorem readdir_streams (hm : RamfsReach m) (hd : LiveInode m.fs d)
    (htype : (m.fs.inodes d).type = .directory) :
    (∃ l, EntryRing m.fs d l ∧ ((listing m.fs l).length < 2 ^ 31 →
      ∀ counts : Nat → Nat, (∀ k, 1 ≤ counts k) → ∀ out,
        Streams (fun k => ramfsReaddir m.fs d (counts k)) 0 0 out ↔ out = listing m.fs l)) ∧
    ∀ count offset, ∃ r, ramfsReaddir m.fs d count offset = some r := by
  obtain ⟨q, role, h⟩ := hm.whole
  have hn := h.forest.node d hd
  refine ⟨⟨q d, ⟨hn.ring, hn.head, hn.live⟩, fun hsmall counts hcounts out => ?_⟩,
    hn.readdir_isSome⟩
  exact (hn.reads htype (by omega) hcounts).streams_iff (Nat.zero_le _)

theorem readdir_streams_fresh :
    (∃ l, EntryRing (mountRoot freshRamfs).fs 1 l ∧
      ((listing (mountRoot freshRamfs).fs l).length < 2 ^ 31 →
        ∀ counts : Nat → Nat, (∀ k, 1 ≤ counts k) → ∀ out,
          Streams (fun k => ramfsReaddir (mountRoot freshRamfs).fs 1 (counts k)) 0 0 out ↔
            out = listing (mountRoot freshRamfs).fs l)) ∧
    ∀ count offset, ∃ r, ramfsReaddir (mountRoot freshRamfs).fs 1 count offset = some r :=
  readdir_streams reach_fresh liveInode_freshRoot (by decide)

/-- Offset 2 is the start of the second name of the root; a buffer of two bytes takes
what there is before its NUL. -/
example : ramfsReaddir (mountRoot freshRamfs).fs 1 2 2 = some (2, [46, 46]) := by decide

end SynapseKernel.Fs
