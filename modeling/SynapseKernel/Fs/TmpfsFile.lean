import SynapseKernel.Fs.Tmpfs

/-! # A tmpfs descriptor is a cursor in an array of bytes

`ByteFile` is the array with the cursor. Reads, writes and seeks on a descriptor
do what they do on it (`descriptor_isCursor`), whatever of the heap is granted. -/
namespace SynapseKernel.Fs
open SynapseKernel.Word SynapseKernel.Kheap SynapseKernel.Blocks SynapseKernel.Runs

structure ByteFile where
  contents : List UInt8
  cursor : Nat

/-- Where a seek leads, if it is one. -/
def ByteFile.target (r : ByteFile) (offset whence : Int) : Option Int :=
  if whence = 0 then some offset
  else if whence = 1 then some (r.cursor + offset)
  else if whence = 2 then some (r.contents.length + offset)
  else none

def ByteFile.read (r : ByteFile) (count : Nat) : List UInt8 :=
  (r.contents.drop r.cursor).take count

def ByteFile.splice (r : ByteFile) (buf : List UInt8) : List UInt8 :=
  r.contents.take r.cursor ++ buf ++ r.contents.drop (r.cursor + buf.length)

/-- The result, what is delivered, and the next state. Only a write that makes the
array longer needs room. -/
def ByteFile.step (r : ByteFile) (room : Bool) : TmpfsOp → (Int × List UInt8) × ByteFile
  | .lseek offset whence =>
    match r.target offset whence with
    | some target => ((s32 target.toNat, []), { r with cursor := target.toNat })
    | none => ((-1, []), r)
  | .read count =>
    (((r.read count).length, r.read count), { r with cursor := r.cursor + (r.read count).length })
  | .write buf =>
    if room ∨ r.cursor + buf.length ≤ r.contents.length then
      ((buf.length, []), ⟨r.splice buf, r.cursor + buf.length⟩)
    else ((-1, []), r)

/-- Seeks stay in the array and sums of offset and count stay below `2 ^ 31`. -/
def ByteFile.InRange (r : ByteFile) : TmpfsOp → Prop
  | .lseek offset whence =>
    ∀ target ∈ r.target offset whence, 0 ≤ target ∧ target ≤ r.contents.length
  | .read count => r.cursor + count < 2 ^ 31
  | .write buf => r.cursor + buf.length < 2 ^ 31

/-- The contents of the file behind a descriptor. -/
def Tmpfs.contents (s : Tmpfs) (fd : Int) : List UInt8 :=
  slice (s.bytes (s.inodes (s.file fd)).data) 0 (s.inodes (s.file fd)).size

/-- A step of tmpfs and of the array beside it. -/
def pairStep (fd : Int) (p : Tmpfs × ByteFile) (op : TmpfsOp) : Tmpfs × ByteFile :=
  (tmpfsNext fd p.1 op, (p.2.step (p.1.heap.grants p.1.heap.requests) op).2)

/-- Contents, size, offset and the results of every next operation are the same. -/
structure SameFile (fd : Int) (p : Tmpfs × ByteFile) : Prop where
  contents : p.1.contents fd = p.2.contents
  size : (p.1.inodes (p.1.file fd)).size = p.2.contents.length
  offset : p.1.offset fd = p.2.cursor
  results : ∀ op, p.2.InRange op →
    ((tmpfsStep fd p.1 op).1, (tmpfsStep fd p.1 op).2.1) =
      (p.2.step (p.1.heap.grants p.1.heap.requests) op).1

variable {s s' : Tmpfs} {r : ByteFile} {fd : Int} {op : TmpfsOp}

/-- The descriptor is in the file and agrees with the array. -/
structure Agrees (s : Tmpfs) (fd : Int) (r : ByteFile) : Prop where
  isOpen : OpenFile s fd
  contents : s.contents fd = r.contents
  offset : s.offset fd = r.cursor
  inside : r.cursor ≤ r.contents.length
  empty : (s.inodes (s.file fd)).data = 0 → (s.inodes (s.file fd)).size = 0

theorem Agrees.size (h : Agrees s fd r) :
    (s.inodes (s.file fd)).size = r.contents.length := by
  rw [← h.contents, Tmpfs.contents, length_slice]

/-- The results agree and so do the states after. -/
def InStep (s : Tmpfs) (fd : Int) (r : ByteFile) (op : TmpfsOp) : Prop :=
  ((tmpfsStep fd s op).1, (tmpfsStep fd s op).2.1) =
      (r.step (s.heap.grants s.heap.requests) op).1 ∧
    Agrees (tmpfsNext fd s op) fd (r.step (s.heap.grants s.heap.requests) op).2

theorem toWord_add {a : Nat} {n target : Int} (ht : (a : Int) + n = target) (h0 : 0 ≤ target)
    (hlt : target < 2 ^ 32) : u32 (a + toWord n) = target.toNat := by
  rw [u32, toWord]
  omega

/-- The cursor moves, the file stays. -/
theorem Agrees.setOffset (h : Agrees s fd r) {target : Nat} (ht : target ≤ r.contents.length) :
    Agrees (s.setOffset fd target) fd { r with cursor := target } := by
  obtain ⟨hk, hoffset⟩ := kept_setOffset s fd target
  have hsize := h.isOpen.size
  rw [h.size] at hsize
  have hword : (s.setOffset fd target).offset fd < 2 ^ 32 := by
    rw [hoffset]
    omega
  refine ⟨h.isOpen.of_kept hk h.isOpen.size hword, ?_, hoffset, ht, ?_⟩
  · rw [Tmpfs.contents, hk.file]
    exact h.contents
  · rw [hk.file]
    exact h.empty

theorem Agrees.seek (h : Agrees s fd r) {offset whence : Int}
    (hr : r.InRange (.lseek offset whence)) : InStep s fd r (.lseek offset whence) := by
  have hsize := h.isOpen.size
  rw [h.size] at hsize
  -- one branch of the switch
  have hbranch : ∀ (a : Nat), r.target offset whence = some ((a : Int) + offset) →
      tmpfsStep fd s (.lseek offset whence) =
        (s32 (u32 (a + toWord offset)), [], s.setOffset fd (u32 (a + toWord offset))) →
      InStep s fd r (.lseek offset whence) := by
    intro a htarget hstep
    obtain ⟨h0, hle⟩ := hr _ htarget
    rw [toWord_add rfl h0 (by omega)] at hstep
    rw [InStep, tmpfsNext, hstep, ByteFile.step, htarget]
    exact ⟨rfl, h.setOffset (by omega)⟩
  have hopen := h.isOpen.isOpen
  by_cases h0 : whence = 0
  · refine hbranch 0 ?_ ?_
    · rw [ByteFile.target, if_pos h0, Int.natCast_zero, Int.zero_add]
    · rw [tmpfsStep, lseek, if_pos hopen]
      rw [Nat.zero_add, u32_of_lt (toWord_lt _)]
      simp only [if_pos h0]
  by_cases h1 : whence = 1
  · refine hbranch r.cursor ?_ ?_
    · rw [ByteFile.target, if_neg h0, if_pos h1]
    · rw [tmpfsStep, lseek, if_pos hopen, ← h.offset]
      simp only [if_neg h0, if_pos h1]
  by_cases h2 : whence = 2
  · refine hbranch r.contents.length ?_ ?_
    · rw [ByteFile.target, if_neg h0, if_neg h1, if_pos h2]
    · rw [tmpfsStep, lseek, if_pos hopen, ← h.size]
      simp only [if_neg h0, if_neg h1, if_pos h2]
  · have hnone : r.target offset whence = none := by
      rw [ByteFile.target, if_neg h0, if_neg h1, if_neg h2]
    rw [InStep, tmpfsNext, tmpfsStep, lseek, if_pos hopen, ByteFile.step, hnone]
    simp only [if_neg h0, if_neg h1, if_neg h2]
    exact ⟨trivial, h⟩

theorem advance_of_lt {n : Nat} (h : s.offset fd + n < 2 ^ 32) :
    advance s fd n = s.setOffset fd (s.offset fd + n) ∨ n = 0 ∧ advance s fd n = s := by
  rw [advance]
  by_cases hn : 0 < (n : Int)
  · rw [if_pos hn, Int.toNat_natCast]
    exact .inl (by rw [u32_of_lt h])
  · rw [if_neg hn]
    exact .inr ⟨by omega, rfl⟩

theorem Agrees.advance (h : Agrees s fd r) {n : Nat} (hn : r.cursor + n ≤ r.contents.length) :
    Agrees (advance s fd n) fd { r with cursor := r.cursor + n } := by
  have hsize := h.isOpen.size
  rw [h.size] at hsize
  have hoffset := h.offset
  rcases @advance_of_lt s fd n (by omega) with ha | ⟨rfl, ha⟩ <;> rw [ha]
  · rw [hoffset]
    exact h.setOffset hn
  · exact h

theorem Agrees.read (h : Agrees s fd r) {count : Nat} (hr : r.InRange (.read count)) :
    InStep s fd r (.read count) := by
  have hr : r.cursor + count < 2 ^ 31 := hr
  have hinside := h.inside
  set data := (s.inodes (s.file fd)).data
  have hread : r.read count =
      slice (s.bytes data) r.cursor (min count (r.contents.length - r.cursor)) := by
    have hcontents : r.contents = slice (s.bytes data) 0 r.contents.length := by
      rw [← h.size]
      exact h.contents.symm
    rw [ByteFile.read, hcontents, length_slice, drop_slice hinside, Nat.zero_add, take_slice_min]
  have hlen : (r.read count).length = min count (r.contents.length - r.cursor) := by
    rw [hread, length_slice]
  have hstep : tmpfsStep fd s (.read count) =
      (((r.read count).length : Int), r.read count,
        Fs.advance s fd ((r.read count).length : Int)) := by
    have hcall : tmpfsStep fd s (.read count) =
        (if IsOpen s fd then
          let read := tmpfsRead s (s.file fd) count (s.offset fd)
          (read.1, read.2.flatMap s.get, Fs.advance s fd read.1)
        else (-1, [], s)) := rfl
    rw [hcall, if_pos h.isOpen.isOpen, tmpfsRead, if_neg h.isOpen.not_refused, h.size, h.offset]
    by_cases hend : r.contents.length ≤ r.cursor
    · have h0 : (r.read count).length = 0 := by omega
      rw [if_pos hend, List.length_eq_zero_iff.mp h0]
      rfl
    · have hcount : (if r.contents.length < u32 (r.cursor + count) then
          r.contents.length - r.cursor else count) = (r.read count).length := by
        rw [u32_of_lt (by omega), hlen]
        split <;> omega
      have hget : s.get ⟨data, r.cursor, (r.read count).length⟩ = r.read count := by
        rw [Tmpfs.get, hlen, ← hread]
      rw [if_neg hend]
      simp only [hcount]
      rw [s32_of_lt (by omega), List.flatMap_cons, List.flatMap_nil, List.append_nil, hget]
  rw [InStep, tmpfsNext, hstep]
  exact ⟨rfl, h.advance (by omega)⟩

/-- The file after a write for which there is room. -/
theorem Agrees.store (h : Agrees s fd r) {buf : List UInt8} (hk : Kept s s' fd)
    (hfd : s'.fileDescriptors = s.fileDescriptors)
    (hsize : (s'.inodes (s.file fd)).size = max r.contents.length (r.cursor + buf.length))
    (hlt : (s'.inodes (s.file fd)).size < 2 ^ 32)
    (hempty : (s'.inodes (s.file fd)).data = 0 → (s'.inodes (s.file fd)).size = 0)
    (hbytes : ∀ k < r.contents.length,
      s'.bytes (s'.inodes (s.file fd)).data k = s.bytes (s.inodes (s.file fd)).data k) :
    Agrees ((s'.put (s'.inodes (s.file fd)).data r.cursor buf).setInode (s.file fd) fun i =>
      { i with mtime := 0 }) fd ⟨r.splice buf, r.cursor⟩ := by
  set data := (s'.inodes (s.file fd)).data
  set s'' := (s'.put data r.cursor buf).setInode (s.file fd) fun i => { i with mtime := 0 }
  have hinode : ∀ j, s''.inodes j =
      { s'.inodes j with mtime := if j = s.file fd then 0 else (s'.inodes j).mtime } :=
    s'.inodes_stored data r.cursor buf (s.file fd)
  have hk' : Kept s s'' fd := hk.trans (.of_descriptors rfl fun j => by rw [hinode])
  have hoffset : s''.offset fd = r.cursor := by
    rw [← h.offset, Tmpfs.offset, Tmpfs.offset, ← hfd]
    rfl
  have hbytes' : s''.bytes data = overwrite (s'.bytes data) r.cursor buf :=
    Function.update_self _ _ _
  have hold : slice (s'.bytes data) 0 r.contents.length = r.contents := by
    have hc := h.contents
    rw [Tmpfs.contents, h.size] at hc
    refine (slice_congr fun k hk => ?_).trans hc
    rw [Nat.zero_add]
    exact hbytes k hk
  have hcontents : s''.contents fd = r.splice buf := by
    have hslice : s''.contents fd = slice (s''.bytes data) 0 (s'.inodes (s.file fd)).size := by
      rw [Tmpfs.contents, hk'.file, hinode]
    rw [hslice, hbytes', hsize, slice_splice h.inside, hold]
    rfl
  have hlen : (s'.inodes (s.file fd)).size = (r.splice buf).length := by
    rw [← hcontents, Tmpfs.contents, length_slice, hk'.file, hinode]
  refine ⟨h.isOpen.of_kept hk' (by rw [hinode]; exact hlt) ?_, hcontents, hoffset, ?_, ?_⟩
  · rw [hoffset, ← h.offset]
    exact h.isOpen.offset
  · rw [← hlen, hsize]
    exact Nat.le_trans h.inside (Nat.le_max_left _ _)
  · rw [hk'.file, hinode]
    exact hempty

theorem ByteFile.length_splice (r : ByteFile) (buf : List UInt8) (h : r.cursor ≤ r.contents.length) :
    r.cursor + buf.length ≤ (r.splice buf).length := by
  rw [splice, List.length_append, List.length_append, List.length_take, Nat.min_eq_left h]
  exact Nat.le_add_right _ _

/-- The same for a write that takes a new block. -/
theorem Agrees.store_regrown (h : Agrees s fd r) {buf : List UInt8} {spans : List Span}
    (hr : r.cursor + buf.length < 2 ^ 31) (hlt : r.contents.length < r.cursor + buf.length)
    (hre : Regrown s s' (s.file fd) (r.cursor + buf.length) spans) :
    Agrees ((s'.put (s'.inodes (s.file fd)).data r.cursor buf).setInode (s.file fd) fun i =>
      { i with mtime := 0 }) fd ⟨r.splice buf, r.cursor⟩ := by
  have hinode : s'.inodes (s.file fd) = { s.inodes (s.file fd) with
      data := s.heap.requests + 1, size := r.cursor + buf.length } := by
    rw [hre.inodes, Function.update_self]
  refine h.store (.of_descriptors hre.fileDescriptors fun j => ?_) hre.fileDescriptors ?_ ?_ ?_ ?_
  · rw [hre.inodes]
    by_cases hj : j = s.file fd
    · rw [hj, Function.update_self]
    · rw [Function.update_of_ne hj]
  · rw [hinode, Nat.max_eq_right (Nat.le_of_lt hlt)]
  · rw [hinode]
    exact Nat.lt_trans hr (by decide)
  · rw [hinode]
    exact fun h0 => absurd h0 (Nat.succ_ne_zero _)
  · intro k hk
    have h0 : (s.inodes (s.file fd)).data ≠ 0 := by
      intro h0
      have hempty := h.empty h0
      rw [h.size] at hempty
      omega
    rw [hinode]
    exact hre.bytes h0 k (h.size ▸ hk)

theorem Agrees.write (h : Agrees s fd r) {buf : List UInt8} (hr : r.InRange (.write buf)) :
    InStep s fd r (.write buf) := by
  have hr : r.cursor + buf.length < 2 ^ 31 := hr
  have hsum : u32 (s.offset fd + buf.length) = r.cursor + buf.length := by
    rw [h.offset]
    exact u32_of_lt (by omega)
  have hcall : tmpfsStep fd s (.write buf) =
      (let w := tmpfsWrite s (s.file fd) buf (s.offset fd)
      (w.1, [], Fs.advance w.2.2 fd w.1)) := by
    rw [tmpfsStep_write, if_pos h.isOpen.isOpen]
  have hresult : s32 buf.length = buf.length := s32_of_lt (by omega)
  -- the end of a write that went through
  have hdone : ∀ spans s', (s.heap.grants s.heap.requests = true ∨
        r.cursor + buf.length ≤ r.contents.length) →
      tmpfsWrite s (s.file fd) buf (s.offset fd) = ((buf.length : Int), spans, s') →
      Agrees s' fd ⟨r.splice buf, r.cursor⟩ → InStep s fd r (.write buf) := by
    intro spans s' hroom hw ha
    rw [hw] at hcall
    rw [InStep, tmpfsNext, hcall, ByteFile.step, if_pos hroom]
    exact ⟨rfl, ha.advance (r.length_splice buf h.inside)⟩
  rw [tmpfsWrite, if_neg h.isOpen.not_refused, hsum, h.offset] at hdone hcall
  rcases growFile_cases s (s.file fd) (r.cursor + buf.length) with
    ⟨hroom, hgrow⟩ | ⟨hlt, hg, hgrow⟩ | ⟨hlt, hg, spans, s', hgrow, hre⟩
  · rw [h.size] at hroom
    refine hdone _ _ (.inr hroom) (by rw [hgrow, hresult]) ?_
    exact h.store (.refl s fd) rfl (by rw [h.size, Nat.max_eq_left hroom]) h.isOpen.size h.empty
      fun _ _ => rfl
  · rw [h.size] at hlt
    rw [hgrow] at hcall
    have hroom : ¬ (s.heap.grants s.heap.requests = true ∨
        r.cursor + buf.length ≤ r.contents.length) := by
      rw [hg, or_iff_right Bool.false_ne_true]
      exact Nat.not_le_of_lt hlt
    rw [InStep, tmpfsNext, hcall, ByteFile.step, if_neg hroom]
    obtain ⟨hopen, hinode, hregular, hsize, hoffset⟩ := h.isOpen
    exact ⟨rfl, ⟨hopen, hinode, hregular, hsize, hoffset⟩, h.contents, h.offset, h.inside, h.empty⟩
  · rw [h.size] at hlt
    exact hdone _ _ (.inl hg) (by rw [hgrow, hresult]) (h.store_regrown hr hlt hre)

/-- **A step of the descriptor** is one of the array. -/
theorem Agrees.step (h : Agrees s fd r) (hr : r.InRange op) : InStep s fd r op := by
  cases op with
  | lseek offset whence => exact h.seek hr
  | read count => exact h.read hr
  | write buf => exact h.write hr

/-! ## Runs -/

/-- What the operations of a run return and deliver. -/
def outputs (fd : Int) : Tmpfs → List TmpfsOp → List (Int × List UInt8)
  | _, [] => []
  | s, op :: ops => ((tmpfsStep fd s op).1, (tmpfsStep fd s op).2.1) ::
    outputs fd (tmpfsNext fd s op) ops

/-- All bytes that the reads of a run deliver. -/
def delivered (fd : Int) (s : Tmpfs) (ops : List TmpfsOp) : List UInt8 :=
  (outputs fd s ops).flatMap Prod.snd

theorem take_chunk (l : List UInt8) (count m : Nat) :
    l.take count ++ (l.drop (l.take count).length).take m = l.take (count + m) := by
  rw [List.take_add, List.length_take]
  by_cases h : count ≤ l.length
  · rw [Nat.min_eq_left h]
  · have hle := Nat.le_of_not_le h
    rw [Nat.min_eq_right hle, List.drop_length, List.drop_eq_nil_of_le hle]

/-- Reading on delivers what follows the cursor. -/
theorem Agrees.delivered_reads (h : Agrees s fd r) (counts : List Nat)
    (hg : Guarded (pairStep fd) (fun p op => p.2.InRange op) (s, r) (counts.map .read)) :
    delivered fd s (counts.map .read) = (r.contents.drop r.cursor).take counts.sum := by
  induction counts generalizing s r with
  | nil =>
    rw [List.sum_nil, List.take_zero]
    rfl
  | cons count counts ih =>
    obtain ⟨hr, hrest⟩ := hg
    obtain ⟨hout, hnext⟩ := h.read hr
    have hfirst : (tmpfsStep fd s (.read count)).2.1 = r.read count := congrArg Prod.snd hout
    have hcons : delivered fd s ((count :: counts).map .read) =
        (tmpfsStep fd s (.read count)).2.1 ++
          delivered fd (tmpfsNext fd s (.read count)) (counts.map .read) := rfl
    have hrec := ih hnext hrest
    rw [hcons, hfirst, hrec, List.sum_cons, ← take_chunk]
    simp only [ByteFile.step, ByteFile.read, List.drop_drop]

/-- Writing on to the end of the array appends. -/
theorem Agrees.writes (h : Agrees s fd r) (hend : r.cursor = r.contents.length)
    (bufs : List (List UInt8)) (rest : List TmpfsOp)
    (hg : Guarded (pairStep fd) (fun p op => p.2.InRange op) (s, r) (bufs.map .write ++ rest))
    (hok : ∀ o ∈ outputs fd s (bufs.map .write), o.1 ≠ -1) :
    ∃ s' r', Agrees s' fd r' ∧ r'.contents = r.contents ++ bufs.flatten ∧
      Guarded (pairStep fd) (fun p op => p.2.InRange op) (s', r') rest ∧
      delivered fd s (bufs.map .write ++ rest) = delivered fd s' rest := by
  induction bufs generalizing s r with
  | nil => exact ⟨s, r, h, (List.append_nil _).symm, hg, rfl⟩
  | cons buf bufs ih =>
    obtain ⟨hr, hrest⟩ := hg
    obtain ⟨hout, hnext⟩ := h.write hr
    obtain ⟨hsuccess, hoks⟩ := List.forall_mem_cons.mp hok
    have hresult : (tmpfsStep fd s (.write buf)).1 =
        (r.step (s.heap.grants s.heap.requests) (.write buf)).1.1 := congrArg Prod.fst hout
    have hroom : s.heap.grants s.heap.requests = true ∨
        r.cursor + buf.length ≤ r.contents.length := by
      by_contra hno
      rw [ByteFile.step, if_neg hno] at hresult
      exact hsuccess hresult
    have hsplice : r.splice buf = r.contents ++ buf := by
      rw [ByteFile.splice, hend, List.take_length, List.drop_eq_nil_of_le (Nat.le_add_right _ _),
        List.append_nil]
    have hafter : (r.step (s.heap.grants s.heap.requests) (.write buf)).2 =
        ⟨r.contents ++ buf, r.cursor + buf.length⟩ := by
      rw [ByteFile.step, if_pos hroom, hsplice]
    have hrest : Guarded (pairStep fd) (fun p op => p.2.InRange op)
        (tmpfsNext fd s (.write buf), ⟨r.contents ++ buf, r.cursor + buf.length⟩)
        (bufs.map .write ++ rest) := hafter ▸ hrest
    rw [hafter] at hnext
    have hend' : r.cursor + buf.length = (r.contents ++ buf).length := by
      rw [hend, List.length_append]
    obtain ⟨s', r', ha, hc, hg', hd⟩ := ih hnext hend' hrest hoks
    refine ⟨s', r', ha, ?_, hg', hd⟩
    rw [hc, List.flatten_cons, List.append_assoc]

/-- **A descriptor is a cursor in an array of bytes.** Contents, size, offset and
results agree in every state of a run, and what was appended to an empty file is
read back in chunks of any sizes. -/
theorem descriptor_isCursor (s : Tmpfs) (fd : Int) (h : OpenFile s fd)
    (hinside : s.offset fd ≤ (s.inodes (s.file fd)).size)
    (hempty : (s.inodes (s.file fd)).data = 0 → (s.inodes (s.file fd)).size = 0) :
    (∀ ops, Guarded (pairStep fd) (fun p op => p.2.InRange op)
        (s, ⟨s.contents fd, s.offset fd⟩) ops →
      Always (pairStep fd) (SameFile fd) (s, ⟨s.contents fd, s.offset fd⟩) ops) ∧
    (∀ (bufs : List (List UInt8)) (counts : List Nat), s.contents fd = [] → s.offset fd = 0 →
      Guarded (pairStep fd) (fun p op => p.2.InRange op) (s, ⟨s.contents fd, s.offset fd⟩)
        (bufs.map .write ++ .lseek 0 0 :: counts.map .read) →
      (∀ o ∈ outputs fd s (bufs.map .write), o.1 ≠ -1) →
      delivered fd s (bufs.map .write ++ .lseek 0 0 :: counts.map .read) =
        bufs.flatten.take counts.sum) := by
  have hlen : (s.contents fd).length = (s.inodes (s.file fd)).size := by
    rw [Tmpfs.contents, length_slice]
  have ha : Agrees s fd ⟨s.contents fd, s.offset fd⟩ := ⟨h, rfl, rfl, hlen ▸ hinside, hempty⟩
  refine ⟨fun ops hg => ?_, fun bufs counts hnil h0 hg hok => ?_⟩
  · refine hg.always (fun p => Agrees p.1 fd p.2) (fun p hp => ?_) (fun p op hp hr => ?_) ha
    · exact ⟨hp.contents, hp.size, hp.offset, fun op hr => (hp.step hr).1⟩
    · exact (hp.step hr).2
  · have hend : s.offset fd = (s.contents fd).length := by
      rw [h0, hnil]
      rfl
    obtain ⟨s', r', ha', hc, hg', hd⟩ := ha.writes hend bufs _ hg hok
    obtain ⟨hr, hreads⟩ := hg'
    obtain ⟨hout, hnext⟩ := ha'.seek hr
    have hcons : delivered fd s' (.lseek 0 0 :: counts.map .read) =
        delivered fd (tmpfsNext fd s' (.lseek 0 0)) (counts.map .read) :=
      congrArg (· ++ _) (congrArg Prod.snd hout)
    rw [hd, hcons, hnext.delivered_reads counts hreads]
    have hnil' : r'.contents = bufs.flatten := by
      rw [hc, hnil, List.nil_append]
    exact congrArg (List.take _) hnil'

/-- An empty file behind descriptor `0`. -/
def emptyFile : Tmpfs :=
  { heap := ⟨fun _ => true, fun block => block, 1, []⟩
    inodes := fun _ => ⟨0, ftRegular, 0, 0⟩
    fileDescriptors := fun _ => ⟨true, 1, 0⟩
    bytes := fun _ _ => 0 }

theorem openFile_emptyFile : OpenFile emptyFile 0 := by
  refine ⟨?_, ?_, rfl, ?_, ?_⟩ <;> decide

theorem descriptor_isCursor_emptyFile :
    delivered 0 emptyFile ([[1, 2], [3]].map .write ++ .lseek 0 0 :: [1, 5].map .read) =
      [1, 2, 3] := by
  refine (descriptor_isCursor emptyFile 0 openFile_emptyFile (by decide) (by decide)).2
    [[1, 2], [3]] [1, 5] rfl rfl ⟨?_, ?_, fun target ht => ?_, ?_, ?_, trivial⟩ (by decide)
  · exact Nat.le_of_ble_eq_true rfl
  · exact Nat.le_of_ble_eq_true rfl
  · obtain rfl := Option.some.inj ht
    exact ⟨Int.le_refl 0, Int.natCast_nonneg _⟩
  · exact Nat.le_of_ble_eq_true rfl
  · exact Nat.le_of_ble_eq_true rfl

end SynapseKernel.Fs
