import SynapseKernel.Fs.RamfsFile
import SynapseKernel.Fs.TmpfsFile
import SynapseKernel.Lib.Backing

/-! # What a file shows of the heap

`kmalloc` leaves what was in a block, and growth fills in the old bytes and the new
ones only. The files of tmpfs and of RamFS are arrays in blocks that are not
cleared: what was in the heap is seen as soon as a read comes to a position that
no write covered (`contents_sealed_iff`). -/
namespace SynapseKernel.Fs
open SynapseKernel.Word SynapseKernel.Kheap SynapseKernel.Blocks SynapseKernel.Runs
open SynapseKernel.Uncleared

/-! ## Files of tmpfs -/

/-- The states differ in what is in the heap only. -/
def Tmpfs.SameButBytes (s t : Tmpfs) : Prop := ∃ bytes, t = { s with bytes := bytes }

/-- A write that there is room for. -/
def tmpfsStored (fd : Int) (s : Tmpfs) : TmpfsOp → Option (Nat × List UInt8)
  | .write buf =>
    if s.heap.grants s.heap.requests ∨ s.offset fd + buf.length ≤ (s.inodes (s.file fd)).size then
      some (s.offset fd, buf)
    else none
  | _ => none

/-- A count that wraps the end of a read in the file is not cut off. -/
def tmpfsAsked (fd : Int) (s : Tmpfs) : TmpfsOp → Nat × Nat
  | .read count =>
    let size := (s.inodes (s.file fd)).size
    (s.offset fd,
      if size ≤ s.offset fd then 0
      else if s.offset fd + count < 2 ^ 32 then min count (size - s.offset fd)
      else count)
  | _ => (0, 0)

/-- The array of the file behind a descriptor. -/
def tmpfsBacking (fd : Int) (s : Tmpfs) : Backing UInt8 where
  contents := s.bytes
  data := (s.inodes (s.file fd)).data
  size := (s.inodes (s.file fd)).size
  handed := s.heap.requests

/-- The file behind a descriptor. -/
def tmpfsStorage (fd : Int) : Storage Tmpfs TmpfsOp Int UInt8 where
  step := tmpfsNext fd
  out s op := ((tmpfsStep fd s op).1, (tmpfsStep fd s op).2.1)
  backing := tmpfsBacking fd
  stored := tmpfsStored fd
  asked := tmpfsAsked fd

/-- Counts are words and a write does not wrap. -/
def TmpfsOp.NonWrapping (fd : Int) (s : Tmpfs) : TmpfsOp → Prop
  | .lseek _ _ => True
  | .read count => count < 2 ^ 32
  | .write buf => s.offset fd + buf.length < 2 ^ 32

/-- The descriptor is open for a file that has a block once it has a size. -/
structure Backed (s : Tmpfs) (fd : Int) : Prop where
  isOpen : OpenFile s fd
  empty : (s.inodes (s.file fd)).data = 0 → (s.inodes (s.file fd)).size = 0

variable {s s' t : Tmpfs} {fd : Int}

theorem Tmpfs.equivalence_sameButBytes : Equivalence Tmpfs.SameButBytes := by
  refine ⟨fun s => ⟨s.bytes, rfl⟩, ?_, ?_⟩
  · rintro s t ⟨bytes, rfl⟩
    exact ⟨s.bytes, rfl⟩
  · rintro s t u ⟨bytes, rfl⟩ ⟨bytes', rfl⟩
    exact ⟨bytes', rfl⟩

theorem Tmpfs.SameButBytes.growFile (h : s.SameButBytes t) (inode newSize : Nat) :
    (growFile t inode newSize).1 = (growFile s inode newSize).1 ∧
      (growFile s inode newSize).2.SameButBytes (growFile t inode newSize).2 := by
  obtain ⟨bytes, rfl⟩ := h
  by_cases hsize : (s.inodes inode).size < newSize
  · simp only [Fs.growFile, if_pos hsize]
    by_cases hnew : (s.heap.kmalloc newSize).1 = 0
    · simp only [if_pos hnew]
      exact ⟨trivial, _, rfl⟩
    · simp only [if_neg hnew]
      by_cases h0 : (s.inodes inode).data ≠ 0
      · simp only [if_pos h0]
        exact ⟨trivial, _, rfl⟩
      · simp only [if_neg h0]
        exact ⟨trivial, _, rfl⟩
  · simp only [Fs.growFile, if_neg hsize]
    exact ⟨trivial, _, rfl⟩

theorem Tmpfs.SameButBytes.advance (h : s.SameButBytes t) (fd result : Int) :
    (advance s fd result).SameButBytes (advance t fd result) := by
  obtain ⟨bytes, rfl⟩ := h
  rw [Fs.advance, Fs.advance]
  split <;> exact ⟨_, rfl⟩

theorem Tmpfs.SameButBytes.tmpfsWrite (h : s.SameButBytes t) (inode : Nat) (buf : List UInt8)
    (offset : Nat) :
    (tmpfsWrite t inode buf offset).1 = (tmpfsWrite s inode buf offset).1 ∧
      (tmpfsWrite s inode buf offset).2.2.SameButBytes (tmpfsWrite t inode buf offset).2.2 := by
  obtain ⟨hgrow, hstate⟩ := h.growFile inode (u32 (offset + buf.length))
  obtain ⟨bytes, rfl⟩ := h
  rw [Fs.tmpfsWrite, Fs.tmpfsWrite]
  by_cases hr : inode = 0 ∨ (s.inodes inode).type ≠ ftRegular
  · rw [if_pos hr, if_pos hr]
    exact ⟨rfl, _, rfl⟩
  rw [if_neg hr, if_neg hr]
  rcases hs : Fs.growFile s inode (u32 (offset + buf.length)) with ⟨result, s'⟩
  rcases ht : Fs.growFile { s with bytes := bytes } inode (u32 (offset + buf.length))
    with ⟨result', t'⟩
  rw [hs, ht] at hgrow hstate
  obtain rfl : result' = result := hgrow
  obtain ⟨bytes', rfl⟩ : Tmpfs.SameButBytes s' t' := hstate
  cases result' with
  | none => exact ⟨rfl, _, rfl⟩
  | some spans => exact ⟨rfl, _, rfl⟩

/-- **States that differ in the heap only** return the same and go on to such states. -/
theorem Tmpfs.SameButBytes.step (h : s.SameButBytes t) (fd : Int) (op : TmpfsOp) :
    (tmpfsStep fd t op).1 = (tmpfsStep fd s op).1 ∧
      (tmpfsNext fd s op).SameButBytes (tmpfsNext fd t op) := by
  cases op with
  | lseek offset whence =>
    obtain ⟨bytes, rfl⟩ := h
    rw [tmpfsNext, tmpfsNext, tmpfsStep, tmpfsStep, lseek, lseek]
    by_cases hopen : IsOpen s fd
    · rw [if_pos hopen, if_pos (show IsOpen { s with bytes := bytes } fd from hopen)]
      by_cases h0 : whence = 0
      · simp only [if_pos h0]
        exact ⟨trivial, _, rfl⟩
      by_cases h1 : whence = 1
      · simp only [if_neg h0, if_pos h1]
        exact ⟨trivial, _, rfl⟩
      by_cases h2 : whence = 2
      · simp only [if_neg h0, if_neg h1, if_pos h2]
        exact ⟨trivial, _, rfl⟩
      · simp only [if_neg h0, if_neg h1, if_neg h2]
        exact ⟨trivial, _, rfl⟩
    · rw [if_neg hopen, if_neg (show ¬ IsOpen { s with bytes := bytes } fd from hopen)]
      exact ⟨rfl, _, rfl⟩
  | read count =>
    have hadvance := h.advance fd (tmpfsRead s (s.file fd) count (s.offset fd)).1
    obtain ⟨bytes, rfl⟩ := h
    rw [tmpfsNext, tmpfsNext, tmpfsStep, tmpfsStep, read, read]
    by_cases hopen : IsOpen s fd
    · rw [if_pos hopen, if_pos (show IsOpen { s with bytes := bytes } fd from hopen)]
      exact ⟨rfl, hadvance⟩
    · rw [if_neg hopen, if_neg (show ¬ IsOpen { s with bytes := bytes } fd from hopen)]
      exact ⟨rfl, _, rfl⟩
  | write buf =>
    obtain ⟨hresult, hstate⟩ := h.tmpfsWrite (s.file fd) buf (s.offset fd)
    obtain ⟨bytes, rfl⟩ := h
    rw [tmpfsNext, tmpfsNext, tmpfsStep_write, tmpfsStep_write]
    by_cases hopen : IsOpen s fd
    · rw [if_pos hopen, if_pos (show IsOpen { s with bytes := bytes } fd from hopen)]
      have hadvance := hstate.advance fd (Fs.tmpfsWrite s (s.file fd) buf (s.offset fd)).1
      exact ⟨hresult, (congrArg (fun r => Tmpfs.SameButBytes _ (Fs.advance _ fd r)) hresult).mpr
        hadvance⟩
    · rw [if_neg hopen, if_neg (show ¬ IsOpen { s with bytes := bytes } fd from hopen)]
      exact ⟨rfl, _, rfl⟩

theorem backing_setOffset (s : Tmpfs) (fd : Int) (target : Nat) :
    tmpfsBacking fd (s.setOffset fd target) = tmpfsBacking fd s := by
  rw [tmpfsBacking, (kept_setOffset s fd target).1.file]
  rfl

theorem backing_advance (s : Tmpfs) (fd result : Int) :
    tmpfsBacking fd (advance s fd result) = tmpfsBacking fd s := by
  rw [advance]
  split
  · exact backing_setOffset s fd _
  · rfl

theorem backing_lseek (s : Tmpfs) (fd offset whence : Int) :
    tmpfsBacking fd (lseek s fd offset whence).2 = tmpfsBacking fd s := by
  rcases lseek_cases s fd offset whence with he | ⟨target, -, he⟩ <;> rw [he]
  exact backing_setOffset s fd target

theorem backing_read (s : Tmpfs) (fd : Int) (count : Nat) :
    tmpfsBacking fd (read s fd count).2.2 = tmpfsBacking fd s := by
  rw [read]
  by_cases hopen : IsOpen s fd
  · rw [if_pos hopen]
    exact backing_advance s fd _
  · rw [if_neg hopen]

/-- The bytes of a write are copied in. -/
theorem backing_stored (s : Tmpfs) (fd : Int) (data offset : Nat) (buf : List UInt8) (inode : Nat) :
    tmpfsBacking fd
        ((s.put data offset buf).setInode inode fun i => { i with mtime := 0 }) =
      { tmpfsBacking fd s with
        contents := Function.update s.bytes data (overwrite (s.bytes data) offset buf) } := by
  simp only [tmpfsBacking, Tmpfs.inodes_stored]
  rfl

/-- **A write of tmpfs** is a store or changes nothing of the file. -/
theorem Backed.write (h : Backed s fd) {buf : List UInt8}
    (hlt : s.offset fd + buf.length < 2 ^ 32) :
    tmpfsStored fd s (.write buf) = some (s.offset fd, buf) ∧
      Stores (tmpfsBacking fd s) (tmpfsBacking fd (tmpfsNext fd s (.write buf))) (s.offset fd)
        buf ∨
    tmpfsStored fd s (.write buf) = none ∧
      Keeps (tmpfsBacking fd s) (tmpfsBacking fd (tmpfsNext fd s (.write buf))) := by
  have hnext : tmpfsBacking fd (tmpfsNext fd s (.write buf)) =
      tmpfsBacking fd (tmpfsWrite s (s.file fd) buf (s.offset fd)).2.2 := by
    rw [tmpfsNext, tmpfsStep_write, if_pos h.isOpen.isOpen]
    exact backing_advance _ fd _
  rw [hnext, tmpfsWrite, if_neg h.isOpen.not_refused, u32_of_lt hlt, tmpfsStored]
  by_cases hroom : s.offset fd + buf.length ≤ (s.inodes (s.file fd)).size
  · left
    rw [if_pos (.inr hroom), growFile, if_neg (Nat.not_lt_of_le hroom)]
    simp only [backing_stored]
    refine ⟨trivial, .inPlace rfl rfl (Nat.max_eq_left hroom).symm (fun h0 => ?_) rfl⟩
    have hempty := h.empty h0
    omega
  have hsize := Nat.lt_of_not_le hroom
  cases hg : s.heap.grants s.heap.requests with
  | true =>
    left
    obtain ⟨spans, s', hgrow, hinodes, hfd, hrequests, hbytes, -⟩ := growFile_moves hsize hg
    have hfile : s'.file fd = s.file fd := by rw [Tmpfs.file, hfd]
    rw [if_pos (.inl rfl), hgrow]
    simp only [backing_stored]
    refine ⟨trivial, .moved ?_ hrequests ?_ ?_⟩
    · simp only [tmpfsBacking, hfile, hinodes, Function.update_self]
    · simp only [tmpfsBacking, hfile, hinodes, Function.update_self]
      exact (Nat.max_eq_right (Nat.le_of_lt hsize)).symm
    · simp only [hinodes, hbytes, Function.update_self, Function.update_idem]
      rfl
  | false =>
    right
    have h0 := BlockHeap.kmalloc_refused hg (s.offset fd + buf.length)
    rw [if_neg (not_or.mpr ⟨Bool.false_ne_true, hroom⟩), growFile, if_pos hsize]
    simp only [if_pos h0]
    exact ⟨trivial, rfl, rfl, rfl, s.heap.requests_le_kmalloc _⟩

/-- **A step of tmpfs** stores what is said to be stored. -/
theorem Backed.effect (h : Backed s fd) {op : TmpfsOp} (ho : op.NonWrapping fd s) :
    (∃ offset buf, tmpfsStored fd s op = some (offset, buf) ∧
      Stores (tmpfsBacking fd s) (tmpfsBacking fd (tmpfsNext fd s op)) offset buf) ∨
    tmpfsStored fd s op = none ∧ Keeps (tmpfsBacking fd s) (tmpfsBacking fd (tmpfsNext fd s op)) := by
  cases op with
  | lseek offset whence =>
    refine .inr ⟨rfl, ?_⟩
    rw [show tmpfsBacking fd (tmpfsNext fd s (.lseek offset whence)) = tmpfsBacking fd s from
      backing_lseek s fd offset whence]
    exact .refl _
  | read count =>
    refine .inr ⟨rfl, ?_⟩
    rw [show tmpfsBacking fd (tmpfsNext fd s (.read count)) = tmpfsBacking fd s from
      backing_read s fd count]
    exact .refl _
  | write buf => exact (h.write ho).imp (fun hs => ⟨_, _, hs⟩) id

theorem Backed.step (h : Backed s fd) {op : TmpfsOp} (ho : op.NonWrapping fd s) :
    Backed (tmpfsNext fd s op) fd := by
  refine ⟨h.isOpen.step op, ?_⟩
  rcases h.effect ho with ⟨offset, buf, -, hs⟩ | ⟨-, hk⟩
  · exact hs.empty h.empty
  · intro h0
    exact hk.size.trans (h.empty (hk.data.symm.trans h0))

/-- **A read of tmpfs** delivers the stretch that is said to be asked for. -/
theorem Backed.reads (h : Backed s fd) {op : TmpfsOp} (ho : op.NonWrapping fd s) :
    (tmpfsStep fd s op).2.1 =
      slice (s.bytes (s.inodes (s.file fd)).data) (tmpfsAsked fd s op).1 (tmpfsAsked fd s op).2 := by
  cases op with
  | lseek offset whence => rfl
  | write buf => rfl
  | read count =>
    have ho : count < 2 ^ 32 := ho
    have hoffset := h.isOpen.offset
    have hsize := h.isOpen.size
    rw [tmpfsStep, read, if_pos h.isOpen.isOpen, tmpfsAsked]
    simp only [tmpfsRead, if_neg h.isOpen.not_refused]
    by_cases hend : (s.inodes (s.file fd)).size ≤ s.offset fd
    · rw [if_pos hend, if_pos hend]
      rfl
    rw [if_neg hend, if_neg hend]
    have hcount : (if (s.inodes (s.file fd)).size < u32 (s.offset fd + count)
          then (s.inodes (s.file fd)).size - s.offset fd else count) =
        (if s.offset fd + count < 2 ^ 32
          then min count ((s.inodes (s.file fd)).size - s.offset fd) else count) := by
      rw [u32]
      split <;> split <;> omega
    rw [← hcount, List.flatMap_cons, List.flatMap_nil, List.append_nil]
    rfl

theorem lawful_tmpfsStorage (fd : Int) : (tmpfsStorage fd).Lawful Tmpfs.SameButBytes
    (fun s => Backed s fd) (fun s op => op.NonWrapping fd s) where
  inv s op h ho := h.step ho
  effect s op h ho := h.effect ho
  reads s op h ho := h.reads ho
  twin_inv := by
    rintro s t ⟨bytes, rfl⟩ ⟨⟨hopen, hinode, hregular, hsize, hoffset⟩, hempty⟩
    exact ⟨⟨hopen, hinode, hregular, hsize, hoffset⟩, hempty⟩
  twin_ok := by
    rintro s t op ⟨bytes, rfl⟩ ho
    exact ho
  twin_stored := by
    rintro s t op ⟨bytes, rfl⟩
    rfl
  twin_asked := by
    rintro s t op ⟨bytes, rfl⟩
    rfl
  twin_out s t op h := (h.step fd op).1
  twin_step s t op h := (h.step fd op).2

/-! ## Files of RamFS -/

def Ramfs.SameButBytes (s t : Ramfs) : Prop := ∃ bytes, t = { s with bytes := bytes }

/-- What a read or a write of the file returns and leaves. -/
def fileCall (file : RamfsFile) (s : Ramfs) : FileOp → (Int × List UInt8) × Ramfs
  | .read count offset => (ramfsRead s file count offset, s)
  | .write buf offset =>
    let (result, s) := ramfsWrite s file buf offset
    ((result, []), s)

/-- A write that there is room for. The capacity for one that ends in the last page of
the address space wraps to `0`, which is refused. -/
def ramfsStored (file : RamfsFile) (s : Ramfs) : FileOp → Option (Nat × List UInt8)
  | .read _ _ => none
  | .write buf offset =>
    if offset + buf.length + 4095 < 2 ^ 32 ∧ s.heap.grants s.heap.requests ∨
        offset + buf.length ≤ (s.inodes file.inode).dataCapacity then some (offset, buf)
    else none

def ramfsAsked (file : RamfsFile) (s : Ramfs) : FileOp → Nat × Nat
  | .read count offset => (offset, min count ((s.inodes file.inode).dataSize - offset))
  | .write _ _ => (0, 0)

/-- The array of the file. -/
def ramfsBacking (file : RamfsFile) (s : Ramfs) : Backing UInt8 where
  contents := s.bytes
  data := (s.inodes file.inode).data
  size := (s.inodes file.inode).dataSize
  handed := s.heap.requests

def ramfsStorage (file : RamfsFile) : Storage Ramfs FileOp Int UInt8 where
  step s op := (fileCall file s op).2
  out s op := (fileCall file s op).1
  backing := ramfsBacking file
  stored := ramfsStored file
  asked := ramfsAsked file

def FileOp.NonWrapping : FileOp → Prop
  | .read _ _ => True
  | .write buf offset => offset + buf.length < 2 ^ 32

/-- A regular file without a block has no room. -/
structure PlainFile (s : Ramfs) (i : Nat) : Prop where
  type : (s.inodes i).type = .regular
  self : (s.inodes i).privateData = i
  empty : (s.inodes i).data = 0 → (s.inodes i).dataCapacity = 0

/-- A regular file as `ramfs_alloc_inode` leaves it. -/
structure NewFile (s : Ramfs) (i : Nat) : Prop where
  type : (s.inodes i).type = .regular
  self : (s.inodes i).privateData = i
  data : (s.inodes i).data = 0
  dataSize : (s.inodes i).dataSize = 0
  dataCapacity : (s.inodes i).dataCapacity = 0

theorem newFile_ramfsAllocInode (s : Ramfs) (h0 : (ramfsAllocInode s .regular).1 ≠ 0) :
    NewFile (ramfsAllocInode s .regular).2 (ramfsAllocInode s .regular).1 := by
  rw [ramfsAllocInode] at h0 ⊢
  by_cases hnew : (s.heap.kmalloc ramfsInodeSize).1 = 0
  · simp only [if_pos hnew] at h0
    exact absurd rfl h0
  · simp only [if_neg hnew]
    refine ⟨?_, ?_, ?_, ?_, ?_⟩ <;> simp only [Function.update_self]

variable {r r' u : Ramfs} {file : RamfsFile}

theorem Ramfs.equivalence_sameButBytes : Equivalence Ramfs.SameButBytes := by
  refine ⟨fun s => ⟨s.bytes, rfl⟩, ?_, ?_⟩
  · rintro s t ⟨bytes, rfl⟩
    exact ⟨s.bytes, rfl⟩
  · rintro s t u ⟨bytes, rfl⟩ ⟨bytes', rfl⟩
    exact ⟨bytes', rfl⟩

theorem Ramfs.SameButBytes.growData (h : r.SameButBytes u) (i newSize : Nat) :
    (growData u i newSize).1 = (growData r i newSize).1 ∧
      (growData r i newSize).2.SameButBytes (growData u i newSize).2 := by
  obtain ⟨bytes, rfl⟩ := h
  by_cases hcap : (r.inodes i).dataCapacity < newSize
  · simp only [Fs.growData, if_pos hcap]
    by_cases hnew : (r.heap.kmalloc (u32 (newSize + 4095) / 4096 * 4096)).1 = 0
    · simp only [if_pos hnew]
      exact ⟨trivial, _, rfl⟩
    · simp only [if_neg hnew]
      by_cases h0 : (r.inodes i).data ≠ 0
      · simp only [if_pos h0]
        exact ⟨trivial, _, rfl⟩
      · simp only [if_neg h0]
        exact ⟨trivial, _, rfl⟩
  · simp only [Fs.growData, if_neg hcap]
    exact ⟨trivial, _, rfl⟩

theorem Ramfs.SameButBytes.storeData (h : r.SameButBytes u) (f i : Nat) (buf : List UInt8)
    (offset newSize : Nat) :
    (storeData r f i buf offset newSize).SameButBytes (storeData u f i buf offset newSize) := by
  obtain ⟨bytes, rfl⟩ := h
  by_cases hlt : (r.inodes i).dataSize < newSize
  · simp only [Fs.storeData, if_pos hlt]
    exact ⟨_, rfl⟩
  · simp only [Fs.storeData, if_neg hlt]
    exact ⟨_, rfl⟩

theorem Ramfs.SameButBytes.ramfsWrite (h : r.SameButBytes u) (file : RamfsFile)
    (buf : List UInt8) (offset : Nat) :
    (ramfsWrite u file buf offset).1 = (ramfsWrite r file buf offset).1 ∧
      (ramfsWrite r file buf offset).2.SameButBytes (ramfsWrite u file buf offset).2 := by
  obtain ⟨hgrow, hstate⟩ :=
    h.growData (r.inodes file.inode).privateData (u32 (offset + buf.length))
  obtain ⟨bytes, rfl⟩ := h
  rw [Fs.ramfsWrite, Fs.ramfsWrite]
  by_cases htype : (r.inodes file.inode).type ≠ .regular
  · rw [if_pos htype, if_pos htype]
    exact ⟨rfl, _, rfl⟩
  rw [if_neg htype, if_neg htype]
  rcases hr : Fs.growData r (r.inodes file.inode).privateData (u32 (offset + buf.length))
    with ⟨result, r'⟩
  rcases hu : Fs.growData { r with bytes := bytes } (r.inodes file.inode).privateData
    (u32 (offset + buf.length)) with ⟨result', u'⟩
  rw [hr, hu] at hgrow hstate
  obtain rfl : result' = result := hgrow
  have hstate : Ramfs.SameButBytes r' u' := hstate
  simp only [hr, hu]
  cases result' with
  | false => exact ⟨rfl, hstate⟩
  | true => exact ⟨rfl, hstate.storeData _ _ _ _ _⟩

theorem Ramfs.SameButBytes.call (h : r.SameButBytes u) (file : RamfsFile) (op : FileOp) :
    (fileCall file u op).1.1 = (fileCall file r op).1.1 ∧
      (fileCall file r op).2.SameButBytes (fileCall file u op).2 := by
  cases op with
  | read count offset =>
    refine ⟨?_, h⟩
    obtain ⟨bytes, rfl⟩ := h
    rw [fileCall, fileCall, ramfsRead, ramfsRead]
    by_cases htype : (r.inodes file.inode).type ≠ .regular
    · rw [if_pos htype, if_pos htype]
    · rw [if_neg htype, if_neg htype]
  | write buf offset => exact h.ramfsWrite file buf offset

theorem backing_storeData (r : Ramfs) (file : RamfsFile) (buf : List UInt8)
    (offset newSize : Nat) :
    ramfsBacking file (storeData r file.inode file.inode buf offset newSize) =
      { ramfsBacking file r with
        size := max (r.inodes file.inode).dataSize newSize
        contents := Function.update r.bytes (r.inodes file.inode).data
          (overwrite (r.bytes (r.inodes file.inode).data) offset buf) } := by
  obtain ⟨-, -, -, hdata⟩ := grown_fields (r.inodes file.inode) newSize
  have hsize : (grown (r.inodes file.inode) newSize).dataSize =
      max (r.inodes file.inode).dataSize newSize := by
    rw [grown]
    by_cases hlt : (r.inodes file.inode).dataSize < newSize
    · rw [if_pos hlt, Nat.max_eq_right (Nat.le_of_lt hlt)]
    · rw [if_neg hlt, Nat.max_eq_left (Nat.le_of_not_lt hlt)]
  rw [storeData_eq, ramfsBacking]
  simp only [Function.update_self, hdata, hsize]
  rfl

theorem PlainFile.storeData {i : Nat} (h : PlainFile r i) (buf : List UInt8)
    (offset newSize : Nat) : PlainFile (storeData r i i buf offset newSize) i := by
  obtain ⟨hself, -, htype, hdata⟩ := grown_fields (r.inodes i) newSize
  have hcapacity : (grown (r.inodes i) newSize).dataCapacity = (r.inodes i).dataCapacity := by
    rw [grown]
    split <;> rfl
  rw [storeData_eq]
  refine ⟨?_, ?_, fun h0 => ?_⟩ <;> simp only [Function.update_self] at *
  · exact htype.trans h.type
  · exact hself.trans h.self
  · rw [hcapacity]
    exact h.empty (hdata ▸ h0)

/-- **A write of RamFS** is a store or changes nothing of the file. -/
theorem PlainFile.write (h : PlainFile r file.inode) {buf : List UInt8} {offset : Nat}
    (hlt : offset + buf.length < 2 ^ 32) :
    let r' := (ramfsWrite r file buf offset).2
    PlainFile r' file.inode ∧
    (ramfsStored file r (.write buf offset) = some (offset, buf) ∧
        Stores (ramfsBacking file r) (ramfsBacking file r') offset buf ∨
      ramfsStored file r (.write buf offset) = none ∧
        Keeps (ramfsBacking file r) (ramfsBacking file r')) := by
  rw [ramfsWrite, h.self, if_neg (not_not.mpr h.type), u32_of_lt hlt, ramfsStored]
  by_cases hroom : offset + buf.length ≤ (r.inodes file.inode).dataCapacity
  · have hgrow : growData r file.inode (offset + buf.length) = (true, r) :=
      if_neg (Nat.not_lt_of_le hroom)
    rw [if_pos (.inr hroom)]
    simp only [hgrow, if_true, backing_storeData]
    refine ⟨h.storeData _ _ _, .inl ⟨trivial, .inPlace rfl rfl rfl (fun h0 => ?_) rfl⟩⟩
    have hempty := h.empty h0
    omega
  have hcap := Nat.lt_of_not_le hroom
  -- a request is refused, or it is for the pages up to the end of the write
  have hround : u32 (offset + buf.length + 4095) / 4096 * 4096 ≠ 0 ↔
      offset + buf.length + 4095 < 2 ^ 32 := by
    rw [u32]
    omega
  by_cases hyes : offset + buf.length + 4095 < 2 ^ 32 ∧ r.heap.grants r.heap.requests = true
  · obtain ⟨r', hgrow, hmoved, hbytes⟩ := growData_moves hcap (hround.mpr hyes.1) hyes.2
    have hinodes := hmoved.inodes
    have hrequests : r'.heap.requests = r.heap.requests + 1 := by
      rw [hmoved.heap, ← BlockHeap.requests_kmalloc (hround.mpr hyes.1)]
      split <;> rfl
    have hplain : PlainFile r' file.inode := by
      refine ⟨?_, ?_, fun h0 => ?_⟩ <;> rw [hinodes, Function.update_self] at *
      · exact h.type
      · exact h.self
      · exact absurd h0 (Nat.succ_ne_zero _)
    rw [if_pos (.inl hyes)]
    simp only [hgrow, if_true, backing_storeData]
    refine ⟨hplain.storeData _ _ _, .inl ⟨trivial, .moved ?_ hrequests ?_ ?_⟩⟩
    · simp only [ramfsBacking, hinodes, Function.update_self]
    · simp only [ramfsBacking, hinodes, Function.update_self]
    · simp only [hinodes, hbytes, Function.update_self, Function.update_idem]
      rfl
  · have h0 : (r.heap.kmalloc (u32 (offset + buf.length + 4095) / 4096 * 4096)).1 = 0 := by
      refine BlockHeap.kmalloc_eq_zero.mpr (or_iff_not_imp_left.mpr fun hpos => ?_)
      exact Bool.eq_false_of_not_eq_true fun hg => hyes ⟨hround.mp hpos, hg⟩
    have hgrow : growData r file.inode (offset + buf.length) = (false, { r with
        heap := (r.heap.kmalloc (u32 (offset + buf.length + 4095) / 4096 * 4096)).2 }) := by
      rw [growData, if_pos hcap]
      simp only [if_pos h0]
    rw [if_neg (not_or.mpr ⟨hyes, hroom⟩)]
    simp only [hgrow]
    exact ⟨⟨h.type, h.self, h.empty⟩,
      .inr ⟨trivial, rfl, rfl, rfl, r.heap.requests_le_kmalloc _⟩⟩

/-- **A call on a file of RamFS** stores what is said to be stored. -/
theorem PlainFile.effect (h : PlainFile r file.inode) {op : FileOp} (ho : op.NonWrapping) :
    PlainFile (fileCall file r op).2 file.inode ∧
    ((∃ offset buf, ramfsStored file r op = some (offset, buf) ∧
        Stores (ramfsBacking file r) (ramfsBacking file (fileCall file r op).2) offset buf) ∨
      ramfsStored file r op = none ∧
        Keeps (ramfsBacking file r) (ramfsBacking file (fileCall file r op).2)) := by
  cases op with
  | read count offset => exact ⟨h, .inr ⟨rfl, .refl _⟩⟩
  | write buf offset =>
    obtain ⟨hplain, heffect⟩ := h.write ho
    exact ⟨hplain, heffect.imp (fun hs => ⟨_, _, hs⟩) id⟩

/-- **A read of RamFS** delivers the stretch that is said to be asked for. -/
theorem PlainFile.reads (h : PlainFile r file.inode) (op : FileOp) :
    (fileCall file r op).1.2 = slice (r.bytes (r.inodes file.inode).data)
      (ramfsAsked file r op).1 (ramfsAsked file r op).2 := by
  cases op with
  | write buf offset => rfl
  | read count offset =>
    have hcount : (if count < (if offset < (r.inodes file.inode).dataSize
          then (r.inodes file.inode).dataSize - offset else 0) then count
        else if offset < (r.inodes file.inode).dataSize
          then (r.inodes file.inode).dataSize - offset else 0) =
        min count ((r.inodes file.inode).dataSize - offset) := by
      split <;> split <;> omega
    rw [fileCall, ramfsRead, h.self, if_neg (not_not.mpr h.type), ramfsAsked, ← hcount]

theorem lawful_ramfsStorage (file : RamfsFile) : (ramfsStorage file).Lawful Ramfs.SameButBytes
    (fun s => PlainFile s file.inode) (fun _ op => op.NonWrapping) where
  inv s op h ho := (h.effect ho).1
  effect s op h ho := (h.effect ho).2
  reads s op h _ := h.reads op
  twin_inv := by
    rintro s t ⟨bytes, rfl⟩ ⟨htype, hself, hempty⟩
    exact ⟨htype, hself, hempty⟩
  twin_ok s t op _ ho := ho
  twin_stored := by
    rintro s t op ⟨bytes, rfl⟩
    rfl
  twin_asked := by
    rintro s t op ⟨bytes, rfl⟩
    rfl
  twin_out s t op h := (h.call file op).1
  twin_step s t op h := (h.call file op).2

/-! ## What is seen -/

/-- **A file of tmpfs**, from its creation on and with the offset anywhere, shows
nothing of the heap if and only if every position that is read was covered. -/
theorem tmpfs_sealed_iff {ops : List TmpfsOp} (hopen : OpenFile s fd)
    (hdata : (s.inodes (s.file fd)).data = 0) (hsize : (s.inodes (s.file fd)).size = 0)
    (hops : Guarded (tmpfsNext fd) (fun s op => op.NonWrapping fd s) s ops) :
    (tmpfsStorage fd).Sealed Tmpfs.SameButBytes 0 s ops ↔
      Guarded (tmpfsStorage fd).recordStep (tmpfsStorage fd).Covered (s, fun _ => none) ops := by
  have hbytes : (0 : UInt8) ≠ 1 := by decide
  have hbacking : ∀ bytes, (tmpfsStorage fd).backing { s with bytes := bytes } =
      ⟨bytes, 0, 0, s.heap.requests⟩ := fun bytes => by
    simp only [tmpfsStorage, tmpfsBacking, hdata, hsize]
  refine (lawful_tmpfsStorage fd).sealed_iff Tmpfs.equivalence_sameButBytes hbytes 0
    ⟨hopen, fun _ => hsize⟩ hops ?_ fun v => ⟨{ s with bytes := fun _ _ => v }, ⟨_, rfl⟩, ?_⟩
  · rintro t ⟨bytes, rfl⟩
    rw [hbacking]
    exact recorded_empty bytes 0 _
  · rw [hbacking]
    exact filled_empty (Nat.zero_le _)

/-- **A file of RamFS** likewise. -/
theorem ramfs_sealed_iff {ops : List FileOp} (h : NewFile r file.inode)
    (hops : ∀ op ∈ ops, op.NonWrapping) :
    (ramfsStorage file).Sealed Ramfs.SameButBytes 0 r ops ↔
      Guarded (ramfsStorage file).recordStep (ramfsStorage file).Covered (r, fun _ => none)
        ops := by
  have hbytes : (0 : UInt8) ≠ 1 := by decide
  have hbacking : ∀ bytes, (ramfsStorage file).backing { r with bytes := bytes } =
      ⟨bytes, 0, 0, r.heap.requests⟩ := fun bytes => by
    simp only [ramfsStorage, ramfsBacking, h.data, h.dataSize]
  refine (lawful_ramfsStorage file).sealed_iff Ramfs.equivalence_sameButBytes hbytes 0
    ⟨h.type, h.self, fun _ => h.dataCapacity⟩ (guarded_of_forall r hops) ?_
    fun v => ⟨{ r with bytes := fun _ _ => v }, ⟨_, rfl⟩, ?_⟩
  · rintro t ⟨bytes, rfl⟩
    rw [hbacking]
    exact recorded_empty bytes 0 _
  · rw [hbacking]
    exact filled_empty (Nat.zero_le _)

/-- **The contents of files are sealed off from the heap** exactly in the runs that
read no position before a write covers it. -/
theorem contents_sealed_iff (s : Tmpfs) (fd : Int) (hopen : OpenFile s fd)
    (hdata : (s.inodes (s.file fd)).data = 0) (hsize : (s.inodes (s.file fd)).size = 0)
    (ops : List TmpfsOp) (hops : Guarded (tmpfsNext fd) (fun s op => op.NonWrapping fd s) s ops)
    (r : Ramfs) (file : RamfsFile) (hnew : NewFile r file.inode)
    (calls : List FileOp) (hcalls : ∀ op ∈ calls, op.NonWrapping) :
    ((tmpfsStorage fd).Sealed Tmpfs.SameButBytes 0 s ops ↔
      Guarded (tmpfsStorage fd).recordStep (tmpfsStorage fd).Covered (s, fun _ => none) ops) ∧
    ((ramfsStorage file).Sealed Ramfs.SameButBytes 0 r calls ↔
      Guarded (ramfsStorage file).recordStep (ramfsStorage file).Covered (r, fun _ => none)
        calls) :=
  ⟨tmpfs_sealed_iff hopen hdata hsize hops, ramfs_sealed_iff hnew hcalls⟩

/-- A file that was just opened. -/
def openedFile : RamfsFile := ramfsOpen 1 ⟨0, 0, 0, 0⟩

theorem newFile_fresh : NewFile (ramfsAllocInode freshRamfs .regular).2 openedFile.inode :=
  newFile_ramfsAllocInode freshRamfs (by decide)

theorem contents_sealed_iff_covered :
    (tmpfsStorage 0).Sealed Tmpfs.SameButBytes 0 emptyFile
      [.write [7, 8], .lseek 1 0, .read 9] ∧
    (ramfsStorage openedFile).Sealed Ramfs.SameButBytes 0
      (ramfsAllocInode freshRamfs .regular).2 [.write [7, 8] 0, .read 9 1] := by
  obtain ⟨htmpfs, hramfs⟩ := contents_sealed_iff emptyFile 0 openFile_emptyFile rfl rfl
    [.write [7, 8], .lseek 1 0, .read 9]
    ⟨Nat.le_of_ble_eq_true rfl, trivial, Nat.le_of_ble_eq_true rfl, trivial⟩
    (ramfsAllocInode freshRamfs .regular).2 openedFile newFile_fresh
    [.write [7, 8] 0, .read 9 1]
    (List.forall_mem_cons.mpr ⟨Nat.le_of_ble_eq_true rfl, List.forall_mem_singleton.mpr trivial⟩)
  refine ⟨htmpfs.mpr ⟨fun k hk => ?_, fun k hk => ?_, fun k hk => ?_, trivial⟩,
    hramfs.mpr ⟨fun k hk => ?_, fun k hk => ?_, trivial⟩⟩
  · exact absurd hk (Nat.not_lt_zero k)
  · exact absurd hk (Nat.not_lt_zero k)
  · obtain rfl := Nat.lt_one_iff.mp hk
    decide
  · exact absurd hk (Nat.not_lt_zero k)
  · obtain rfl := Nat.lt_one_iff.mp hk
    decide

/-- A byte past the beginning is written, then both are read. -/
theorem not_sealed_gap :
    (OpenFile emptyFile 0 ∧
      Guarded (tmpfsNext 0) (fun s op => op.NonWrapping 0 s) emptyFile
        [.lseek 1 0, .write [7], .lseek 0 0, .read 2] ∧
      ¬ (tmpfsStorage 0).Sealed Tmpfs.SameButBytes 0 emptyFile
        [.lseek 1 0, .write [7], .lseek 0 0, .read 2]) ∧
    (NewFile (ramfsAllocInode freshRamfs .regular).2 openedFile.inode ∧
      (∀ op ∈ [FileOp.write [7] 1, .read 2 0], op.NonWrapping) ∧
      ¬ (ramfsStorage openedFile).Sealed Ramfs.SameButBytes 0
        (ramfsAllocInode freshRamfs .regular).2 [.write [7] 1, .read 2 0]) := by
  refine ⟨⟨openFile_emptyFile, ⟨trivial, ?_, trivial, ?_, trivial⟩, fun h => ?_⟩,
    newFile_fresh, ?_, fun h => ?_⟩
  · exact Nat.le_of_ble_eq_true rfl
  · exact Nat.le_of_ble_eq_true rfl
  · have hsame := h.1 { emptyFile with bytes := fun _ _ => 0 }
      { emptyFile with bytes := fun _ _ => 1 } ⟨_, rfl⟩ ⟨_, rfl⟩
    revert hsame
    decide
  · refine List.forall_mem_cons.mpr ⟨?_, List.forall_mem_singleton.mpr trivial⟩
    exact Nat.le_of_ble_eq_true rfl
  · have hsame := h.1 { (ramfsAllocInode freshRamfs .regular).2 with bytes := fun _ _ => 0 }
      { (ramfsAllocInode freshRamfs .regular).2 with bytes := fun _ _ => 1 } ⟨_, rfl⟩ ⟨_, rfl⟩
    revert hsame
    decide

end SynapseKernel.Fs
