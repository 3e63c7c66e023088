import SynapseKernel.Fs.RamfsDirectory

/-! # A regular file of a RamFS is a growable array of bytes

`Reference` keeps, of the successful writes, the byte that was last written at
each position and how far they reached. A file agrees with it from its creation
on, whatever of the heap is granted (`file_isArray`). -/
namespace SynapseKernel.Fs
open SynapseKernel.Word SynapseKernel.Kheap SynapseKernel.Blocks SynapseKernel.Runs

structure Reference where
  last : Nat → Option UInt8
  size : Nat

/-- No write yet. -/
def Reference.empty : Reference := ⟨fun _ => none, 0⟩

def Reference.write (r : Reference) (buf : List UInt8) (offset : Nat) : Reference :=
  { last := overwrite r.last offset (buf.map some), size := max r.size (offset + buf.length) }

inductive FileOp
  | read (count offset : Nat)
  | write (buf : List UInt8) (offset : Nat)

def FileOp.InRange : FileOp → Prop
  | .read count offset => offset + count < 2 ^ 31
  | .write buf offset => offset + buf.length < 2 ^ 31

/-- A write that returned a count is one for the reference too. -/
def fileStep (file : RamfsFile) (t : Ramfs × Reference) : FileOp → Ramfs × Reference
  | .read _ _ => t
  | .write buf offset =>
    let (result, s) := ramfsWrite t.1 file buf offset
    (s, if result < 0 then t.2 else t.2.write buf offset)

/-- The file is what the reference says, to every next operation as well. -/
structure FileAgrees (file : RamfsFile) (t : Ramfs × Reference) : Prop where
  dataSize : (t.1.inodes file.inode).dataSize = t.2.size
  size : (t.1.inodes file.inode).size = t.2.size
  capacity : (t.1.inodes file.inode).dataSize ≤ (t.1.inodes file.inode).dataCapacity
  covered : ∀ k b, t.2.last k = some b → k < t.2.size
  read : ∀ count offset, (FileOp.read count offset).InRange →
    ∃ buf, ramfsRead t.1 file count offset = ((buf.length : Int), buf) ∧
      buf.length = min count (t.2.size - offset) ∧
      ∀ k b, k < count → t.2.last (offset + k) = some b → buf[k]? = some b
  write : ∀ buf offset, (FileOp.write buf offset).InRange →
    ∃ result s', ramfsWrite t.1 file buf offset = (result, s') ∧
      (result = buf.length ∨
        result = -1 ∧ ∃ n, s' = { t.1 with heap := (t.1.heap.kmalloc n).2 })

variable {s s' : Ramfs} {c i : Nat} {r : Reference} {file : RamfsFile}

/-- What the operations keep of the inode of a file. -/
structure FileOk (s : Ramfs) (i : Nat) (r : Reference) : Prop where
  type : (s.inodes i).type = .regular
  self : (s.inodes i).privateData = i
  size : (s.inodes i).size = (s.inodes i).dataSize
  reached : (s.inodes i).dataSize = r.size
  capacity : (s.inodes i).dataSize ≤ (s.inodes i).dataCapacity
  none : (s.inodes i).data = 0 → (s.inodes i).dataCapacity = 0
  covered : ∀ k b, r.last k = some b →
    k < (s.inodes i).dataSize ∧ s.bytes (s.inodes i).data k = b

theorem FileOk.moved {n : Nat} (h : FileOk s i r) (hm : Moved s s' i n)
    (hn : (s.inodes i).dataSize ≤ n) : FileOk s' i r ∧ (s'.inodes i).dataCapacity = n := by
  have hinode := hm.inodes_self
  refine ⟨⟨?_, ?_, ?_, ?_, ?_, fun h0 => ?_, fun k b hk => ?_⟩, ?_⟩ <;> try rw [hinode]
  · exact h.type
  · exact h.self
  · exact h.size
  · exact h.reached
  · exact hn
  · rw [hinode] at h0
    exact absurd h0 (Nat.succ_ne_zero _)
  · obtain ⟨hlt, hbyte⟩ := h.covered k b hk
    refine ⟨hlt, ?_⟩
    by_cases h0 : (s.inodes i).data = 0
    · have hempty := h.capacity
      rw [h.none h0] at hempty
      exact absurd hlt (Nat.not_lt_of_le (Nat.le_trans hempty (Nat.zero_le k)))
    · exact (hm.bytes h0 k hlt).trans hbyte

theorem grown_size (inode : RamfsInode) (newSize : Nat) (h : inode.size = inode.dataSize) :
    (grown inode newSize).size = max inode.dataSize newSize := by
  rw [grown]
  by_cases hlt : inode.dataSize < newSize
  · rw [if_pos hlt, Nat.max_eq_right (Nat.le_of_lt hlt)]
  · rw [if_neg hlt, Nat.max_eq_left (Nat.le_of_not_lt hlt)]
    exact h

/-- **The bytes are stored** and the sizes follow. -/
theorem FileOk.store {buf : List UInt8} {offset : Nat} (h : FileOk s i r)
    (hroom : offset + buf.length ≤ (s.inodes i).dataCapacity) :
    FileOk (storeData s i i buf offset (offset + buf.length)) i (r.write buf offset) := by
  rw [storeData_eq]
  obtain ⟨hself, -, htype, hdata⟩ := grown_fields (s.inodes i) (offset + buf.length)
  obtain ⟨hdataSize, hcap⟩ := grown_data (s.inodes i) (offset + buf.length)
  have hsize := grown_size (s.inodes i) (offset + buf.length) h.size
  refine ⟨?_, ?_, ?_, ?_, ?_, fun h0 => ?_, fun k b hk => ?_⟩ <;>
    simp only [Function.update_self] at *
  · exact htype.trans h.type
  · exact hself.trans h.self
  · exact hsize.trans hdataSize.symm
  · rw [hdataSize, h.reached]
    rfl
  · rw [hdataSize, hcap]
    exact max_le h.capacity hroom
  · rw [hcap]
    exact h.none (hdata ▸ h0)
  · rw [hdataSize, hdata, Function.update_self]
    rcases overwrite_some hk with ⟨hlt, hbyte⟩ | ⟨hlast, hkeep⟩
    · exact ⟨Nat.lt_of_lt_of_le hlt (Nat.le_max_right _ _), hbyte _⟩
    · obtain ⟨hlt, hbyte⟩ := h.covered k b hlast
      exact ⟨Nat.lt_of_lt_of_le hlt (Nat.le_max_left _ _), (hkeep _).trans hbyte⟩

/-- **A write** is refused and changes nothing but the requests made of the heap,
or all of it is written. -/
theorem FileOk.write (h : FileOk s file.inode r) {buf : List UInt8} {offset : Nat}
    (hr : offset + buf.length < 2 ^ 31) :
    (∃ n, ramfsWrite s file buf offset = (-1, { s with heap := (s.heap.kmalloc n).2 })) ∨
    ∃ s', ramfsWrite s file buf offset = ((buf.length : Int), s') ∧
      FileOk s' file.inode (r.write buf offset) := by
  have hsize : u32 (offset + buf.length) = offset + buf.length := u32_of_lt (by omega)
  have hcount : s32 buf.length = buf.length := s32_of_lt (by omega)
  rw [ramfsWrite, h.self, if_neg (not_not.mpr h.type), hsize]
  rcases growData_cases s file.inode (offset + buf.length) with
    ⟨hroom, hgrow⟩ | ⟨-, -, hgrow⟩ | ⟨hlt, -, -, s₁, hgrow, hmoved⟩
  · simp only [hgrow, if_true, hcount]
    exact .inr ⟨_, rfl, h.store hroom⟩
  · simp only [hgrow]
    exact .inl ⟨_, rfl⟩
  · simp only [hgrow, if_true, hcount]
    have hn : offset + buf.length ≤ u32 (offset + buf.length + 4095) / 4096 * 4096 := by
      rw [u32_of_lt (by omega)]
      omega
    have hcap := h.capacity
    obtain ⟨h₁, hroom⟩ := h.moved hmoved (by omega)
    exact .inr ⟨_, rfl, h₁.store (hroom ▸ hn)⟩

/-- **A read** returns what there is. -/
theorem FileOk.read (h : FileOk s file.inode r) {count offset : Nat}
    (hr : offset + count < 2 ^ 31) :
    ramfsRead s file count offset = (((min count (r.size - offset) : Nat) : Int),
      slice (s.bytes (s.inodes file.inode).data) offset (min count (r.size - offset))) := by
  have havailable : (if offset < (s.inodes file.inode).dataSize
      then (s.inodes file.inode).dataSize - offset else 0) = r.size - offset := by
    rw [h.reached]
    split <;> omega
  have hcount : (if count < r.size - offset then count else r.size - offset) =
      min count (r.size - offset) := by
    rw [Nat.min_def]
    split <;> split <;> omega
  rw [ramfsRead, h.self, if_neg (not_not.mpr h.type)]
  simp only [havailable, hcount]
  rw [s32_of_lt (by omega)]

theorem FileOk.agrees (h : FileOk s file.inode r) : FileAgrees file (s, r) := by
  refine ⟨h.reached, h.size.trans h.reached, h.capacity, fun k b hk => ?_,
    fun count offset hr => ?_, fun buf offset hr => ?_⟩
  · exact h.reached ▸ (h.covered k b hk).1
  · refine ⟨slice (s.bytes (s.inodes file.inode).data) offset (min count (r.size - offset)), ?_,
      length_slice, fun k b hk hb => ?_⟩
    · rw [length_slice]
      exact h.read hr
    · obtain ⟨hlt, hbyte⟩ := h.covered _ b hb
      have hlen : k < (slice (s.bytes (s.inodes file.inode).data) offset
          (min count (r.size - offset))).length := by
        rw [length_slice, Nat.lt_min]
        have hreached := h.reached
        omega
      rw [List.getElem?_eq_getElem hlen, getElem_slice, hbyte]
  · rcases h.write hr with ⟨n, hcall⟩ | ⟨s', hcall, -⟩
    · exact ⟨-1, _, hcall, .inr ⟨rfl, n, rfl⟩⟩
    · exact ⟨_, s', hcall, .inl rfl⟩

/-- One operation of a file and of its reference. -/
theorem FileOk.step (h : FileOk s file.inode r) {op : FileOp} (hr : op.InRange) :
    FileOk (fileStep file (s, r) op).1 file.inode (fileStep file (s, r) op).2 := by
  cases op with
  | read count offset => exact h
  | write buf offset =>
    rw [fileStep]
    rcases h.write hr with ⟨n, hcall⟩ | ⟨s', hcall, h'⟩
    · rw [hcall]
      exact ⟨h.type, h.self, h.size, h.reached, h.capacity, h.none, h.covered⟩
    · have hsign : ¬ (buf.length : Int) < 0 := by omega
      simp only [hcall, if_neg hsign]
      exact h'

/-- A file just created. -/
theorem Forest.fileOk {q : Nat → List Nat} {role : Nat → Role} {d : Nat} {name : FileName}
    (h : Forest s q role) (hd : LiveInode s d)
    (hc : ramfsCreate s d name .regular = some (c, s')) (h0 : c ≠ 0) :
    FileOk s' c Reference.empty := by
  by_cases hname : (s.inodes d).type ≠ .directory ∨ ∃ e ∈ q d, (s.entries e).name = name
  · rw [ramfsCreate_refused h hd hname] at hc
    exact absurd (congrArg Prod.fst (Option.some.inj hc)).symm h0
  obtain ⟨htype, hname⟩ := not_or.mp hname
  have habsent : ∀ e ∈ q d, (s.entries e).name ≠ name := fun e he hen => hname ⟨e, he, hen⟩
  rcases @ramfsCreate_absent s d q role .regular name h hd (not_not.mp htype) habsent with
    ⟨-, s'', hcall, -⟩ | ⟨hg, hcall⟩ <;> rw [hcall] at hc
  · exact absurd (congrArg Prod.fst (Option.some.inj hc)).symm h0
  · obtain ⟨rfl, rfl⟩ := Prod.mk.inj (Option.some.inj hc)
    have hinode := (@created_accept s d q role .regular name h hd habsent hg).inode
    refine ⟨?_, ?_, ?_, ?_, ?_, fun _ => ?_, fun k b hk => nomatch hk⟩ <;> rw [hinode] <;> rfl

/-- **A regular file is a growable array of bytes**, from its creation in any state
of a run, for every sequence of reads and writes and whatever of the heap is granted. -/
theorem file_isArray (s : Ramfs) (hs : s.heap.Sane) (hm : s.made = []) (hd : s.dots = [])
    (h0 : (ramfsCreateRoot s).1 ≠ 0) (ops : List RamfsOp)
    (hops : Guarded mountStep (fun m op => ∀ m', m = some m' → Careful m'.fs op)
      (some (mountRoot s)) ops) :
    Always mountStep (Mounted fun m => ∀ d name c s', LiveInode m.fs d →
      ramfsCreate m.fs d name .regular = some (c, s') → c ≠ 0 →
      ∀ file : RamfsFile, file.inode = c → ∀ fileOps : List FileOp,
        (∀ op ∈ fileOps, op.InRange) →
        Always (fileStep file) (FileAgrees file) (s', Reference.empty) fileOps)
      (some (mountRoot s)) ops := by
  refine hops.always (Mounted fun m => ∃ q role, Whole m q role) ?_ ?_
    ⟨_, rfl, whole_mountRoot hs hm hd h0⟩
  · rintro m ⟨m', rfl, q, role, h⟩
    refine ⟨m', rfl, ?_⟩
    rintro d name c s' hl hc hc0 file rfl fileOps hrange
    refine (guarded_of_forall (s', Reference.empty) hrange).always
      (fun t => FileOk t.1 file.inode t.2) (fun t ht => ht.agrees) (fun t op ht hr => ht.step hr) ?_
    exact h.forest.fileOk hl hc hc0
  · rintro m op ⟨m', rfl, q, role, h⟩ hok
    obtain ⟨m'', hstep, hc⟩ := h.step (h.forest.sound (hok m' rfl))
    exact ⟨m'', hstep, hc.whole⟩

theorem file_isArray_fresh :
    Always mountStep (Mounted fun m => ∀ d name c s', LiveInode m.fs d →
      ramfsCreate m.fs d name .regular = some (c, s') → c ≠ 0 →
      ∀ file : RamfsFile, file.inode = c → ∀ fileOps : List FileOp,
        (∀ op ∈ fileOps, op.InRange) →
        Always (fileStep file) (FileAgrees file) (s', Reference.empty) fileOps)
      (some (mountRoot freshRamfs)) [.create 1 ⟨[97], by decide⟩ .regular] := by
  refine file_isArray freshRamfs (fun p hp => nomatch hp) rfl rfl (by decide) _
    ⟨fun m' h => ?_, trivial⟩
  obtain rfl := Option.some.inj h
  have hfits : ([97] : List UInt8).length ≤ 255 := by decide
  exact ⟨liveInode_freshRoot, hfits⟩

end SynapseKernel.Fs
