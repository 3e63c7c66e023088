import SynapseKernel.Lib.Blocks
import SynapseKernel.Lib.Ring
import SynapseKernel.Lib.Search
import SynapseKernel.Mm.BlockHeap
import SynapseKernel.Str.CString

/-! # RamFS (kernel/fs/ramfs.c)

Inodes, directory entries and file data are heap blocks, named by number as in
`Kheap.BlockHeap`; an `inode_t*` is the pointer to the `ramfs_inode_t` it is the
first field of. The entries of a directory form a ring. Loops are given one
round for every block of the heap, and `none` is a loop that needs more. -/
namespace SynapseKernel.Fs
open SynapseKernel.Word SynapseKernel.Kheap SynapseKernel.Blocks SynapseKernel.Str

/-- `file_type_t`. -/
inductive FileType
  | regular
  | directory
  | charDevice
  | blockDevice
  | symlink
  | socket
  | fifo
deriving DecidableEq, Repr

/-- What `strcpy` can put into `char name[256]` without running over its end. -/
structure FileName extends CString where
  fits : bytes.length ≤ 255
deriving DecidableEq

theorem FileName.toCString_inj {a b : FileName} (h : a.toCString = b.toCString) : a = b := by
  cases a
  cases b
  cases h
  rfl

def dotName : FileName := ⟨⟨[46], by decide⟩, by decide⟩

def dotdotName : FileName := ⟨⟨[46, 46], by decide⟩, by decide⟩

/-- `ramfs_inode_t` with the `inode_t` it starts with. -/
structure RamfsInode where
  inode : Nat
  type : FileType
  size : Nat
  permissions : Nat
  uid : Nat
  gid : Nat
  atime : Nat
  mtime : Nat
  ctime : Nat
  privateData : Nat
  entries : Nat
  data : Nat
  dataSize : Nat
  dataCapacity : Nat

/-- `ramfs_dir_entry_t`. -/
structure RamfsDirEntry where
  name : FileName
  inode : Nat
  next : Nat
  prev : Nat

/-- The statics of ramfs.c, the heap and what is in its blocks. The last two
fields are not in the source: the inodes made so far, and the entries made as
`.` or `..` of a directory. -/
structure Ramfs where
  heap : BlockHeap
  inodes : Nat → RamfsInode
  entries : Nat → RamfsDirEntry
  bytes : Nat → Nat → UInt8
  nextInode : Nat
  made : List Nat
  dots : List Nat

/-- An assignment to fields of `*inode`. -/
def Ramfs.setInode (s : Ramfs) (inode : Nat) (f : RamfsInode → RamfsInode) : Ramfs :=
  { s with inodes := Function.update s.inodes inode (f (s.inodes inode)) }

/-- An assignment to fields of `*entry`. -/
def Ramfs.setEntry (s : Ramfs) (entry : Nat) (f : RamfsDirEntry → RamfsDirEntry) : Ramfs :=
  { s with entries := Function.update s.entries entry (f (s.entries entry)) }

def Ramfs.kfree (s : Ramfs) (block : Nat) : Ramfs := { s with heap := s.heap.kfree block }

abbrev Ramfs.next (s : Ramfs) (entry : Nat) : Nat := (s.entries entry).next

abbrev Ramfs.prev (s : Ramfs) (entry : Nat) : Nat := (s.entries entry).prev

def Ramfs.setNext (s : Ramfs) (entry next : Nat) : Ramfs :=
  s.setEntry entry fun e => { e with next := next }

def Ramfs.setPrev (s : Ramfs) (entry prev : Nat) : Ramfs :=
  s.setEntry entry fun e => { e with prev := prev }

def Ramfs.setHead (s : Ramfs) (dirInode entry : Nat) : Ramfs :=
  s.setInode dirInode fun i => { i with entries := entry }

abbrev ramfsInodeSize : Nat := 56
abbrev ramfsDirEntrySize : Nat := 268

/-! ## Inodes and entries -/

def ramfsAllocInode (s : Ramfs) (type : FileType) : Nat × Ramfs :=
  let (ramfsInode, heap) := s.heap.kmalloc ramfsInodeSize
  if ramfsInode = 0 then (0, { s with heap := heap })
  else
    (ramfsInode, { s with
      heap := heap
      inodes := Function.update s.inodes ramfsInode
        { inode := s.nextInode, type := type, size := 0, permissions := 0o755, uid := 0, gid := 0
          atime := 0, mtime := 0, ctime := 0, privateData := ramfsInode, entries := 0, data := 0
          dataSize := 0, dataCapacity := 0 }
      nextInode := u32 (s.nextInode + 1)
      made := ramfsInode :: s.made })

/-- The entries `.` and `..` of the directory `dir`, linked to each other. -/
def linkDots (s : Ramfs) (dir parent dotEntry dotdotEntry : Nat) : Ramfs :=
  let s := s.setEntry dotEntry fun _ =>
    { name := dotName, inode := dir, next := dotdotEntry, prev := dotdotEntry }
  let s := s.setEntry dotdotEntry fun _ =>
    { name := dotdotName, inode := parent, next := dotEntry, prev := dotEntry }
  { s.setHead dir dotEntry with
    dots := dotEntry :: dotdotEntry :: s.dots }

/-- The new root, `0` when an allocation fails. -/
def ramfsCreateRoot (s : Ramfs) : Nat × Ramfs :=
  let (root, s) := ramfsAllocInode s .directory
  if root = 0 then (0, s)
  else
    let (dotEntry, heap) := s.heap.kmalloc ramfsDirEntrySize
    let (dotdotEntry, heap) := heap.kmalloc ramfsDirEntrySize
    let s := { s with heap := heap }
    if dotEntry = 0 ∨ dotdotEntry = 0 then
      (0, ((s.kfree dotEntry).kfree dotdotEntry).kfree root)
    else (root, linkDots s root root dotEntry dotdotEntry)

/-- The entry of this name, `0` if there is none. -/
def ramfsFindEntry (s : Ramfs) (dirInode : Nat) (name : CString) : Option Nat :=
  let entries := (s.inodes dirInode).entries
  if entries = 0 then some 0
  else
    match Ring.walk (Search.search fun entry => strcmp (s.entries entry).name.toCString name = 0)
        s.next entries s.heap.requests entries () with
    | none => none
    | some (.error entry) => some entry
    | some (.ok ()) => some 0

/-- The new entry goes before the first one, which stays the first. -/
def addEntry (s : Ramfs) (dir newEntry : Nat) : Ramfs :=
  let entries := (s.inodes dir).entries
  if entries ≠ 0 then
    let s := s.setNext newEntry entries
    let s := s.setPrev newEntry (s.prev entries)
    let s := s.setNext (s.prev entries) newEntry
    s.setPrev entries newEntry
  else
    let s := s.setNext newEntry newEntry
    let s := s.setPrev newEntry newEntry
    s.setHead dir newEntry

def removeEntry (s : Ramfs) (dir entry : Nat) : Ramfs :=
  let s := s.setNext (s.prev entry) (s.next entry)
  let s := s.setPrev (s.next entry) (s.prev entry)
  if (s.inodes dir).entries = entry then
    s.setHead dir (if s.next entry ≠ entry then s.next entry else 0)
  else s

/-! ## The operations on directories -/

/-- The new inode, `0` where the source returns `-1`. -/
def ramfsCreate (s : Ramfs) (parent : Nat) (name : FileName) (type : FileType) :
    Option (Nat × Ramfs) :=
  let dir := (s.inodes parent).privateData
  if (s.inodes parent).type ≠ .directory then some (0, s)
  else
    match ramfsFindEntry s dir name.toCString with
    | none => none
    | some found =>
      if found ≠ 0 then some (0, s)
      else
        let (newInode, s) := ramfsAllocInode s type
        if newInode = 0 then some (0, s)
        else
          let (newEntry, heap) := s.heap.kmalloc ramfsDirEntrySize
          let s := { s with heap := heap }
          if newEntry = 0 then some (0, s.kfree newInode)
          else
            let s := s.setEntry newEntry fun e => { e with name := name, inode := newInode }
            some (newInode, addEntry s dir newEntry)

/-- A directory for which there is no room for `.` and `..` stays behind empty. -/
def ramfsMkdir (s : Ramfs) (parent : Nat) (name : FileName) : Option (Int × Ramfs) :=
  match ramfsCreate s parent name .directory with
  | none => none
  | some (result, s) =>
    if result = 0 then some (-1, s)
    else
      let dirInode := (s.inodes result).privateData
      let (dotEntry, heap) := s.heap.kmalloc ramfsDirEntrySize
      let (dotdotEntry, heap) := heap.kmalloc ramfsDirEntrySize
      let s := { s with heap := heap }
      if dotEntry = 0 ∨ dotdotEntry = 0 then some (-1, (s.kfree dotEntry).kfree dotdotEntry)
      else some (0, linkDots s dirInode parent dotEntry dotdotEntry)

/-- `rmdir` takes the directory for nonempty. -/
def HasEntries (s : Ramfs) (dirInode : Nat) : Prop :=
  let subEntry := (s.inodes dirInode).entries
  subEntry ≠ 0 ∧
    (s.next subEntry ≠ s.prev subEntry ∨
      strcmp (s.entries subEntry).name.toCString dotName.toCString ≠ 0)

instance (s : Ramfs) (dirInode : Nat) : Decidable (HasEntries s dirInode) :=
  inferInstanceAs (Decidable (_ ∧ _))

def ramfsRmdir (s : Ramfs) (parent : Nat) (name : CString) : Option (Int × Ramfs) :=
  let dir := (s.inodes parent).privateData
  if (s.inodes parent).type ≠ .directory then some (-1, s)
  else
    match ramfsFindEntry s dir name with
    | none => none
    | some entry =>
      if entry = 0 then some (-1, s)
      else
        let inode := (s.entries entry).inode
        let dirInode := (s.inodes inode).privateData
        if (s.inodes inode).type ≠ .directory then some (-1, s)
        else if HasEntries s dirInode then some (-1, s)
        else some (0, ((removeEntry s dir entry).kfree entry).kfree dirInode)

def ramfsUnlink (s : Ramfs) (parent : Nat) (name : CString) : Option (Int × Ramfs) :=
  let dir := (s.inodes parent).privateData
  if (s.inodes parent).type ≠ .directory then some (-1, s)
  else
    match ramfsFindEntry s dir name with
    | none => none
    | some entry =>
      if entry = 0 then some (-1, s)
      else
        let inode := (s.entries entry).inode
        if (s.inodes inode).type ≠ .regular then some (-1, s)
        else
          let s := removeEntry s dir entry
          let fileInode := (s.inodes (s.entries entry).inode).privateData
          let data := (s.inodes fileInode).data
          let s := if data ≠ 0 then s.kfree data else s
          some (0, (s.kfree entry).kfree fileInode)

/-! ## The operations on files -/

/-- `file_t` without the table of operations, which is always that of RamFS. -/
structure RamfsFile where
  inode : Nat
  flags : Nat
  offset : Nat
  privateData : Nat

def ramfsOpen (inode : Nat) (file : RamfsFile) : RamfsFile :=
  { file with inode := inode, offset := 0, privateData := 0 }

/-- The result, and what is copied to the caller's buffer. -/
def ramfsRead (s : Ramfs) (file : RamfsFile) (count offset : Nat) : Int × List UInt8 :=
  let inode := s.inodes (s.inodes file.inode).privateData
  if (s.inodes file.inode).type ≠ .regular then (-1, [])
  else
    let available := if offset < inode.dataSize then inode.dataSize - offset else 0
    let readCount := if count < available then count else available
    (s32 readCount, slice (s.bytes inode.data) offset readCount)

/-- Room for `newSize` bytes in whole pages, `false` when it is refused. What is
in a new block before it is written to is left open. -/
def growData (s : Ramfs) (inode newSize : Nat) : Bool × Ramfs :=
  if (s.inodes inode).dataCapacity < newSize then
    let newCapacity := u32 (newSize + 4095) / 4096 * 4096
    let (newData, heap) := s.heap.kmalloc newCapacity
    let s := { s with heap := heap }
    if newData = 0 then (false, s)
    else
      let old := s.inodes inode
      let s :=
        if old.data ≠ 0 then
          { s with
            bytes := Function.update s.bytes newData
              (overwrite (s.bytes newData) 0 (slice (s.bytes old.data) 0 old.dataSize)) }.kfree
            old.data
        else s
      (true, s.setInode inode fun i => { i with data := newData, dataCapacity := newCapacity })
  else (true, s)

/-- The bytes are copied in and the size follows. A copy over the end of the data or
before them stays with their block here; `WriteFits` is the condition that there is none. -/
def storeData (s : Ramfs) (file inode : Nat) (buf : List UInt8) (offset newSize : Nat) : Ramfs :=
  let data := (s.inodes inode).data
  let s := { s with bytes := Function.update s.bytes data (overwrite (s.bytes data) offset buf) }
  if (s.inodes inode).dataSize < newSize then
    (s.setInode inode fun i => { i with dataSize := newSize }).setInode file fun i =>
      { i with size := newSize }
  else s

def ramfsWrite (s : Ramfs) (file : RamfsFile) (buf : List UInt8) (offset : Nat) : Int × Ramfs :=
  let inode := (s.inodes file.inode).privateData
  if (s.inodes file.inode).type ≠ .regular then (-1, s)
  else
    let newSize := u32 (offset + buf.length)
    let (ok, s) := growData s inode newSize
    if ok then (s32 buf.length, storeData s file.inode inode buf offset newSize) else (-1, s)

end SynapseKernel.Fs
