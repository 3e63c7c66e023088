import SynapseKernel.Lib.Layout
import SynapseKernel.Loader.ElfLoad

/-! # Programs as files (kernel/include/loader/elf.h)

`imageBytes` lays a program out as a linker does: the file header, the program headers
behind it, and then what is in the segments. `elf_load` of such a file, through a reader
that returns what is in it, puts every segment into a block of its own as it was
(`elfLoad_image`). The segments are of sizes that `kmalloc` can take and begin below 1 GiB,
where the slots of the directory end. -/
namespace SynapseKernel.Loader
open SynapseKernel.Word SynapseKernel.Kheap SynapseKernel.Blocks SynapseKernel.ByteMemory
open SynapseKernel.Str SynapseKernel.Fs SynapseKernel.Layout

/-- What goes to `vaddr`: bytes of the file, and zeros behind them. -/
structure Segment where
  vaddr : Nat
  data : List UInt8
  zeros : Nat
  vaddr_lt : vaddr < 2 ^ 30
  size_pos : 0 < data.length + zeros
  size_le : data.length + zeros ≤ maxSize

abbrev Segment.size (seg : Segment) : Nat := seg.data.length + seg.zeros

/-- The memory of a segment. -/
def Segment.contents (seg : Segment) : List UInt8 := seg.data ++ List.replicate seg.zeros 0

/-- Its program header, with `p_flags` of `7` and no alignment. -/
def Segment.phdrFields (seg : Segment) (offset : Nat) : List (List UInt8) :=
  [leBytes 4 ptLoad, leBytes 4 offset, leBytes 4 seg.vaddr, leBytes 4 seg.vaddr,
    leBytes 4 seg.data.length, leBytes 4 seg.size, leBytes 4 7, leBytes 4 1]

/-- The program headers of segments whose bytes are in the file from `offset` on. -/
def phdrTable : Nat → List Segment → List (List UInt8)
  | _, [] => []
  | offset, seg :: segs =>
    (seg.phdrFields offset).flatten :: phdrTable (offset + seg.data.length) segs

/-- The file header, with the entry point and the number of program headers. -/
def headerFields (entry phnum : Nat) : List (List UInt8) :=
  [elfIdent ++ List.replicate 10 0, leBytes 2 etExec, leBytes 2 3, leBytes 4 1, leBytes 4 entry,
    leBytes 4 ehdrSize, leBytes 4 0, leBytes 4 0, leBytes 2 ehdrSize, leBytes 2 phdrSize,
    leBytes 2 phnum, List.replicate 6 0]

def dataStart (segs : List Segment) : Nat := ehdrSize + phdrSize * segs.length

/-- The header, the program headers and the bytes of the segments. -/
def imagePieces (entry : Nat) (segs : List Segment) : List (List UInt8) :=
  (headerFields entry segs.length).flatten ::
    (phdrTable (dataStart segs) segs ++ segs.map Segment.data)

def imageBytes (entry : Nat) (segs : List Segment) : List UInt8 := (imagePieces entry segs).flatten

/-- A program that fits into a file. -/
structure Image where
  entry : Nat
  segments : List Segment
  entry_lt : entry < 2 ^ 32
  count_lt : segments.length < 2 ^ 16
  length_lt : (imageBytes entry segments).length < 2 ^ 31

def Image.reader (image : Image) (_ : ReadCall) : FileReader :=
  fileReader (imageBytes image.entry image.segments) image.length_lt

/-! ## Numbers in headers -/

@[simp] theorem length_leBytes (width n : Nat) : (leBytes width n).length = width := by
  induction width generalizing n with
  | zero => rfl
  | succ width ih => rw [leBytes, List.length_cons, ih]

theorem field_append (pre post : List UInt8) (width n : Nat) :
    field (pre ++ leBytes width n ++ post) pre.length width = n % 256 ^ width := by
  induction width generalizing pre n with
  | zero => exact (Nat.mod_one n).symm
  | succ width ih =>
    have hrest := ih (pre ++ [UInt8.ofNat n]) (n / 256)
    have hsame : pre ++ [UInt8.ofNat n] ++ leBytes width (n / 256) ++ post =
        pre ++ leBytes (width + 1) n ++ post := by
      simp only [leBytes, List.append_assoc, List.cons_append, List.nil_append]
    have hhead : (pre ++ leBytes (width + 1) n ++ post).getD pre.length 0 = UInt8.ofNat n := by
      rw [leBytes, List.append_assoc, List.getD_append_right _ _ _ _ (Nat.le_refl _), Nat.sub_self]
      rfl
    rw [hsame, List.length_append, List.length_singleton] at hrest
    rw [field, readLE, hhead]
    rw [field] at hrest
    rw [hrest, Nat.pow_succ, Nat.mul_comm (256 ^ width), Nat.mod_mul, UInt8.toNat_ofNat']

/-- A number that is a piece of its own is read at the offset of the piece. -/
theorem field_flatten {pieces : List (List UInt8)} {width n : Nat} (i : Nat)
    (h : pieces[i]? = some (leBytes width n)) (hn : n < 256 ^ width) :
    field pieces.flatten (offsetOf pieces i) width = n := by
  obtain ⟨pre, post, he, hlen⟩ := flatten_split h
  rw [he, ← hlen, field_append, Nat.mod_eq_of_lt hn]

theorem length_headerFields (entry phnum : Nat) :
    (headerFields entry phnum).flatten.length = ehdrSize := by
  rw [List.length_flatten]
  rfl

theorem length_phdrFields (seg : Segment) (offset : Nat) :
    (seg.phdrFields offset).flatten.length = phdrSize := by
  rw [List.length_flatten]
  rfl

/-- The header that the loader decodes. -/
theorem decodeEhdr_headerFields {entry phnum : Nat} (he : entry < 2 ^ 32) (hn : phnum < 2 ^ 16) :
    decodeEhdr (headerFields entry phnum).flatten =
      ⟨elfIdent ++ List.replicate 10 0, etExec, entry, ehdrSize, phdrSize, phnum⟩ := by
  have hident : (headerFields entry phnum).flatten.take 16 = elfIdent ++ List.replicate 10 0 :=
    @window_flatten _ (headerFields entry phnum) _ 0 rfl
  have htype : field (headerFields entry phnum).flatten 16 2 = etExec :=
    field_flatten 1 rfl (by decide)
  have hentry : field (headerFields entry phnum).flatten 24 4 = entry := field_flatten 4 rfl he
  have hoff : field (headerFields entry phnum).flatten 28 4 = ehdrSize :=
    field_flatten 5 rfl (by decide)
  have hsize : field (headerFields entry phnum).flatten 42 2 = phdrSize :=
    field_flatten 9 rfl (by decide)
  have hnum : field (headerFields entry phnum).flatten 44 2 = phnum := field_flatten 10 rfl hn
  rw [decodeEhdr, hident, htype, hentry, hoff, hsize, hnum]

/-- The program header that it decodes. -/
theorem decodePhdr_phdrFields (seg : Segment) {offset : Nat} (ho : offset < 2 ^ 32) :
    decodePhdr (seg.phdrFields offset).flatten =
      ⟨ptLoad, offset, seg.vaddr, seg.data.length, seg.size⟩ := by
  have hsize : seg.size < 2 ^ 32 := Nat.lt_of_le_of_lt seg.size_le (by decide)
  have hdata : seg.data.length < 2 ^ 32 := Nat.lt_of_le_of_lt (Nat.le_add_right _ _) hsize
  have htype : field (seg.phdrFields offset).flatten 0 4 = ptLoad :=
    field_flatten 0 rfl (by decide)
  have hoff : field (seg.phdrFields offset).flatten 4 4 = offset := field_flatten 1 rfl ho
  have hvaddr : field (seg.phdrFields offset).flatten 8 4 = seg.vaddr :=
    field_flatten 2 rfl (Nat.lt_trans seg.vaddr_lt (by decide))
  have hfilesz : field (seg.phdrFields offset).flatten 16 4 = seg.data.length :=
    field_flatten 4 rfl hdata
  have hmemsz : field (seg.phdrFields offset).flatten 20 4 = seg.size :=
    field_flatten 5 rfl hsize
  rw [decodePhdr, htype, hoff, hvaddr, hfilesz, hmemsz]

/-! ## Where the pieces are -/

section Pieces
variable {segs : List Segment} {seg : Segment} {entry offset i : Nat}

theorem length_phdrTable (offset : Nat) (segs : List Segment) :
    (phdrTable offset segs).length = segs.length := by
  induction segs generalizing offset with
  | nil => rfl
  | cons seg segs ih => rw [phdrTable, List.length_cons, ih, List.length_cons]

/-- Where in the file the bytes of a segment begin. -/
def dataOffset (segs : List Segment) (i : Nat) : Nat :=
  dataStart segs + offsetOf (segs.map Segment.data) i

theorem getElem?_phdrTable (h : segs[i]? = some seg) :
    (phdrTable offset segs)[i]? =
      some (seg.phdrFields (offset + offsetOf (segs.map Segment.data) i)).flatten := by
  induction segs generalizing offset i with
  | nil => cases h
  | cons first segs ih =>
    cases i with
    | zero =>
      obtain rfl := Option.some.inj h
      rfl
    | succ i =>
      rw [List.map_cons, offsetOf_cons_succ, ← Nat.add_assoc]
      exact ih h

theorem length_of_mem_phdrTable {piece : List UInt8} (h : piece ∈ phdrTable offset segs) :
    piece.length = phdrSize := by
  induction segs generalizing offset with
  | nil => cases h
  | cons seg segs ih =>
    rcases List.mem_cons.mp h with rfl | h
    · exact length_phdrFields seg offset
    · exact ih h

theorem offsetOf_phdrTable (hi : i ≤ segs.length) :
    offsetOf (phdrTable offset segs) i = phdrSize * i :=
  offsetOf_const (fun _ => length_of_mem_phdrTable) (hi.trans_eq (length_phdrTable _ _).symm)

/-- The program headers are behind the file header. -/
theorem offsetOf_imagePieces_phdr (hi : i ≤ segs.length) :
    offsetOf (imagePieces entry segs) (i + 1) = ehdrSize + phdrSize * i := by
  rw [imagePieces, offsetOf_cons_succ, length_headerFields,
    offsetOf_append_left (hi.trans_eq (length_phdrTable _ _).symm), offsetOf_phdrTable hi]

theorem getElem?_imagePieces_phdr (h : segs[i]? = some seg) :
    (imagePieces entry segs)[i + 1]? = some (seg.phdrFields (dataOffset segs i)).flatten := by
  have hi := (List.getElem?_eq_some_iff.mp h).1
  rw [imagePieces, List.getElem?_cons_succ,
    List.getElem?_append_left (hi.trans_eq (length_phdrTable _ _).symm)]
  exact getElem?_phdrTable h

/-- The bytes of the segments are behind the program headers. -/
theorem offsetOf_imagePieces_data (i : Nat) :
    offsetOf (imagePieces entry segs) (segs.length + i + 1) = dataOffset segs i := by
  have hlen := length_phdrTable (dataStart segs) segs
  have hright := @offsetOf_append_right _ (phdrTable (dataStart segs) segs)
    (segs.map Segment.data) i
  rw [hlen, offsetOf_phdrTable (Nat.le_refl _)] at hright
  rw [imagePieces, offsetOf_cons_succ, length_headerFields, hright, ← Nat.add_assoc]
  rfl

theorem getElem?_imagePieces_data (h : segs[i]? = some seg) :
    (imagePieces entry segs)[segs.length + i + 1]? = some seg.data := by
  have hlen := length_phdrTable (dataStart segs) segs
  rw [imagePieces, List.getElem?_cons_succ, List.getElem?_append_right (by omega), hlen,
    Nat.add_sub_cancel_left, List.getElem?_map, h]
  rfl

end Pieces

/-! ## What the loader reads -/

section Reads
variable (image : Image) {seg : Segment} {inode i : Nat}

def Image.ehdr : Elf32Ehdr :=
  ⟨elfIdent ++ List.replicate 10 0, etExec, image.entry, ehdrSize, phdrSize, image.segments.length⟩

/-- The program header of a segment whose bytes are in the file at `offset`. -/
def Segment.phdr (seg : Segment) (offset : Nat) : Elf32Phdr :=
  ⟨ptLoad, offset, seg.vaddr, seg.data.length, seg.size⟩

/-- A piece of the file is read whole. -/
theorem Image.read {piece : List UInt8} {count offset : Nat} (k : ReadCall) (inode : Nat)
    (h : (imagePieces image.entry image.segments)[i]? = some piece) (hc : piece.length = count)
    (ho : offsetOf (imagePieces image.entry image.segments) i = offset) :
    (image.reader k).bytes inode count offset = piece ∧
      ofInt ((image.reader k).result inode count offset) = count ∧ offset + count < 2 ^ 31 := by
  subst hc ho
  have hbytes : (image.reader k).bytes inode piece.length
      (offsetOf (imagePieces image.entry image.segments) i) = piece := window_flatten h
  have hlt := Nat.lt_of_le_of_lt (offsetOf_add_le h) image.length_lt
  have hresult : (image.reader k).result inode piece.length
      (offsetOf (imagePieces image.entry image.segments) i) = piece.length :=
    congrArg (fun l : List UInt8 => (l.length : Int)) hbytes
  refine ⟨hbytes, ?_, hlt⟩
  rw [hresult, ofInt]
  omega

theorem Image.elfHeader_eq (inode : Nat) : elfHeader image.reader inode = some image.ehdr := by
  have hlen := length_headerFields image.entry image.segments.length
  have hfirst : offsetOf (imagePieces image.entry image.segments) 0 = 0 := rfl
  obtain ⟨hbytes, hresult, -⟩ := image.read .header inode rfl hlen hfirst
  have hvalid : elfValidateHeader image.ehdr = 0 := rfl
  have hdecode := decodeEhdr_headerFields image.entry_lt image.count_lt
  rw [← hbytes] at hdecode
  rw [elfHeader]
  simp only [hresult, ne_eq, not_true_eq_false, if_false]
  rw [hdecode]
  exact if_neg (Int.not_lt.mpr (Int.le_of_eq hvalid.symm))

theorem Image.programHeader_eq (inode : Nat) (h : image.segments[i]? = some seg) :
    programHeader image.reader inode image.ehdr i =
      some (seg.phdr (dataOffset image.segments i)) := by
  have hi := (List.getElem?_eq_some_iff.mp h).1
  obtain ⟨hbytes, hresult, hlt⟩ := image.read (.programHeader i) inode
    (getElem?_imagePieces_phdr h) (length_phdrFields _ _) (offsetOf_imagePieces_phdr hi.le)
  obtain ⟨-, -, hdata⟩ := image.read (.segment i) inode (getElem?_imagePieces_data h) rfl
    (offsetOf_imagePieces_data i)
  have hoffset : u32 (image.ehdr.ePhoff + i * image.ehdr.ePhentsize) = ehdrSize + phdrSize * i := by
    rw [Nat.mul_comm phdrSize] at hlt ⊢
    exact u32_of_lt (Nat.lt_of_le_of_lt (Nat.le_add_right _ phdrSize) (hlt.trans (by decide)))
  simp only [programHeader, hoffset, hresult, ne_eq, not_true_eq_false, if_false]
  rw [hbytes, decodePhdr_phdrFields seg (by omega)]
  rfl

theorem Segment.isLoaded_phdr (seg : Segment) (offset : Nat) : (seg.phdr offset).IsLoaded :=
  ⟨rfl, Nat.ne_of_gt seg.size_pos⟩

/-- What is read for a segment is what the file has for it. -/
theorem Image.fileBytes_eq (inode : Nat) (h : image.segments[i]? = some seg) :
    fileBytes (image.reader (.segment i)) (seg.phdr (dataOffset image.segments i)) inode =
        seg.data ∧
      ReadsAll (image.reader (.segment i)) (seg.phdr (dataOffset image.segments i)) inode := by
  obtain ⟨hbytes, hresult, -⟩ := image.read (.segment i) inode (getElem?_imagePieces_data h) rfl
    (offsetOf_imagePieces_data i)
  refine ⟨?_, fun _ => hresult⟩
  rw [fileBytes]
  split
  · exact hbytes
  · rename_i hzero
    exact (List.length_eq_zero_iff.mp (Nat.eq_zero_of_not_pos hzero)).symm

end Reads

/-! ## What is loaded -/

section Loads
variable {image : Image} {s s' : LoadState} {seg : Segment} {i n : Nat}

theorem Image.segment_eq (image : Image) (inode : Nat) (h : image.segments[i]? = some seg) :
    segment image.reader inode image.ehdr i = some (seg.phdr (dataOffset image.segments i)) := by
  rw [segment, image.programHeader_eq inode h, Option.filter_some,
    if_pos (decide_eq_true (seg.isLoaded_phdr _))]

/-- Every segment gets the block of its number. -/
theorem Image.blocksBefore_eq (image : Image) (s : LoadState) (hn : n ≤ image.segments.length) :
    blocksBefore image.reader s image.ehdr n = n := by
  induction n with
  | zero => rfl
  | succ n ih =>
    have h := List.getElem?_eq_getElem hn
    rw [blocksBefore_succ_some (image.segment_eq _ h), ih (Nat.le_of_succ_le hn)]

theorem Image.segmentBlock_eq (h : image.segments[i]? = some seg) :
    segmentBlock image.reader s image.ehdr i = s.heap.requests + i + 1 := by
  have hi := (List.getElem?_eq_some_iff.mp h).1
  rw [segmentBlock, image.blocksBefore_eq s (Nat.le_of_lt hi)]

/-- Nothing but the heap can stop the load. -/
theorem Image.headerFails_iff (hi : i < image.segments.length) :
    HeaderFails image.reader s image.ehdr i ↔ s.heap.grants (s.heap.requests + i) = false := by
  have h := List.getElem?_eq_getElem hi
  rw [HeaderFails, image.programHeader_eq _ h, image.blocksBefore_eq s hi.le]
  have hall := (image.fileBytes_eq s.rootInode h).2
  exact ⟨fun hf => hf.2.resolve_right (not_not.mpr hall),
    fun hno => ⟨Segment.isLoaded_phdr _ _, .inl hno⟩⟩

theorem HoldsImage.slice_eq {f : Nat → UInt8} {reader : FileReader} {offset inode : Nat}
    (h : HoldsImage f reader (seg.phdr offset) inode)
    (hd : fileBytes reader (seg.phdr offset) inode = seg.data) :
    slice f 0 seg.size = seg.contents := by
  have hlen : seg.contents.length = seg.size := by
    rw [Segment.contents, List.length_append, List.length_replicate]
  refine List.ext_getElem (length_slice.trans hlen.symm) fun k hk hk' => ?_
  obtain ⟨hfile, hzero⟩ := h k (Nat.lt_of_lt_of_eq hk length_slice)
  rw [hd] at hfile
  rw [getElem_slice, Nat.zero_add]
  by_cases hdata : k < seg.data.length
  · exact (hfile hdata).trans (List.getElem_append_left hdata).symm
  · have hle := Nat.le_of_not_lt hdata
    have hback : seg.contents[k] = 0 := by
      simp only [Segment.contents, List.getElem_append_right hle, List.getElem_replicate]
    exact (hzero hle).trans hback.symm

/-- No segment leaves its block. -/
theorem Image.contained (image : Image) (s : LoadState) : LoadContained image.reader s := by
  intro ehdr hhead i hi _ phdr hseg _
  obtain rfl := Option.some.inj ((image.elfHeader_eq s.rootInode).symm.trans hhead)
  have h := List.getElem?_eq_getElem hi
  obtain rfl := Option.some.inj ((image.segment_eq _ h).symm.trans hseg)
  rw [(image.fileBytes_eq _ h).1]
  exact ⟨Segment.size_le _, Nat.le_add_right _ _⟩

/-- The program is in memory: a block of its own for every segment, and in the slot of each
MiB the last segment that begins there. Nothing was stored to anything but those blocks. -/
structure Image.Loaded (image : Image) (s s' : LoadState) : Prop where
  owned : StoresOwned image.reader s s'
  vfs : s'.toVfs = { s.toVfs with heap := s.heap.after image.segments.length }
  contents : ∀ (i : Nat) seg, image.segments[i]? = some seg →
    slice (s'.bytes (s.heap.requests + i + 1)) 0 seg.size = seg.contents
  slots : ∀ (i : Nat) seg, image.segments[i]? = some seg →
    (∀ (j : Nat) other, i < j → image.segments[j]? = some other →
      seg.vaddr / 2 ^ 20 ≠ other.vaddr / 2 ^ 20) →
    s'.tables (seg.vaddr / 2 ^ 20) = s.heap.requests + i + 1

theorem LoadedTo.loaded (h : LoadedTo image.reader s image.ehdr image.segments.length s')
    (howned : StoresOwned image.reader s s') : image.Loaded s s' := by
  refine ⟨howned, ?_, fun i seg hseg => ?_, fun i seg hseg hlast => ?_⟩
  · have hvfs := h.vfs
    rwa [image.blocksBefore_eq s (Nat.le_refl _)] at hvfs
  · have hi := (List.getElem?_eq_some_iff.mp hseg).1
    have himage := h.images i hi _ (image.segment_eq _ hseg)
    rw [Image.segmentBlock_eq hseg] at himage
    exact himage.slice_eq (image.fileBytes_eq _ hseg).1
  · have hi := (List.getElem?_eq_some_iff.mp hseg).1
    rw [h.tables, ← Image.segmentBlock_eq hseg]
    refine installed_last (image.segment_eq _ hseg) hi fun j hij hj q hq => ?_
    have hother := List.getElem?_eq_getElem hj
    obtain rfl := Option.some.inj ((image.segment_eq _ hother).symm.trans hq)
    exact hlast j _ hij hother

/-- **The program in the file is the program in memory**, if the heap grants its segments,
and nothing else can make the load fail. -/
theorem elfLoad_image (image : Image) (s : LoadState) (path : CString) :
    (s.heap.GrantsNext image.segments.length ∧
      ∃ s', elfLoad image.reader s path = (0, some image.entry, s') ∧ image.Loaded s s') ∨
    (¬ s.heap.GrantsNext image.segments.length ∧
      ∃ s', elfLoad image.reader s path = (-1, none, s')) := by
  have hhead := image.elfHeader_eq s.rootInode
  rcases elfLoad_cases image.reader s path with
    ⟨hnone, -⟩ | ⟨ehdr, hsome, ⟨hok, s', he, hl⟩ | ⟨i, hi, hf, -, s', he, -⟩⟩
  · rw [hhead] at hnone
    cases hnone
  · obtain rfl := Option.some.inj (hhead.symm.trans hsome)
    have hgranted : s.heap.GrantsNext
        (blocksBefore image.reader s image.ehdr image.segments.length) := hl.granted
    rw [image.blocksBefore_eq s (Nat.le_refl _)] at hgranted
    have howned := (image.contained s).owned hhead (Nat.le_refl _)
      (fun i hi j hj => hok j (Nat.lt_trans hj hi)) hl.stores
    exact .inl ⟨hgranted, s', he, hl.loaded howned⟩
  · obtain rfl := Option.some.inj (hhead.symm.trans hsome)
    have hno := (Image.headerFails_iff hi).mp hf
    exact .inr ⟨BlockHeap.not_grantsNext hi hno, s', he⟩

end Loads

/-- A program of a byte of code and eight zeros. -/
def smallImage : Image where
  entry := 0x8048000
  segments := [⟨0x8048000, [0xc3], 0, by decide, by decide, by decide⟩,
    ⟨0x8148000, [], 8, by decide, by decide, by decide⟩]
  entry_lt := by decide
  count_lt := by decide
  length_lt := by decide

example : (elfLoad smallImage.reader emptyState slashPath).1 = 0 := by decide

end SynapseKernel.Loader
