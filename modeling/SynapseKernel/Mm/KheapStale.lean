import SynapseKernel.Mm.KheapFrame

/-! # Freeing a block twice

`kfree` tells the second free of a pointer by the `is_free` byte of the header that
was in front of it. That byte may be inside of a payload by now: its owner may
have written a 0 there, and then what is in front of the pointer is taken for the
header of a block. The heap itself writes to the byte only where a block begins 8
bytes past the old header (`OwnerReach.flagSet`). -/
namespace SynapseKernel.Kheap
open SynapseKernel.Word SynapseKernel.ByteMemory SynapseKernel.Tiling

/-- The pointers a block of the list lays a `next` over, where their flag was. -/
def laid (h : Heap) : List Nat := ((blockList h).getD []).map fun b => b.addr + 8

/-- The owners of the payloads. `returned` is what `kmalloc` has returned, and
`overwritten`, which is not in the source, are the pointers whose flag an owner has
set to 0 or a block has been laid over. -/
structure Owners where
  heap : Heap
  live : List (Nat × Nat)
  returned : List Nat
  overwritten : List Nat

/-- The pointer was returned earlier and was freed since. -/
def Owners.Stale (s : Owners) (p : Nat) : Prop := p ∈ s.returned ∧ ∀ n, (p, n) ∉ s.live

/-- Where `kfree` looks, `p` is marked as freed. -/
def FlagSet (h : Heap) (p : Nat) : Prop := (header h.mem (sub32 p headerSize)).isFree = true

/-- The states of the runs in which sizes are as `ok` says, owners write to what
they hold, and whoever frees a pointer again finds it marked. -/
inductive OwnerReach (ok : Heap → Nat → Prop) : Owners → Prop
  | init (m : Mem) : OwnerReach ok ⟨initKheap m, [], [], laid (initKheap m)⟩
  | malloc {s : Owners} {n p : Nat} {h : Heap} : OwnerReach ok s → ok s.heap n →
      kmalloc s.heap n = some (p, h) →
      OwnerReach ok ⟨h, if p = 0 then s.live else (p, n) :: s.live,
        if p = 0 then s.returned else p :: s.returned, laid h ++ s.overwritten⟩
  | free {s : Owners} {p n : Nat} : OwnerReach ok s → (p, n) ∈ s.live →
      OwnerReach ok ⟨kfree s.heap p, s.live.erase (p, n), s.returned,
        laid (kfree s.heap p) ++ s.overwritten.filter (· ≠ p)⟩
  | freeAgain {s : Owners} {p : Nat} : OwnerReach ok s → s.Stale p → FlagSet s.heap p →
      OwnerReach ok { s with heap := kfree s.heap p }
  | store {s : Owners} {p n a : Nat} {v : UInt8} : OwnerReach ok s → (p, n) ∈ s.live →
      p ≤ a → a < p + n →
      OwnerReach ok { s with
        heap := { s.heap with mem := Function.update s.heap.mem a v }
        overwritten := if v = 0 then (a + 4) :: s.overwritten else s.overwritten }

/-- The block list, what is counted as used and the payloads stay. -/
structure Harmless (s : Owners) (p : Nat) : Prop where
  list : blockList (kfree s.heap p) = blockList s.heap
  used : (kfree s.heap p).usedSize = s.heap.usedSize
  payloads : ∀ q n a, (q, n) ∈ s.live → q ≤ a → a < q + n →
    (kfree s.heap p).mem a = s.heap.mem a

variable {s : Owners} {p x : Nat}

/-- A pointer that is marked is not freed. -/
theorem kfree_of_flagSet {h : Heap} (hf : FlagSet h p) : kfree h p = h := by
  unfold kfree
  by_cases hp : p = 0
  · rw [if_pos hp]
  · rw [if_neg hp]
    exact if_pos hf

theorem harmless_of_flagSet (hf : FlagSet s.heap p) : Harmless s p := by
  have hkeep := kfree_of_flagSet hf
  exact ⟨by rw [hkeep], by rw [hkeep], fun _ _ a _ _ _ => by rw [hkeep]⟩

/-- The flag is the fourth byte in front of the pointer. -/
theorem flagSet_iff {h : Heap} (hlo : 16 ≤ p) (hlt : p < 2 ^ 32) :
    FlagSet h p ↔ h.mem (p - 4) ≠ 0 := by
  have hsub : sub32 p headerSize = p - 16 := sub32_of_le hlt hlo
  have hbyte : p - 16 + 12 = p - 4 := by omega
  rw [FlagSet, hsub]
  simp only [header, read8, readLE, hbyte, Nat.mul_zero, Nat.add_zero, bne_iff_ne, ne_eq]
  rw [← UInt8.toNat_inj]
  rfl

/-! ## Where the heap writes to a flag -/

/-- The last bytes of the size, the links and the flag of a header. -/
theorem setIsFree_self (m : Mem) (b : Nat) (f : Bool) :
    setIsFree m b f (b + 12) = UInt8.ofNat f.toNat := by
  simp only [setIsFree, write8, writeLE, Function.update_self]

section Flag
variable {m : Mem} {bs pre post : List Block} {b : Block} {n : Nat}

theorem mem_laid {h : Heap} {c : Block} (hr : Represents h bs) (hc : c ∈ bs) :
    c.addr + 8 ∈ laid h := by
  obtain ⟨x, hx, ha, -, -⟩ := exists_mem_listed (p := 0) hc
  rw [laid, hr.blockList, ← ha]
  exact List.mem_map.mpr ⟨x, hx, rfl⟩

/-- Blocks begin at multiples of 8, so that a byte 4 past one is in no link other
than the `next` of a block right there. -/
theorem Represents.outsideLinks {h : Heap} (hr : Represents h bs) (hx : x % 8 = 4)
    (hno : x + 4 ∉ laid h) : OutsideLinks x bs := by
  intro c hc
  have hdvd := hr.layout.tiles.dvd_addr (by decide) (fun d hd => (hr.layout.sizes d hd).1) c hc
  have hne : c.addr + 8 ≠ x + 4 := fun he => hno (he ▸ mem_laid hr hc)
  omega

/-- A split writes to such a byte the `next` of the block split and of the new
block, and the flag of the new block, which is set. -/
theorem splitStores_flag (hb : b.addr % 8 = 0) (hn : n % 8 = 0) (h24 : 24 ≤ n) (hx : x % 8 = 4)
    (hxb : x ≠ b.addr + 4) (hxn : x ≠ b.addr + n + 4)
    (hpost : OutsideLinks x post) :
    splitStores m b (headAddr post) n x = m x ∨ splitStores m b (headAddr post) n x ≠ 0 := by
  have hlinks : splitStores m b (headAddr post) n x =
      setIsFree (setSize m (b.addr + n) (b.size - n)) (b.addr + n) true x := by
    unfold splitStores
    rw [setSize_frame (by omega), setNext_frame (by omega)]
    split
    · rename_i h0
      have := hpost.head h0
      rw [setPrev_frame (by omega), setPrev_frame (by omega), setNext_frame (by omega)]
    · rw [setPrev_frame (by omega), setNext_frame (by omega)]
  rw [hlinks]
  by_cases hxf : x = b.addr + n + 12
  · right
    rw [hxf, setIsFree_self]
    decide
  · left
    rw [setIsFree_frame (by omega), setSize_frame (by omega)]

/-- What `kmalloc` may do to the flag of a pointer it does not return. -/
theorem kmalloc_flag {h h' : Heap} (hr : Represents h bs) (hok : SizeOk h n)
    (hk : kmalloc h n = some (p, h')) (hx : x % 8 = 4) (hxp : x + 4 ≠ p) :
    h'.mem x = h.mem x ∨ h'.mem x ≠ 0 ∨ x + 4 ∈ laid h' := by
  by_cases hn : n = 0
  · rw [kmalloc, if_pos hn] at hk
    obtain ⟨rfl, rfl⟩ := Prod.mk.inj (Option.some.inj hk)
    exact .inl rfl
  rcases kmalloc_cases hr hn with ⟨-, hk'⟩ | ⟨pre, b, post, rfl, hb, hfit, -, hk'⟩
  · obtain ⟨rfl, rfl⟩ := Prod.mk.inj (Option.some.inj (hk'.symm.trans hk))
    exact .inl rfl
  · obtain ⟨rfl, rfl⟩ := Prod.mk.inj (Option.some.inj (hk'.symm.trans hk))
    have hle := hok.le hr (by simp) hb
    have hact := actualSize_of_le hle
    have ht := represents_take hr hb hn hle hfit
    by_cases hin : x + 4 ∈ laid (afterTake h b.addr n)
    · exact .inr (.inr hin)
    have hout := ht.outsideLinks hx hin
    have around := Around.of_layout hr.layout
    have hsize := around.size
    have hbelow := around.below
    have hh := (linked_zipper.mp hr.links).2.1
    have hdvd := hr.layout.tiles.dvd_addr (by decide)
      (fun d hd => (hr.layout.sizes d hd).1) b (by simp)
    have hpost : OutsideLinks x post := fun c hc => hout c (by simp [hc])
    rw [headerSize] at hxp
    have hflag : (afterTake h b.addr n).mem x = splitBlock h.mem b.addr (actualSize n) x :=
      setIsFree_frame (by omega)
    rw [hflag]
    by_cases hs : b.size - actualSize n < 24
    · rw [splitBlock_whole hh (by omega) hfit hs]
      exact .inl rfl
    · rw [splitBlock_split hh (by omega) hfit (by omega) (by omega)]
      rw [carve, if_neg hs] at hout
      have hxb := hout ⟨b.addr, actualSize n, false⟩ (by simp)
      have hxn := hout ⟨b.addr + actualSize n, b.size - actualSize n, true⟩ (by simp)
      simp only at hxb hxn
      have hsplit := splitStores_flag (m := h.mem) (b := b) (n := actualSize n) (by omega) (by omega)
        (by omega) hx (by omega) (by omega) hpost
      exact hsplit.imp_right .inl

/-- What `kfree` may do to a flag. -/
theorem kfree_flag {h : Heap} (hr : Represents h (pre.reverse ++ b :: post)) (hb : b.free = false)
    (hx : x % 8 = 4) (hno : x + 4 ∉ laid h) :
    (kfree h (b.addr + headerSize)).mem x = h.mem x ∨
      (kfree h (b.addr + headerSize)).mem x ≠ 0 := by
  rw [kfree_links_frame hr hb (hr.outsideLinks hx hno)]
  by_cases hxf : x = b.addr + 12
  · right
    rw [hxf, setIsFree_self]
    decide
  · exact .inl (setIsFree_frame (by omega))

/-- It sets the flag of the pointer that is freed. -/
theorem kfree_flag_self {h : Heap} (hr : Represents h (pre.reverse ++ b :: post))
    (hb : b.free = false) : (kfree h (b.addr + headerSize)).mem (b.addr + 12) ≠ 0 := by
  have hout : OutsideLinks (b.addr + 12) (pre.reverse ++ b :: post) := by
    intro c hc
    by_cases he : c.addr = b.addr
    · omega
    · have hdisj := hr.layout.tiles.disjoint hc (by simp) he
      have hsize := (hr.layout.sizes c hc).2
      have := (Around.of_layout hr.layout).size
      omega
  rw [kfree_links_frame hr hb hout, setIsFree_self]
  decide

end Flag

/-! ## Runs -/

/-- Freeing a marked pointer again changes nothing, so that the heap and what is
held are those of a run without it. -/
theorem OwnerReach.reach (hr : OwnerReach SizeOk s) : Reach ⟨s.heap, s.live⟩ := by
  induction hr with
  | init m => exact .init m
  | malloc _ hok hk ih => exact ih.malloc hok hk
  | free _ hl ih => exact ih.free hl
  | freeAgain _ _ hf ih => rwa [kfree_of_flagSet hf]
  | store _ hl hp ha ih => exact ih.store hl hp ha

/-- What is known of the pointers returned so far. -/
structure StaleInv (s : Owners) : Prop where
  aligned : ∀ p ∈ s.returned, p % 8 = 0 ∧ 16 ≤ p ∧ p < 2 ^ 32
  laid : ∀ p ∈ laid s.heap, p ∈ s.overwritten
  flag : ∀ p, s.Stale p → p ∉ s.overwritten → s.heap.mem (p - 4) ≠ 0

/-- A pointer `kmalloc` returns is inside of the heap. -/
theorem Reach.returned_aligned {c : Client} {n : Nat} (hr : Reach c) (hl : (p, n) ∈ c.live) :
    p % 8 = 0 ∧ 16 ≤ p ∧ p < 2 ^ 32 := by
  obtain ⟨bs, hi⟩ := hr.inv
  obtain ⟨hdvd, hlo, -⟩ := hi.payload hl
  obtain ⟨b, hb, -, hbp, hn⟩ := hi.held p n hl
  have hbound := hi.heap.layout.tiles.bounds b hb
  simp only [kheapStart, kheapSize] at hbound hlo
  omega

theorem StaleInv.malloc {n : Nat} {h : Heap} (hi : StaleInv s) (hr : OwnerReach SizeOk s)
    (hok : SizeOk s.heap n) (hk : kmalloc s.heap n = some (p, h)) :
    StaleInv ⟨h, if p = 0 then s.live else (p, n) :: s.live,
      if p = 0 then s.returned else p :: s.returned, Kheap.laid h ++ s.overwritten⟩ := by
  obtain ⟨bs, hc⟩ := hr.reach.inv
  have hnew : p ≠ 0 → p % 8 = 0 ∧ 16 ≤ p ∧ p < 2 ^ 32 := by
    intro hp
    have hreach := hr.reach.malloc hok hk
    rw [if_neg hp] at hreach
    exact hreach.returned_aligned List.mem_cons_self
  refine ⟨fun q hq => ?_, fun q hq => List.mem_append_left _ hq, fun q hq hno => ?_⟩
  · simp only at hq
    split at hq
    · exact hi.aligned q hq
    · rename_i hp
      rcases List.mem_cons.mp hq with rfl | hq
      · exact hnew hp
      · exact hi.aligned q hq
  · -- a pointer that is stale afterwards was stale before
    obtain ⟨hret, hlive⟩ := hq
    have hold : s.Stale q ∧ q ≠ p := by
      by_cases hp : p = 0
      · simp only [if_pos hp] at hret hlive
        refine ⟨⟨hret, hlive⟩, ?_⟩
        have := hi.aligned q hret
        omega
      · simp only [if_neg hp] at hret hlive
        have hqp : q ≠ p := by
          rintro rfl
          exact hlive n List.mem_cons_self
        refine ⟨⟨(List.mem_cons.mp hret).resolve_left hqp, fun k hk' => ?_⟩, hqp⟩
        exact hlive k (List.mem_cons_of_mem _ hk')
    obtain ⟨hstale, hqp⟩ := hold
    obtain ⟨halign, hlo, hlt⟩ := hi.aligned q hstale.1
    obtain ⟨hnlaid, hnover⟩ := not_or.mp (mt List.mem_append.mpr hno)
    have hq4 : q - 4 + 4 = q := by omega
    rcases kmalloc_flag hc.heap hok hk (x := q - 4) (by omega) (by omega) with hsame | hset | hin
    · rw [hsame]
      exact hi.flag q hstale hnover
    · exact hset
    · rw [hq4] at hin
      exact absurd hin hnlaid

theorem StaleInv.free {n : Nat} (hi : StaleInv s) (hr : OwnerReach SizeOk s)
    (hl : (p, n) ∈ s.live) :
    StaleInv ⟨kfree s.heap p, s.live.erase (p, n), s.returned,
      Kheap.laid (kfree s.heap p) ++ s.overwritten.filter (· ≠ p)⟩ := by
  obtain ⟨bs, hc⟩ := hr.reach.inv
  obtain ⟨b, hb, hf, rfl, -⟩ := hc.held p n hl
  obtain ⟨l, post, rfl⟩ := List.append_of_mem hb
  have hrep : Represents s.heap (l.reverse.reverse ++ b :: post) := by
    rw [List.reverse_reverse]
    exact hc.heap
  refine ⟨hi.aligned, fun q hq => List.mem_append_left _ hq, fun q hq hno => ?_⟩
  obtain ⟨hret, hlive⟩ := hq
  by_cases hqb : q = b.addr + 16
  · rw [hqb]
    exact kfree_flag_self hrep hf
  · have hstale : s.Stale q := by
      refine ⟨hret, fun k hk => hlive k ((List.mem_erase_of_ne ?_).mpr hk)⟩
      intro he
      exact hqb (Prod.mk.inj he).1
    obtain ⟨halign, hlo, hlt⟩ := hi.aligned q hret
    have hnover : q ∉ s.overwritten := by
      intro hm
      refine hno (List.mem_append_right _ (List.mem_filter.mpr ⟨hm, ?_⟩))
      exact decide_eq_true hqb
    have hq4 : q - 4 + 4 = q := by omega
    have hnlaid : q - 4 + 4 ∉ Kheap.laid s.heap := by
      rw [hq4]
      exact mt (hi.laid q) hnover
    rcases kfree_flag hrep hf (x := q - 4) (by omega) hnlaid with hsame | hset
    · rw [headerSize] at hsame
      simp only [hsame]
      exact hi.flag q hstale hnover
    · exact hset

theorem StaleInv.store {n a : Nat} {v : UInt8} (hi : StaleInv s) (hr : OwnerReach SizeOk s)
    (hl : (p, n) ∈ s.live) (hp : p ≤ a) (ha : a < p + n) :
    StaleInv { s with
      heap := { s.heap with mem := Function.update s.heap.mem a v }
      overwritten := if v = 0 then (a + 4) :: s.overwritten else s.overwritten } := by
  obtain ⟨bs, hc⟩ := hr.reach.inv
  -- a store in a payload leaves the block list alone
  have hlist := (hc.store (v := v) hl hp ha).heap.blockList.trans hc.heap.blockList.symm
  have hmono : ∀ q ∈ s.overwritten,
      q ∈ if v = 0 then (a + 4) :: s.overwritten else s.overwritten := by
    intro q hq
    split
    · exact List.mem_cons_of_mem _ hq
    · exact hq
  refine ⟨hi.aligned, fun q hq => hmono q (hi.laid q ?_), fun q hq hno => ?_⟩
  · simp only [Kheap.laid] at hlist hq ⊢
    rwa [hlist] at hq
  · have hstale : s.Stale q := hq
    obtain ⟨halign, hlo, hlt⟩ := hi.aligned q hstale.1
    have hflag := hi.flag q hstale (mt (hmono q) hno)
    by_cases hqa : q - 4 = a
    · simp only [hqa, Function.update_self]
      rintro rfl
      have haq : a + 4 = q := by omega
      refine hno ?_
      simp only [if_true, haq]
      exact List.mem_cons_self
    · simp only [Function.update_of_ne hqa]
      exact hflag

theorem staleInv_init (m : Mem) (o : List Nat) (h : ∀ p ∈ laid (initKheap m), p ∈ o) :
    StaleInv ⟨initKheap m, [], [], o⟩ := by
  refine ⟨fun q hq => ?_, h, fun q hq => ?_⟩
  · cases hq
  · cases hq.1

theorem OwnerReach.staleInv (hr : OwnerReach SizeOk s) : StaleInv s := by
  induction hr with
  | init m => exact staleInv_init m _ fun _ hq => hq
  | malloc hs hok hk ih => exact ih.malloc hs hok hk
  | free hs hl ih => exact ih.free hs hl
  | freeAgain hs _ hf ih =>
    rw [kfree_of_flagSet hf]
    exact ih
  | store hs hl hp ha ih => exact ih.store hs hl hp ha

/-- **The mark of a freed pointer stays** where nobody has written over it. -/
theorem OwnerReach.flagSet (hr : OwnerReach SizeOk s) (hs : s.Stale p)
    (hno : p ∉ s.overwritten) : FlagSet s.heap p := by
  obtain ⟨-, hlo, hlt⟩ := hr.staleInv.aligned p hs.1
  exact (flagSet_iff hlo hlt).mpr (hr.staleInv.flag p hs hno)

/-! ## Where the mark is trusted -/

/-- **A double free is harmless** in every run that meets the mark of the pointer
at each of its double frees, whatever sizes it asks for. Where sizes do not wrap, the
mark is met unless since the free an owner has set it to 0 or a block began 8 bytes
past the old header. -/
theorem doubleFree_harmless (hs : s.Stale p) :
    (OwnerReach (fun _ _ => True) s → FlagSet s.heap p → Harmless s p) ∧
    (OwnerReach SizeOk s → p ∉ s.overwritten → FlagSet s.heap p ∧ Harmless s p) := by
  refine ⟨fun _ hf => harmless_of_flagSet hf, fun hr hno => ?_⟩
  have hf := hr.flagSet hs hno
  exact ⟨hf, harmless_of_flagSet hf⟩

theorem OwnerReach.take {ok : Heap → Nat → Prop} {n : Nat} {h : Heap} (hr : OwnerReach ok s)
    (hok : ok s.heap n) (hk : kmalloc s.heap n = some (p, h)) (hp : p ≠ 0) :
    OwnerReach ok ⟨h, (p, n) :: s.live, p :: s.returned, laid h ++ s.overwritten⟩ := by
  have hreach := hr.malloc hok hk
  rwa [if_neg hp, if_neg hp] at hreach

/-- A 0 where the flag was and a 1 where the size was make a block of what is in
front of the pointer. -/
theorem not_harmless_of_header (hlo : 16 ≤ p) (hlt : p < 2 ^ 32) (hflag : s.heap.mem (p - 4) = 0)
    (hsize : s.heap.mem (p - 16) = 1) : ¬ Harmless s p := by
  intro hh
  have hnot : ¬ FlagSet s.heap p := mt (flagSet_iff hlo hlt).mp (not_not.mpr hflag)
  have hsub : sub32 p headerSize = p - 16 := sub32_of_le hlt hlo
  have hused := hh.used
  unfold FlagSet at hnot
  unfold kfree at hused
  rw [if_neg (by omega), if_neg hnot] at hused
  simp only [header_setIsFree, hsub] at hused
  -- the size read is odd, so that it is not 0
  have hbound := read32_lt s.heap.mem (p - 16)
  have hval : read32 s.heap.mem (p - 16) =
      1 + 256 * readLE s.heap.mem (p - 16 + 1) 3 := by
    rw [read32, readLE, hsize]
    rfl
  simp only [header] at hused
  unfold sub32 u32 at hused
  omega

/-- **Two stores of an owner are enough** where the old header is in a payload. -/
theorem OwnerReach.harmful {ok : Heap → Nat → Prop} {q n : Nat} (hr : OwnerReach ok s)
    (hs : s.Stale p) (hlt : p < 2 ^ 32) (hl : (q, n) ∈ s.live) (hlo : 16 ≤ p) (hq : q ≤ p - 16)
    (hn : p - 4 < q + n) : ∃ s', OwnerReach ok s' ∧ s'.Stale p ∧ ¬ Harmless s' p := by
  have hin : p - 16 < q + n ∧ q ≤ p - 4 := by omega
  have hfirst := hr.store (v := 1) hl hq hin.1
  have hsecond := hfirst.store (v := 0) hl hin.2 hn
  refine ⟨_, hsecond, hs, not_harmless_of_header hlo hlt ?_ ?_⟩
  · exact Function.update_self _ _ _
  · have hne : p - 16 ≠ p - 4 := by omega
    exact (Function.update_of_ne hne _ _).trans (Function.update_self _ _ _)

/-- Where one block only is free, it is the one that is taken. -/
theorem kmalloc_only {h : Heap} {bs : List Block} {b : Block} {n : Nat} (hr : Represents h bs)
    (hb : b ∈ bs) (hf : b.free = true) (honly : ∀ c ∈ bs, c.free = true → c = b) (hn : n ≠ 0)
    (hfit : actualSize n ≤ b.size) :
    kmalloc h n = some (b.addr + headerSize, afterTake h b.addr n) := by
  rcases kmalloc_cases hr hn with ⟨hnone, -⟩ | ⟨pre, c, post, he, hcf, -, -, hk⟩
  · have := hnone b hb
    simp [fits, hf, hfit] at this
  · have hc : c = b := honly c (he ▸ by simp) hcf
    rw [hk, hc]

/-- The heap after a block of 8 bytes was taken. -/
def first : Heap := afterTake (initKheap fun _ => 0) kheapStart 8

theorem represents_first :
    Represents first [⟨kheapStart, 24, false⟩, ⟨kheapStart + 24, kheapSize - 24, true⟩] := by
  have ht := @represents_take _ [] [] _ 8 (represents_init fun _ => 0) rfl (by decide) (by decide)
    (by decide)
  have hlist : [].reverse ++ (carve (actualSize 8) 24 ⟨kheapStart, kheapSize, true⟩ ++ []) =
      [⟨kheapStart, 24, false⟩, ⟨kheapStart + 24, kheapSize - 24, true⟩] := by decide
  rwa [hlist] at ht

theorem reach_first {ok : Heap → Nat → Prop} (hok : ok (initKheap fun _ => 0) 8) :
    OwnerReach ok ⟨first, [(kheapStart + headerSize, 8)], [kheapStart + headerSize],
      laid first ++ laid (initKheap fun _ => 0)⟩ :=
  (OwnerReach.init fun _ => 0).take hok (kmalloc_init _ (by decide) (by decide)) (by decide)

/-- The block was given back. -/
def freedOnce : Owners :=
  ⟨kfree first (kheapStart + headerSize), [], [kheapStart + headerSize],
    laid (kfree first (kheapStart + headerSize)) ++
      (laid first ++ laid (initKheap fun _ => 0)).filter (· ≠ kheapStart + headerSize)⟩

theorem reach_freedOnce {ok : Heap → Nat → Prop} (hok : ok (initKheap fun _ => 0) 8) :
    OwnerReach ok freedOnce := by
  have hr := (reach_first hok).free List.mem_cons_self
  rwa [List.erase_cons_head] at hr

theorem stale_freedOnce : freedOnce.Stale (kheapStart + headerSize) := by
  refine ⟨List.mem_singleton.mpr rfl, ?_⟩
  intro n hn
  cases hn

theorem doubleFree_harmless_freedOnce : Harmless freedOnce (kheapStart + headerSize) := by
  have hreach : OwnerReach (fun _ _ => True) freedOnce := reach_freedOnce trivial
  have hmark := @kfree_flag_self [] _ _ _ represents_first rfl
  exact (doubleFree_harmless stale_freedOnce).1 hreach
    ((flagSet_iff (by decide) (by decide)).mpr hmark)

/-- Two blocks of 8 bytes were taken, given back and taken again as one of 64. -/
def reused : Heap :=
  let second := afterTake first (kheapStart + 24) 8
  let freed := kfree (kfree second (kheapStart + 24 + headerSize)) (kheapStart + headerSize)
  afterTake freed kheapStart 64

theorem reach_reused : ∃ o, OwnerReach SizeOk ⟨reused, [(kheapStart + headerSize, 64)],
    [kheapStart + headerSize, kheapStart + 24 + headerSize, kheapStart + headerSize], o⟩ := by
  have hk2 := kmalloc_only (n := 8) represents_first
    (b := ⟨kheapStart + 24, kheapSize - 24, true⟩) (by simp) rfl (by simp) (by decide) (by decide)
  have hr1 : OwnerReach SizeOk _ := reach_first (.inl (by decide))
  have hr2 := hr1.take (.inl (by decide)) hk2 (by decide)
  have h2 := @represents_take _ [⟨kheapStart, 24, false⟩] [] _ 8 represents_first rfl (by decide)
    (by decide) (by decide)
  have hlist2 : [(⟨kheapStart, 24, false⟩ : Block)].reverse ++
      (carve (actualSize 8) 24 ⟨kheapStart + 24, kheapSize - 24, true⟩ ++ []) =
      [⟨kheapStart, 24, false⟩].reverse ++ ⟨kheapStart + 24, 24, false⟩ ::
        [⟨kheapStart + 48, kheapSize - 48, true⟩] := by decide
  rw [hlist2] at h2
  -- the second block goes back first, and what is left of its header stays in memory
  have hr3 := hr2.free List.mem_cons_self
  rw [List.erase_cons_head] at hr3
  have h3 := represents_release h2
  rw [← kfree_eq h2 rfl] at h3
  have hlist3 : release [⟨kheapStart, 24, false⟩] ⟨kheapStart + 24, 24, false⟩
      [⟨kheapStart + 48, kheapSize - 48, true⟩] = [].reverse ++ ⟨kheapStart, 24, false⟩ ::
        [⟨kheapStart + 24, kheapSize - 24, true⟩] := by decide
  rw [hlist3] at h3
  have hr4 := hr3.free List.mem_cons_self
  rw [List.erase_cons_head] at hr4
  have h4 := represents_release h3
  rw [← kfree_eq h3 rfl] at h4
  have hlist4 : release [] ⟨kheapStart, 24, false⟩ [⟨kheapStart + 24, kheapSize - 24, true⟩] =
      [⟨kheapStart, kheapSize, true⟩] := by decide
  rw [hlist4] at h4
  have hk5 := kmalloc_only (n := 64) h4 (List.mem_singleton.mpr rfl) rfl
    (fun c hc _ => List.mem_singleton.mp hc) (by decide) (by decide)
  exact ⟨_, hr4.take (.inl (by decide)) hk5 (by decide)⟩

/-- The owner of the new payload writes a 1 and a 0 to it, and a second `kfree` of
the pointer inside of it changes what is counted as used. -/
theorem doubleFree_harmful : ∃ s p, OwnerReach SizeOk s ∧ s.Stale p ∧ ¬ Harmless s p := by
  obtain ⟨o, hr⟩ := reach_reused
  have hs : Owners.Stale ⟨reused, [(kheapStart + headerSize, 64)],
      [kheapStart + headerSize, kheapStart + 24 + headerSize, kheapStart + headerSize], o⟩
      (kheapStart + 24 + headerSize) :=
    ⟨List.mem_cons_of_mem _ List.mem_cons_self, by simp⟩
  obtain ⟨s', hr', hs', hnot⟩ := hr.harmful hs (by decide) List.mem_cons_self (by decide) (by decide)
    (by decide)
  exact ⟨s', _, hr', hs', hnot⟩

end SynapseKernel.Kheap
