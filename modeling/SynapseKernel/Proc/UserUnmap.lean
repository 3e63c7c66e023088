import SynapseKernel.Lib.Runs
import SynapseKernel.Proc.Mmap

/-! # What user unmapping can free

From the identity map every request leaves the directory and the tables where
they are (`Structures`), so which frame a request frees is decided by the
translations before it. A run of `sys_mmap` and `sys_munmap` requests keeps the
paging structures marked as used if and only if no `sys_munmap` names a page
that translates to one of them. -/
namespace SynapseKernel.Paging
open SynapseKernel.Word SynapseKernel.ByteMemory SynapseKernel.Bitmap SynapseKernel.PageEntry
open SynapseKernel.Runs SynapseKernel.Proc

/-- The frame `f` holds the page directory or a table that it points to. -/
def HoldsStructure (s : State) (f : Nat) : Prop :=
  f = s.kernelPageDir / pageSize ∨
    ∃ i < pageDirEntries, ¬ (dirEntry s i &&& pagePresent = 0) ∧
      tableOf (dirEntry s i) / pageSize = f

/-- No frame of a paging structure is marked free. -/
def StructuresMarked (s : State) : Prop := ∀ f, HoldsStructure s f → marked s f = true

/-- A request of a user process. -/
inductive Request
  | mmap (regs : Regs)
  | munmap (regs : Regs)

def serve (s : State) : Request → State
  | .mmap regs => (sysMmapHandler s regs).2
  | .munmap regs => (sysMunmapHandler s regs).2

/-- No page of a range to unmap translates to a paging structure. -/
def SparesStructures (s : State) : Request → Prop
  | .mmap _ => True
  | .munmap regs => ∀ k < pagesOf regs.ecx,
      ¬ HoldsStructure s (getPhysicalAddr s (pageAddr regs.ebx k) / pageSize)

/-- Physical frames for the directory and the tables, apart from one another
and from the bitmap's frame. -/
structure TableFrames (d : Nat) (tbl : Nat → Nat) : Prop where
  directory : d ≠ 0 ∧ d ≠ 256 ∧ d < 32768
  table : ∀ i < 1024, tbl i ≠ 0 ∧ tbl i ≠ 256 ∧ tbl i < 32768 ∧ tbl i ≠ d
  injective : ∀ i < 1024, ∀ j < 1024, tbl i = tbl j → i = j

/-- The state `init_paging` is written to build: every directory entry present,
every page mapped to the frame of its own number, the structures marked. -/
structure IdentityMapped (s : State) (d : Nat) (tbl : Nat → Nat) : Prop where
  frames : TableFrames d tbl
  pageDir : s.kernelPageDir = d * 4096
  frameBitmap : s.frameBitmap = 0x100000
  total : s.totalFrames = 32768
  dirs : ∀ i < 1024, dirEntry s i = (tbl i * 4096) ||| pagePresent ||| pageWritable
  entries : ∀ i < 1024, ∀ j < 1024, read32 s.mem (entryAddr (tbl i * 4096) j) =
    ((i * 1024 + j) * 4096) ||| pagePresent ||| pageWritable
  marked : marked s d = true ∧ ∀ i < 1024, marked s (tbl i) = true

/-- The directory and the tables are where the identity map put them. -/
structure Structures (s : State) (d : Nat) (tbl : Nat → Nat) : Prop where
  frames : TableFrames d tbl
  pageDir : s.kernelPageDir = d * 4096
  frameBitmap : s.frameBitmap = 256 * 4096
  total : s.totalFrames = 32768
  dirs : ∀ i < 1024, Encodes (frameWord s.mem d i) (some (tbl i))

variable {s : State} {d addr : Nat} {tbl : Nat → Nat}

/-! ## Reading the structures -/

theorem IdentityMapped.structures (h : IdentityMapped s d tbl) : Structures s d tbl := by
  refine ⟨h.frames, h.pageDir, h.frameBitmap, h.total, fun i hi => ?_⟩
  have he := h.dirs i hi
  have hlow : tbl i * 4096 ||| 3 = tbl i * 4096 + 3 := lor_low (k := 12) (by decide)
  rw [dirEntry_eq h.pageDir, Nat.lor_assoc, show pagePresent ||| pageWritable = 3 by decide,
    hlow] at he
  rw [he]
  refine ⟨?_, ?_⟩ <;> omega

theorem Structures.hasTable (h : Structures s d tbl) (ha : addr < 2 ^ 32) :
    HasTable s d addr (tbl (addr / 4096 / 1024)) :=
  ⟨h.pageDir, h.dirs _ (by omega)⟩

theorem Structures.holdsStructure_iff (h : Structures s d tbl) {f : Nat} :
    HoldsStructure s f ↔ f = d ∨ ∃ i < 1024, tbl i = f := by
  have hdir : s.kernelPageDir / pageSize = d := by
    rw [h.pageDir, Nat.mul_div_cancel d (by decide)]
  have hentry : ∀ i < 1024, ¬ (dirEntry s i &&& pagePresent = 0) ∧
      tableOf (dirEntry s i) / pageSize = tbl i := by
    intro i hi
    have he := h.dirs i hi
    rw [dirEntry_eq h.pageDir, land_present, tableOf, land_page (frameWord_lt _ _ _),
      Nat.mul_div_cancel _ (by decide), he.1, he.2]
    exact ⟨by decide, rfl⟩
  rw [HoldsStructure, hdir]
  constructor
  · intro hf
    rcases hf with hf | ⟨i, hi, -, hf⟩
    · exact .inl hf
    · exact .inr ⟨i, hi, (hentry i hi).2.symm.trans hf⟩
  · intro hf
    rcases hf with hf | ⟨i, hi, hf⟩
    · exact .inl hf
    · exact .inr ⟨i, hi, (hentry i hi).1, (hentry i hi).2.trans hf⟩

theorem Structures.frame_bounds (h : Structures s d tbl) {f : Nat} (hf : HoldsStructure s f) :
    f ≠ 0 ∧ f < 32768 := by
  rcases h.holdsStructure_iff.mp hf with rfl | ⟨i, hi, rfl⟩
  · exact ⟨h.frames.directory.1, h.frames.directory.2.2⟩
  · exact ⟨(h.frames.table i hi).1, (h.frames.table i hi).2.2.1⟩

/-- The frame a page translates to, read off its entry. -/
theorem Structures.entry_cases (h : Structures s d tbl) (ha : addr < 2 ^ 32) :
    (Encodes (frameWord s.mem (tbl (addr / 4096 / 1024)) (addr / 4096 % 1024)) none ∧
      getPhysicalAddr s addr = 0) ∨
    ∃ f, Encodes (frameWord s.mem (tbl (addr / 4096 / 1024)) (addr / 4096 % 1024)) (some f) ∧
      getPhysicalAddr s addr / pageSize = f := by
  rcases Nat.mod_two_eq_zero_or_one
    (frameWord s.mem (tbl (addr / 4096 / 1024)) (addr / 4096 % 1024)) with he | he
  · exact .inl ⟨he, (h.hasTable ha).getPhysicalAddr_absent he⟩
  · refine .inr ⟨_, ⟨rfl, he⟩, ?_⟩
    rw [(h.hasTable ha).getPhysicalAddr_present ⟨rfl, he⟩]
    simp only [pageSize]
    omega

/-- The translated frame depends on the page only. -/
theorem Structures.frame_congr (h : Structures s d tbl) {a b : Nat} (ha : a < 2 ^ 32)
    (hb : b < 2 ^ 32) (hab : a / 4096 = b / 4096) :
    getPhysicalAddr s a / pageSize = getPhysicalAddr s b / pageSize := by
  rcases h.entry_cases ha with ⟨hea, hfa⟩ | ⟨f, hea, hfa⟩
  · rw [hab] at hea
    rw [hfa, (h.hasTable hb).getPhysicalAddr_absent hea]
  · rw [hab] at hea
    rw [hfa, (h.hasTable hb).getPhysicalAddr_present hea]
    simp only [pageSize]
    omega

/-- Equal entries translate alike. -/
theorem Structures.getPhysicalAddr_congr {s' : State} (h : Structures s d tbl)
    (h' : Structures s' d tbl) (ha : addr < 2 ^ 32)
    (he : frameWord s'.mem (tbl (addr / 4096 / 1024)) (addr / 4096 % 1024) =
      frameWord s.mem (tbl (addr / 4096 / 1024)) (addr / 4096 % 1024)) :
    getPhysicalAddr s' addr = getPhysicalAddr s addr := by
  rcases Nat.mod_two_eq_zero_or_one
    (frameWord s.mem (tbl (addr / 4096 / 1024)) (addr / 4096 % 1024)) with hb | hb
  · rw [(h.hasTable ha).getPhysicalAddr_absent hb,
      (h'.hasTable ha).getPhysicalAddr_absent (by rw [he]; exact hb)]
  · rw [(h.hasTable ha).getPhysicalAddr_present ⟨rfl, hb⟩,
      (h'.hasTable ha).getPhysicalAddr_present (by rw [he]; exact ⟨rfl, hb⟩)]

/-! ## What the operations preserve -/

theorem Structures.freeFrame (h : Structures s d tbl) (f : Nat) :
    Structures (freeFrame s f) d tbl := by
  obtain ⟨hdir, hbitmap, htotal⟩ := freeFrame_fields s f
  refine ⟨h.frames, hdir.trans h.pageDir, hbitmap.trans h.frameBitmap, htotal.trans h.total,
    fun i hi => ?_⟩
  rw [frameWord_freeFrame h.frameBitmap h.total f h.frames.directory.2.1 hi]
  exact h.dirs i hi

theorem Structures.takeFrame (h : Structures s d tbl) {f : Nat} (hf : f < 32768) :
    Structures (takeFrame s f) d tbl := by
  refine ⟨h.frames, h.pageDir, h.frameBitmap, h.total, fun i hi => ?_⟩
  rw [frameWord_takeFrame h.frameBitmap hf h.frames.directory.2.1 hi]
  exact h.dirs i hi

/-- A store to a table is not seen in the directory. -/
theorem Structures.setTableWord (h : Structures s d tbl) {i k : Nat} (hi : i < 1024)
    (hk : k < 1024) (v : Nat) :
    Structures { s with mem := setFrameWord s.mem (tbl i) k v } d tbl := by
  refine ⟨h.frames, h.pageDir, h.frameBitmap, h.total, fun j hj => ?_⟩
  rw [frameWord_setFrameWord_ne hk hj (.inl (h.frames.table i hi).2.2.2)]
  exact h.dirs j hj

/-- One page: its frame is freed, its entry cleared, other pages are left alone. -/
theorem Structures.munmapPage (h : Structures s d tbl) (ha : addr < 2 ^ 32) :
    Structures (munmapPage s addr) d tbl ∧
    (∀ g < 32768, g ≠ 0 → marked (munmapPage s addr) g =
      (marked s g && !decide (getPhysicalAddr s addr / pageSize = g))) ∧
    (∀ a < 2 ^ 32, a / 4096 = addr / 4096 → getPhysicalAddr (munmapPage s addr) a = 0) ∧
    ∀ a < 2 ^ 32, a / 4096 ≠ addr / 4096 →
      getPhysicalAddr (munmapPage s addr) a = getPhysicalAddr s a := by
  have hi : addr / 4096 / 1024 < 1024 := by omega
  have hk : addr / 4096 % 1024 < 1024 := Nat.mod_lt _ (by decide)
  have ht := h.frames.table _ hi
  rcases h.entry_cases ha with ⟨he, hzero⟩ | ⟨f, he, hframe⟩
  · -- nothing is mapped, so nothing happens
    have hsame : Paging.munmapPage s addr = s := by
      rw [Paging.munmapPage, hzero]
      exact (h.hasTable ha).unmapPage_absent he
    rw [hsame, hzero]
    refine ⟨h, fun g _ hg => ?_, fun a ha' hpage => ?_, fun a _ _ => rfl⟩
    · simp [Ne.symm hg]
    · rw [← hpage] at he
      exact (h.hasTable ha').getPhysicalAddr_absent he
  · have hunmap := (h.hasTable ha).munmapPage h.frameBitmap h.total h.frames.directory.2.1 ht.2.1
      ha he
    have hresult : Structures (withoutPage s (tbl (addr / 4096 / 1024)) (addr / 4096 % 1024) f)
        d tbl := (h.freeFrame f).setTableWord hi hk 0
    rw [hunmap, hframe]
    refine ⟨hresult, fun g hg _ => ?_, fun a ha' hpage => ?_, fun a ha' hpage => ?_⟩
    · rw [marked_withoutPage h.frameBitmap hk ht.2.1 hg, marked_freeFrame, h.total]
      by_cases hgf : g = f
      · subst hgf
        simp [hg]
      · simp [hgf, Ne.symm hgf]
    · refine (hresult.hasTable ha').getPhysicalAddr_absent ?_
      rw [hpage, withoutPage, frameWord_setFrameWord]
      rfl
    · refine h.getPhysicalAddr_congr hresult ha' ?_
      have ht' := h.frames.table (a / 4096 / 1024) (by omega)
      rw [withoutPage, frameWord_setFrameWord_ne hk (by omega),
        frameWord_freeFrame h.frameBitmap h.total f ht'.2.1 (by omega)]
      by_cases hdir : addr / 4096 / 1024 = a / 4096 / 1024
      · exact .inr (by omega)
      · exact .inl fun heq => hdir (h.frames.injective _ hi _ (by omega) heq)

/-- **What `munmap` frees.** A range loses the marks of exactly the frames that
its pages translate to when the call begins. -/
theorem Structures.munmapFrom (h : Structures s d tbl) (base n i : Nat) :
    Structures (munmapFrom base n i s) d tbl ∧
    ∀ g < 32768, g ≠ 0 → (marked (munmapFrom base n i s) g = true ↔
      marked s g = true ∧ ∀ k, i ≤ k → k < i + n →
        getPhysicalAddr s (pageAddr base k) / pageSize ≠ g) := by
  induction n generalizing s i with
  | zero => exact ⟨h, fun g _ _ => ⟨fun hm => ⟨hm, fun k _ _ => by omega⟩, fun hm => hm.1⟩⟩
  | succ n ih =>
    obtain ⟨hs, hmarks, hgone, hkept⟩ := h.munmapPage (pageAddr_lt base i)
    obtain ⟨hrest, hmarked⟩ := ih hs (i + 1)
    refine ⟨hrest, fun g hg hg0 => ?_⟩
    rw [Paging.munmapFrom, hmarked g hg hg0, hmarks g hg hg0]
    simp only [Bool.and_eq_true, Bool.not_eq_true', decide_eq_false_iff_not]
    constructor
    · intro ⟨⟨hm, hne⟩, hlater⟩
      refine ⟨hm, fun k hik hk => ?_⟩
      by_cases hpage : pageAddr base k / 4096 = pageAddr base i / 4096
      · rwa [h.frame_congr (pageAddr_lt base k) (pageAddr_lt base i) hpage]
      · have hki : k ≠ i := fun he => hpage (by rw [he])
        have hne' := hlater k (by omega) (by omega)
        rwa [hkept _ (pageAddr_lt base k) hpage] at hne'
    · intro ⟨hm, hall⟩
      refine ⟨⟨hm, hall i (Nat.le_refl i) (by omega)⟩, fun k hik hk => ?_⟩
      by_cases hpage : pageAddr base k / 4096 = pageAddr base i / 4096
      · rw [hgone _ (pageAddr_lt base k) hpage]
        exact fun he => hg0 (by rw [← he]; rfl)
      · rw [hkept _ (pageAddr_lt base k) hpage]
        exact hall k (by omega) (by omega)

/-- `mmap` only marks frames. -/
theorem Structures.mmapFrom (h : Structures s d tbl) (base prot n i : Nat) :
    Structures (mmapFrom base prot n i s).2 d tbl ∧
    ∀ g < 32768, marked s g = true → marked (mmapFrom base prot n i s).2 g = true := by
  induction n generalizing s i with
  | zero => exact ⟨h, fun _ _ hm => hm⟩
  | succ n ih =>
    rw [Paging.mmapFrom]
    rcases allocFrame_cases s with ⟨f, hf, he⟩ | ⟨-, he⟩
    · have hlt : f < 32768 := by
        rw [← h.total]
        exact hf.1
      have htake := h.takeFrame hlt
      have hgrow : ∀ g, marked s g = true → marked (Paging.takeFrame s f) g = true := by
        intro g hm
        rw [marked_takeFrame, hm, Bool.or_true]
      simp only [he]
      by_cases hf0 : f = 0
      · rw [if_pos hf0]
        exact ⟨htake, fun g _ hm => hgrow g hm⟩
      · have ha := pageAddr_lt base i
        have ht := h.frames.table (pageAddr base i / 4096 / 1024) (by omega)
        rw [if_neg hf0, (htake.hasTable ha).mapPage]
        obtain ⟨hrest, hmarked⟩ := ih (i := i + 1)
          (htake.setTableWord (i := pageAddr base i / 4096 / 1024) (by omega)
            (Nat.mod_lt (pageAddr base i / 4096) (by decide))
            ((u32 (f * pageSize) &&& 0xFFFFF000) ||| pageFlags prot ||| pagePresent))
        refine ⟨hrest, fun g hg hm => hmarked g hg ?_⟩
        have hpage := marked_withPage htake.frameBitmap (u32 (f * pageSize)) (pageFlags prot)
          (Nat.mod_lt (pageAddr base i / 4096) (by decide)) ht.2.1 hg
        exact hpage.trans (hgrow g hm)
    · simp only [he, if_true]
      exact ⟨h, fun _ _ hm => hm⟩

/-! ## Runs of requests -/

theorem serve_mmap (s : State) (regs : Regs) : Paging.serve s (.mmap regs) =
    (mmapFrom (mmapBase regs.ebx) regs.edx (pagesOf regs.ecx) 0 s).2 := by
  rw [Paging.serve, sysMmapHandler_snd]

theorem serve_munmap (s : State) (regs : Regs) :
    Paging.serve s (.munmap regs) = munmapFrom regs.ebx (pagesOf regs.ecx) 0 s := by
  rw [Paging.serve, sysMunmapHandler, munmap]

theorem Structures.serve (h : Structures s d tbl) (r : Request) : Structures (serve s r) d tbl := by
  cases r with
  | mmap regs =>
    rw [serve_mmap]
    exact (h.mmapFrom _ _ _ _).1
  | munmap regs =>
    rw [serve_munmap]
    exact (h.munmapFrom _ _ _).1

theorem Structures.serve_mmap_marked (h : Structures s d tbl) (regs : Regs) {g : Nat}
    (hg : g < 32768) (hm : marked s g = true) : marked (Paging.serve s (.mmap regs)) g = true := by
  rw [serve_mmap]
  exact (h.mmapFrom _ _ _ _).2 g hg hm

theorem Structures.holdsStructure_serve (h : Structures s d tbl) (r : Request) {f : Nat} :
    HoldsStructure (Paging.serve s r) f ↔ HoldsStructure s f :=
  (h.serve r).holdsStructure_iff.trans h.holdsStructure_iff.symm

/-- A request that spares the structures leaves them marked. -/
theorem Structures.serve_spares (h : Structures s d tbl) (hm : StructuresMarked s) {r : Request}
    (hok : SparesStructures s r) : StructuresMarked (Paging.serve s r) := by
  intro f hf
  rw [h.holdsStructure_serve] at hf
  obtain ⟨hf0, hlt⟩ := h.frame_bounds hf
  cases r with
  | mmap regs => exact h.serve_mmap_marked regs hlt (hm f hf)
  | munmap regs =>
    rw [serve_munmap]
    refine ((h.munmapFrom _ _ _).2 f hlt hf0).mpr ⟨hm f hf, ?_⟩
    intro k _ hk he
    exact hok k (by omega) (he ▸ hf)

/-- A request that does not spare them frees one. -/
theorem Structures.serve_frees (h : Structures s d tbl) {r : Request}
    (hbad : ¬ SparesStructures s r) : ¬ StructuresMarked (Paging.serve s r) := by
  intro hm
  cases r with
  | mmap regs => exact hbad trivial
  | munmap regs =>
    refine hbad fun k hk hf => ?_
    obtain ⟨hf0, hlt⟩ := h.frame_bounds hf
    have hmark := hm _ ((h.holdsStructure_serve _).mpr hf)
    rw [serve_munmap] at hmark
    have hkept := ((h.munmapFrom _ _ _).2 _ hlt hf0).mp hmark
    exact hkept.2 k (Nat.zero_le k) (by omega) rfl

/-- **User unmapping and the paging structures.** In a run of requests from the
identity map the directory and the tables stay marked as used throughout if and
only if no `sys_munmap` names a page that translates to one of them. -/
theorem structuresMarked_iff_spares (h : IdentityMapped s d tbl) (rs : List Request) :
    Always Paging.serve StructuresMarked s rs ↔ Guarded Paging.serve SparesStructures s rs := by
  refine always_iff_guarded (fun s => Structures s d tbl ∧ StructuresMarked s) (fun s hs => hs.2)
    (fun s r hs hok => ⟨hs.1.serve r, hs.1.serve_spares hs.2 hok⟩)
    (fun s r hs hbad => hs.1.serve_frees hbad) ⟨h.structures, fun f hf => ?_⟩ rs
  rcases h.structures.holdsStructure_iff.mp hf with rfl | ⟨i, hi, rfl⟩
  · exact h.marked.1
  · exact h.marked.2 i hi

/-! ## An identity map -/

/-- The words of an identity map: every bit of the bitmap set, the directory in
frame 257, the tables in the frames after it. -/
def identityWord (w : Nat) : Nat :=
  if w / 1024 = 256 then 0xFFFFFFFF
  else if w / 1024 = 257 then (258 + w % 1024) * 4096 + 3
  else ((w / 1024 - 258) * 1024 + w % 1024) * 4096 + 3

def identityState : State :=
  { mem := ofWords identityWord, totalFrames := 32768, usedFrames := 32768,
    frameBitmap := 0x100000, kernelPageDir := 257 * 4096 }

theorem marked_identityState {i : Nat} (hi : i < 32768) : marked identityState i = true := by
  have haddr : wordAddr 0x100000 i = 4 * (0x40000 + i / 32) := by
    unfold wordAddr
    omega
  have hword : identityWord (0x40000 + i / 32) = 2 ^ 32 - 1 := if_pos (by omega)
  rw [marked, bit]
  simp only [identityState]
  rw [haddr, read32_ofWords, hword, Nat.mod_eq_of_lt (by decide), Nat.testBit_two_pow_sub_one,
    decide_eq_true (Nat.mod_lt _ (by decide))]

/-- An entry of the identity map is an address with the two lowest bits set. -/
theorem identity_entry (x : Nat) : x * 4096 ||| pagePresent ||| pageWritable = x * 4096 + 3 := by
  rw [Nat.lor_assoc]
  exact lor_low (k := 12) (by decide)

theorem identityMapped_identityState : IdentityMapped identityState 257 (258 + ·) := by
  refine ⟨⟨by decide, fun i hi => ?_, fun i _ j _ he => ?_⟩, rfl, rfl, rfl, fun i hi => ?_,
    fun i hi j hj => ?_, marked_identityState (by decide),
    fun i hi => marked_identityState (by omega)⟩
  · omega
  · omega
  · have hword : identityWord (257 * 1024 + i) = (258 + i) * 4096 + 3 := by
      rw [identityWord, if_neg (by omega), if_pos (by omega)]
      omega
    have haddr : 257 * 4096 + 4 * i = 4 * (257 * 1024 + i) := by omega
    rw [dirEntry, identity_entry, entryAddr]
    simp only [identityState]
    rw [haddr, read32_ofWords, hword]
    omega
  · have hword : identityWord ((258 + i) * 1024 + j) = (i * 1024 + j) * 4096 + 3 := by
      rw [identityWord, if_neg (by omega), if_neg (by omega)]
      omega
    have haddr : (258 + i) * 4096 + 4 * j = 4 * ((258 + i) * 1024 + j) := by omega
    rw [identity_entry, entryAddr]
    simp only [identityState]
    rw [haddr, read32_ofWords, hword]
    omega

/-- A run of one `sys_munmap` at `addr`, of `length` bytes. -/
def munmapRequest (addr length : Nat) : Request :=
  .munmap ⟨9, addr, length, 0, 0, 0, 0, 0, 0, 0, 0, 0, 0, 0, 0, 0⟩

theorem IdentityMapped.getPhysicalAddr (h : IdentityMapped s d tbl) (ha : addr < 2 ^ 32) :
    getPhysicalAddr s addr = addr := by
  have he := h.entries (addr / 4096 / 1024) (by omega) (addr / 4096 % 1024) (by omega)
  have hpage : addr / 4096 / 1024 * 1024 + addr / 4096 % 1024 = addr / 4096 := by omega
  rw [identity_entry, hpage] at he
  have henc : Encodes (frameWord s.mem (tbl (addr / 4096 / 1024)) (addr / 4096 % 1024))
      (some (addr / 4096)) := by
    rw [frameWord, show _ + _ = entryAddr _ _ from rfl, he]
    refine ⟨?_, ?_⟩ <;> omega
  have hphys := (h.structures.hasTable ha).getPhysicalAddr_present henc
  exact hphys.trans (Nat.div_add_mod' addr 4096)

/-- Two pages behind the first one, of which none holds a structure. -/
theorem structuresMarked_iff_spares_two :
    Always Paging.serve StructuresMarked identityState [munmapRequest 0x1000 0x1001] := by
  refine (structuresMarked_iff_spares identityMapped_identityState _).mpr
    ⟨fun k hk hf => ?_, trivial⟩
  have hpages : pagesOf 0x1001 = 2 := rfl
  replace hk : k < 2 := hpages ▸ hk
  rw [identityMapped_identityState.getPhysicalAddr (pageAddr_lt _ _)] at hf
  have hframe : pageAddr 0x1000 k / pageSize = 1 + k := by
    unfold pageAddr pageSize
    rw [u32_of_lt (by omega)]
    omega
  rcases identityMapped_identityState.structures.holdsStructure_iff.mp hf with hd | ⟨i, -, ht⟩
  · have hdir := hframe.symm.trans hd
    omega
  · have htable := hframe.symm.trans ht.symm
    omega

/-- A run that begins with a request that does not spare the structures. -/
theorem IdentityMapped.not_always (h : IdentityMapped s d tbl) {r : Request} {rs : List Request}
    (hbad : ¬ SparesStructures s r) : ¬ Always Paging.serve StructuresMarked s (r :: rs) :=
  fun hall => h.structures.serve_frees hbad hall.2.head

theorem not_sparesStructures_directory :
    ¬ SparesStructures identityState (munmapRequest 0x101000 1) := by
  intro hok
  have hzero := hok 0 (by decide)
  rw [identityMapped_identityState.getPhysicalAddr (pageAddr_lt _ _)] at hzero
  exact hzero (.inl (by decide))

/-- A user process unmaps one byte at the address of the page directory. -/
theorem munmap_frees_directory : IdentityMapped identityState 257 (258 + ·) ∧
    ¬ Always Paging.serve StructuresMarked identityState [munmapRequest 0x101000 1] :=
  ⟨identityMapped_identityState,
    identityMapped_identityState.not_always not_sparesStructures_directory⟩

end SynapseKernel.Paging
