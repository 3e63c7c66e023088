import SynapseKernel.Fs.RamfsLinks

/-! # What the operations of a RamFS do

Each operation on a live directory of a `Forest` leaves a `Forest`. A directory
that was not changed keeps its entries (`Kept`). -/
namespace SynapseKernel.Fs
open SynapseKernel.Word SynapseKernel.Kheap SynapseKernel.Blocks SynapseKernel.Str
open SynapseKernel.Ring

variable {s s' : Ramfs} {d e c i : Nat} {q : Nat → List Nat} {role : Nat → Role} {l m : List Nat}
  {type : FileType} {name : FileName}

/-- The inode that is made next. -/
def newInode (s : Ramfs) (type : FileType) : RamfsInode :=
  { inode := s.nextInode, type := type, size := 0, permissions := 0o755, uid := 0, gid := 0
    atime := 0, mtime := 0, ctime := 0, privateData := s.heap.requests + 1, entries := 0, data := 0
    dataSize := 0, dataCapacity := 0 }

theorem ramfsAllocInode_cases (s : Ramfs) (type : FileType) :
    (s.heap.grants s.heap.requests = false ∧
      ramfsAllocInode s type = (0, { s with heap := (s.heap.kmalloc ramfsInodeSize).2 })) ∨
    (s.heap.grants s.heap.requests = true ∧
      ramfsAllocInode s type = (s.heap.requests + 1, { s with
        heap := (s.heap.kmalloc ramfsInodeSize).2
        inodes := Function.update s.inodes (s.heap.requests + 1) (newInode s type)
        nextInode := u32 (s.nextInode + 1)
        made := (s.heap.requests + 1) :: s.made })) := by
  rcases s.heap.kmalloc_cases ramfsInodeSize with ⟨hg, h0⟩ | ⟨hg, hnew⟩
  · refine .inl ⟨hg, ?_⟩
    rw [ramfsAllocInode]
    exact if_pos h0
  · refine .inr ⟨hg, ?_⟩
    rw [ramfsAllocInode]
    simp only [hnew, if_neg (Nat.succ_ne_zero _)]
    rfl

/-- The new inode and the entry for it, neither made known yet. -/
def offer (s : Ramfs) (name : FileName) (type : FileType) : Ramfs :=
  { s with
    heap := ((s.heap.kmalloc ramfsInodeSize).2.kmalloc ramfsDirEntrySize).2
    inodes := Function.update s.inodes (s.heap.requests + 1) (newInode s type)
    entries := Function.update s.entries (s.heap.requests + 2)
      { s.entries (s.heap.requests + 2) with name := name, inode := s.heap.requests + 1 }
    nextInode := u32 (s.nextInode + 1) }

/-- The offered inode is made known and linked. -/
def accept (s : Ramfs) (d : Nat) (name : FileName) (type : FileType) : Ramfs :=
  addEntry { offer s name type with made := (s.heap.requests + 1) :: s.made } d
    (s.heap.requests + 2)

theorem quiet_offer (s : Ramfs) (name : FileName) (type : FileType) :
    Quiet s (offer s name type) := by
  refine ⟨((BlockHeap.Later.refl _).kmalloc ramfsInodeSize).kmalloc ramfsDirEntrySize,
    fun p hp => Function.update_of_ne ?_ _ _, fun p hp => Function.update_of_ne ?_ _ _,
    fun _ => id, fun _ => .inl, rfl⟩
  · exact Nat.ne_of_lt (Nat.lt_succ_of_le hp)
  · exact Nat.ne_of_lt (Nat.lt_succ_of_le (Nat.le_succ_of_le hp))

/-- The names in a directory with what they refer to. -/
def bindings (s : Ramfs) (l : List Nat) : List (FileName × Nat) :=
  l.map fun e => ((s.entries e).name, (s.entries e).inode)

/-- The inode `c` was made and linked in `d` by the entry `e`. -/
structure Created (s s' : Ramfs) (q : Nat → List Nat) (role : Nat → Role) (d : Nat)
    (name : FileName) (type : FileType) (c e : Nat) : Prop where
  forest : Forest s' (Function.update (Function.update q c []) d (q d ++ [e]))
    (Function.update (Function.update role c (.inode d e)) e (.entry d))
  heap : s.heap.Later s'.heap
  grants : s'.heap.grants = s.heap.grants
  requests : s'.heap.requests = s.heap.requests + 2
  fresh : s.heap.requests < c
  fresh' : s.heap.requests < e
  made : s'.made = c :: s.made
  live : LiveInode s' c
  block : c = s.heap.requests + 1
  inode : s'.inodes c = newInode s type
  kind : ∀ i ≤ s.heap.requests, (s'.inodes i).type = (s.inodes i).type
  bindings : bindings s' (q d ++ [e]) = bindings s (q d) ++ [(name, c)]

theorem Created.self (h : Created s s' q role d name type c e) :
    (s'.inodes c).privateData = c := by
  rw [h.inode, h.block]
  rfl

theorem Created.type' (h : Created s s' q role d name type c e) : (s'.inodes c).type = type := by
  rw [h.inode]
  rfl

/-- The requests for an inode and its entry; the first is undone when the second is
refused. -/
def requestBoth {α : Type} (s : Ramfs) (type : FileType) (refused : Ramfs → α)
    (granted : Nat → Nat → Ramfs → α) : α :=
  let made := ramfsAllocInode s type
  if made.1 = 0 then refused made.2
  else
    let entry := made.2.heap.kmalloc ramfsDirEntrySize
    let s := { made.2 with heap := entry.2 }
    if entry.1 = 0 then refused (s.kfree made.1) else granted made.1 entry.1 s

/-- **Both requests are granted**, or nothing is left of them. -/
theorem requestBoth_cases (s : Ramfs) (type : FileType) :
    (¬ s.heap.GrantsNext 2 ∧ ∃ s', Quiet s s' ∧ (∀ p, s'.heap.Live p ↔ s.heap.Live p) ∧
      ∀ {α : Type} (refused : Ramfs → α) (granted : Nat → Nat → Ramfs → α),
        requestBoth s type refused granted = refused s') ∨
    (s.heap.GrantsNext 2 ∧
      ∀ {α : Type} (refused : Ramfs → α) (granted : Nat → Nat → Ramfs → α),
        requestBoth s type refused granted = granted (s.heap.requests + 1) (s.heap.requests + 2)
          { s with
            heap := ((s.heap.kmalloc ramfsInodeSize).2.kmalloc ramfsDirEntrySize).2
            inodes := Function.update s.inodes (s.heap.requests + 1) (newInode s type)
            nextInode := u32 (s.nextInode + 1)
            made := (s.heap.requests + 1) :: s.made }) := by
  have hlater := (BlockHeap.Later.refl s.heap).kmalloc ramfsInodeSize
  rcases ramfsAllocInode_cases s type with ⟨hg, ha⟩ | ⟨hg, ha⟩
  · refine .inl ⟨BlockHeap.not_grantsNext Nat.two_pos hg,
      { s with heap := (s.heap.kmalloc ramfsInodeSize).2 }, ?_,
      fun p => @BlockHeap.live_kmalloc_refused _ p ramfsInodeSize hg, fun refused granted => ?_⟩
    · exact ⟨hlater, fun _ _ => rfl, fun _ _ => rfl, fun _ => id, fun _ => .inl, rfl⟩
    · unfold requestBoth
      rw [ha]
      exact if_pos rfl
  rcases (s.heap.kmalloc ramfsInodeSize).2.kmalloc_cases ramfsDirEntrySize with
    ⟨hg', h0⟩ | ⟨hg', hnew⟩
  · refine .inl ⟨BlockHeap.not_grantsNext Nat.one_lt_two hg', Ramfs.kfree { s with
      heap := ((s.heap.kmalloc ramfsInodeSize).2.kmalloc ramfsDirEntrySize).2
      inodes := Function.update s.inodes (s.heap.requests + 1) (newInode s type)
      nextInode := u32 (s.nextInode + 1)
      made := (s.heap.requests + 1) :: s.made } (s.heap.requests + 1), ?_, fun p => ?_,
      fun refused granted => ?_⟩
    · refine ⟨(hlater.kmalloc ramfsDirEntrySize).kfree (Nat.lt_succ_self _) (Nat.le_succ _),
        fun p hp => Function.update_of_ne (Nat.ne_of_lt (Nat.lt_succ_of_le hp)) _ _,
        fun _ _ => rfl, fun i hi => List.mem_cons_of_mem _ hi, fun i hi => ?_, rfl⟩
      rcases List.mem_cons.mp hi with rfl | hi
      · exact .inr ⟨Nat.le_succ _, List.mem_cons_self⟩
      · exact .inl hi
    · exact BlockHeap.live_undo_one hg'
    · unfold requestBoth
      rw [ha]
      exact (if_neg (Nat.succ_ne_zero _)).trans (if_pos h0)
  · refine .inr ⟨((s.heap.grantsNext_zero).succ hg).succ hg', fun refused granted => ?_⟩
    unfold requestBoth
    simp only [ha, hnew, if_neg (Nat.succ_ne_zero _)]
    rfl

/-- Where the name is not there `ramfs_create` makes its requests. -/
theorem ramfsCreate_eq (h : Forest s q role) (hd : LiveInode s d)
    (htype : (s.inodes d).type = .directory) (hname : ∀ e ∈ q d, (s.entries e).name ≠ name) :
    ramfsCreate s d name type = requestBoth s type (fun s => some (0, s)) fun newInode newEntry s =>
      some (newInode, addEntry (s.setEntry newEntry fun e =>
        { e with name := name, inode := newInode }) d newEntry) := by
  have hn := h.node d hd
  have hfind : ramfsFindEntry s d name.toCString = some 0 := by
    rcases hn.find_cases name.toCString with ⟨e, he, hen, -⟩ | ⟨-, hfind⟩
    · exact absurd (FileName.toCString_inj hen) (hname e he)
    · exact hfind
  unfold ramfsCreate
  simp only [hn.self, htype, hfind]
  rfl

/-- **What `ramfs_create` does** where the name is not there. -/
theorem ramfsCreate_absent (h : Forest s q role) (hd : LiveInode s d)
    (htype : (s.inodes d).type = .directory) (hname : ∀ e ∈ q d, (s.entries e).name ≠ name) :
    (¬ s.heap.GrantsNext 2 ∧ ∃ s', ramfsCreate s d name type = some (0, s') ∧ Quiet s s') ∨
    (s.heap.GrantsNext 2 ∧
      ramfsCreate s d name type = some (s.heap.requests + 1, accept s d name type)) := by
  rw [ramfsCreate_eq h hd htype hname]
  rcases requestBoth_cases s type with ⟨hg, s', hquiet, -, hcall⟩ | ⟨hg, hcall⟩
  · exact .inl ⟨hg, s', hcall _ _, hquiet⟩
  · exact .inr ⟨hg, hcall _ _⟩

/-- **The accepted inode** is live and linked by the last entry of the directory. -/
theorem created_accept (h : Forest s q role) (hd : LiveInode s d)
    (hname : ∀ e ∈ q d, (s.entries e).name ≠ name) (hg : s.heap.GrantsNext 2) :
    Created s (accept s d name type) q role d name type (s.heap.requests + 1)
      (s.heap.requests + 2) := by
  have hoffer := quiet_offer s name type
  obtain ⟨hlc, hle⟩ : (offer s name type).heap.Live (s.heap.requests + 1) ∧
      (offer s name type).heap.Live (s.heap.requests + 2) :=
    BlockHeap.live_kmalloc_two h.sane hg ramfsInodeSize ramfsDirEntrySize
  set c := s.heap.requests + 1
  set e := s.heap.requests + 2
  have hinode : (offer s name type).inodes c = newInode s type := Function.update_self _ _ _
  have hentry : (offer s name type).entries e = { s.entries e with name := name, inode := c } :=
    Function.update_self _ _ _
  have hold : ∀ x ∈ q d, (offer s name type).entries x = s.entries x := fun x hx =>
    hoffer.entries x ((h.node d hd).live x hx).le
  have hce : e ≠ c := Nat.succ_ne_self _
  have hdc : d < c := Nat.lt_succ_of_le hd.2.le
  have hspare : role c = .spare ∧ role e = .spare :=
    ⟨h.spare c (Nat.lt_succ_self _), h.spare e (Nat.lt_succ_of_lt (Nat.lt_succ_self _))⟩
  -- the inode is adopted first, then linked
  have h₁ := (h.quiet hoffer).adopt hlc hspare.1 (by rw [hinode]; rfl) (by rw [hinode]; rfl)
    (by rw [hinode]; rfl) d e
  set s₁ : Ramfs := { offer s name type with made := c :: (offer s name type).made }
  have hq : Function.update q c [] d = q d := Function.update_of_ne (Nat.ne_of_lt hdc) _ _
  have hd₁ : LiveInode s₁ d :=
    ⟨List.mem_cons_of_mem _ hd.1, (hoffer.heap.live d hd.2.le).mpr hd.2⟩
  have hc₁ : LiveInode s₁ c := ⟨List.mem_cons_self, hlc⟩
  have hn := h₁.node d hd₁
  rw [hq] at hn
  have he₁ : Function.update role c (Role.inode d e) e = .spare :=
    (Function.update_of_ne hce _ _).trans hspare.2
  have hfresh : e ∉ q d := by
    intro hm
    rcases hn.entry_role hm with hrole | hrole <;> exact nomatch he₁.symm.trans hrole
  have hr : Relinks s₁ (addEntry s₁ d e) d (q d ++ [e]) (q d ++ [e]) :=
    relinks_addEntry hn.ring hn.head (fun x hx => Nat.ne_of_gt (hn.live x hx).pos) hfresh
  have hc : (s₁.entries e).inode = c := congrArg RamfsDirEntry.inode hentry
  have hen : (s₁.entries e).name = name := congrArg RamfsDirEntry.name hentry
  have hforest := h₁.link hd₁ hle he₁ (hc.symm ▸ hc₁) (by rw [hc]; exact Function.update_self _ _ _)
    (hc.symm ▸ hdc) (fun x hx => ?_) (hq.symm ▸ hr)
  · rw [hq] at hforest
    have haccept : accept s d name type = addEntry s₁ d e := rfl
    have hinode' : (addEntry s₁ d e).inodes c = newInode s type :=
      (hr.other c (Nat.ne_of_gt hdc)).trans hinode
    rw [haccept]
    refine ⟨hforest, hr.heap.symm ▸ hoffer.heap, by rw [hr.heap]; rfl, by rw [hr.heap]; rfl,
      Nat.lt_succ_self _, Nat.lt_succ_of_lt (Nat.lt_succ_self _), hr.made,
      ⟨hr.made.symm ▸ List.mem_cons_self, hr.heap.symm ▸ hlc⟩, rfl, hinode', fun i hi => ?_, ?_⟩
    · exact (hr.fields i).1.trans (congrArg RamfsInode.type (hoffer.inodes i hi))
    · rw [bindings, List.map_append, List.map_singleton, hr.name, hr.inode, hen, hc]
      refine congrArg (· ++ _) (List.map_congr_left fun x hx => ?_)
      have hx' : s₁.entries x = s.entries x := hold x hx
      rw [hr.name, hr.inode, hx']
  · rw [hq] at hx
    rw [hen]
    exact fun he => hname x hx ((congrArg RamfsDirEntry.name (hold x hx)).symm.trans he)

/-- In what is no directory, or where the name is there, nothing is made. -/
theorem ramfsCreate_refused (h : Forest s q role) (hd : LiveInode s d)
    (hname : (s.inodes d).type ≠ .directory ∨ ∃ e ∈ q d, (s.entries e).name = name) :
    ramfsCreate s d name type = some (0, s) := by
  have hn := h.node d hd
  rw [ramfsCreate]
  simp only [hn.self]
  by_cases htype : (s.inodes d).type ≠ .directory
  · exact if_pos htype
  rw [if_neg htype]
  obtain ⟨e, he, hen⟩ := hname.resolve_left htype
  rcases hn.find_cases name.toCString with ⟨e', he', -, hfind⟩ | ⟨hno, -⟩
  · rw [hfind]
    exact if_pos (Nat.ne_of_gt (hn.live e' he').pos)
  · exact absurd (congrArg FileName.toCString hen) (hno e he)

theorem ramfsMkdir_refused (h : Forest s q role) (hd : LiveInode s d)
    (hname : (s.inodes d).type ≠ .directory ∨ ∃ e ∈ q d, (s.entries e).name = name) :
    ramfsMkdir s d name = some (-1, s) := by
  rw [ramfsMkdir, ramfsCreate_refused h hd hname]
  rfl

/-- What is left of the requests for `.` and `..` when one was refused. -/
def dropDots (s : Ramfs) : Ramfs :=
  let (dotEntry, heap) := s.heap.kmalloc ramfsDirEntrySize
  let (dotdotEntry, heap) := heap.kmalloc ramfsDirEntrySize
  ({ s with heap := heap }.kfree dotEntry).kfree dotdotEntry

/-- The requests for `.` and `..` were granted. -/
def roomForDots (s : Ramfs) : Ramfs :=
  { s with heap := ((s.heap.kmalloc ramfsDirEntrySize).2.kmalloc ramfsDirEntrySize).2 }

theorem quiet_roomForDots (s : Ramfs) : Quiet s (roomForDots s) :=
  ⟨((BlockHeap.Later.refl _).kmalloc ramfsDirEntrySize).kmalloc ramfsDirEntrySize,
    fun _ _ => rfl, fun _ _ => rfl, fun _ => id, fun _ => .inl, rfl⟩

theorem quiet_dropDots (s : Ramfs) : Quiet s (dropDots s) := by
  have hfirst := (BlockHeap.Later.refl s.heap).kmalloc ramfsDirEntrySize
  have hboth := hfirst.kmalloc ramfsDirEntrySize
  have hdot := (BlockHeap.Later.refl s.heap).kfree_result ramfsDirEntrySize
    (Nat.lt_succ_of_lt (Nat.lt_succ_self _)) hboth
  exact ⟨hfirst.kfree_result ramfsDirEntrySize (Nat.lt_succ_self _) hdot,
    fun _ _ => rfl, fun _ _ => rfl, fun _ => id, fun _ => .inl, rfl⟩

/-- Where the directory is made there is room for `.` and `..` or there is not. -/
theorem ramfsMkdir_accepted (h : Forest s q role) (hd : LiveInode s d)
    (htype : (s.inodes d).type = .directory) (hname : ∀ e ∈ q d, (s.entries e).name ≠ name)
    (hg : s.heap.GrantsNext 2) :
    (¬ s.heap.GrantsNext 4 ∧
      ramfsMkdir s d name = some (-1, dropDots (accept s d name .directory))) ∨
    (s.heap.GrantsNext 4 ∧ ramfsMkdir s d name = some (0,
      linkDots (roomForDots (accept s d name .directory)) (s.heap.requests + 1) d
        (s.heap.requests + 3) (s.heap.requests + 4))) := by
  have hcall := ((@ramfsCreate_absent s d q role .directory name h hd htype hname).resolve_left
    fun hno => hno.1 hg).2
  have hcreated : Created s (accept s d name .directory) q role d name .directory
      (s.heap.requests + 1) (s.heap.requests + 2) := created_accept h hd hname hg
  set s₁ := accept s d name .directory
  have hreq := hcreated.requests
  rw [ramfsMkdir, hcall]
  simp only [if_neg (Nat.succ_ne_zero _), hcreated.self]
  have hgrants : ∀ i, s₁.heap.grants (s₁.heap.requests + i) =
      s.heap.grants (s.heap.requests + (2 + i)) := by
    intro i
    rw [hcreated.grants, hreq, Nat.add_assoc]
  rcases s₁.heap.kmalloc_cases ramfsDirEntrySize with ⟨hg₁, h0⟩ | ⟨hg₁, hnew⟩
  · refine .inl ⟨?_, if_pos (.inl h0)⟩
    exact BlockHeap.not_grantsNext (i := 2) (by decide) ((hgrants 0).symm.trans hg₁)
  · rcases (s₁.heap.kmalloc ramfsDirEntrySize).2.kmalloc_cases ramfsDirEntrySize with
      ⟨hg₂, h0⟩ | ⟨hg₂, hnew'⟩
    · refine .inl ⟨?_, if_pos (.inr h0)⟩
      exact BlockHeap.not_grantsNext (i := 3) (by decide) ((hgrants 1).symm.trans hg₂)
    · refine .inr ⟨(hg.succ ((hgrants 0).symm.trans hg₁)).succ ((hgrants 1).symm.trans hg₂), ?_⟩
      have hreq' : (s₁.heap.kmalloc ramfsDirEntrySize).2.requests = s.heap.requests + 3 :=
        congrArg Nat.succ hreq
      simp only [hnew, hnew', hreq, hreq']
      exact if_neg (not_or.mpr ⟨Nat.succ_ne_zero _, Nat.succ_ne_zero _⟩)

/-- **What `ramfs_mkdir` does** where the name is not there. -/
theorem ramfsMkdir_absent (h : Forest s q role) (hd : LiveInode s d)
    (htype : (s.inodes d).type = .directory) (hname : ∀ e ∈ q d, (s.entries e).name ≠ name) :
    (¬ s.heap.GrantsNext 4 ∧ ∃ s', ramfsMkdir s d name = some (-1, s') ∧
      (Quiet s s' ∨ s.heap.GrantsNext 2 ∧ Quiet (accept s d name .directory) s')) ∨
    (s.heap.GrantsNext 4 ∧ ramfsMkdir s d name = some (0,
      linkDots (roomForDots (accept s d name .directory)) (s.heap.requests + 1) d
        (s.heap.requests + 3) (s.heap.requests + 4))) := by
  rcases ramfsCreate_absent h hd htype hname with ⟨hg, s', hcall, hquiet⟩ | ⟨hg, -⟩
  · refine .inl ⟨fun hg' => hg fun i hi => hg' i (by omega), s', ?_, .inl hquiet⟩
    rw [ramfsMkdir, hcall]
    rfl
  · rcases ramfsMkdir_accepted h hd htype hname hg with ⟨hno, hcall⟩ | hmade
    · exact .inl ⟨hno, _, hcall, .inr ⟨hg, quiet_dropDots _⟩⟩
    · exact .inr hmade

/-- The directory `d` got an entry of this name for a new inode. -/
structure Made (s s' : Ramfs) (q : Nat → List Nat) (role : Nat → Role) (d : Nat) (name : FileName)
    (type : FileType) (c : Nat) : Prop where
  forest : ∃ q' role' e, Forest s' q' role' ∧ q' d = q d ++ [e] ∧
    (∀ p, role p ≠ .spare → role' p = role p) ∧
    bindings s' (q d ++ [e]) = bindings s (q d) ++ [(name, c)]
  kept : ∀ i, LiveInode s i → LiveInode s' i
  live : LiveInode s' c
  fresh : c ∉ s.made
  type : (s'.inodes c).type = type

theorem Created.made' (hc : Created s s' q role d name type c e) (h : Forest s q role) :
    Made s s' q role d name type c := by
  refine ⟨⟨_, _, e, hc.forest, Function.update_self _ _ _, fun p hp => ?_, hc.bindings⟩,
    fun i hi => ⟨?_, (hc.heap.live i hi.2.le).mpr hi.2⟩, hc.live, fun hm => ?_, hc.type'⟩
  · have hpc : p ≠ c := fun he => hp (he ▸ h.spare c hc.fresh)
    have hpe : p ≠ e := fun he => hp (he ▸ h.spare e hc.fresh')
    rw [Function.update_of_ne hpe, Function.update_of_ne hpc]
  · rw [hc.made]
    exact List.mem_cons_of_mem _ hi.1
  · exact Nat.not_lt_of_le (h.made c hm) hc.fresh

theorem Made.quiet {s'' : Ramfs} {c : Nat} (hm : Made s s' q role d name type c)
    (hd : LiveInode s d) (hq : Quiet s' s'') : Made s s'' q role d name type c := by
  obtain ⟨q', role', e, hf, hqd, hrole, hb⟩ := hm.forest
  have hlive : ∀ i, LiveInode s' i → LiveInode s'' i := fun i hi => (hq.liveInode hf.made).mpr hi
  refine ⟨⟨q', role', e, hf.quiet hq, hqd, hrole, ?_⟩, fun i hi => hlive i (hm.kept i hi),
    hlive c hm.live, hm.fresh, ?_⟩
  · rw [← hb]
    refine List.map_congr_left fun x hx => ?_
    rw [hq.entries x ((hf.node d (hm.kept d hd)).live x (hqd ▸ hx)).le]
  · rw [hq.inodes c hm.live.2.le]
    exact hm.type

section Mkdir
variable (h : Forest s q role) (hd : LiveInode s d) (htype : (s.inodes d).type = .directory)
  (hname : ∀ e ∈ q d, (s.entries e).name ≠ name) (hg : s.heap.GrantsNext 4)
include h hd htype hname hg

/-- The tree with the new directory and its entries. -/
theorem forest_mkdir :
    Forest (linkDots (roomForDots (accept s d name .directory)) (s.heap.requests + 1) d
        (s.heap.requests + 3) (s.heap.requests + 4))
      (Function.update (Function.update (Function.update q (s.heap.requests + 1) []) d
        (q d ++ [s.heap.requests + 2])) (s.heap.requests + 1)
        [s.heap.requests + 3, s.heap.requests + 4])
      (dotRoles (Function.update (Function.update role (s.heap.requests + 1)
        (.inode d (s.heap.requests + 2))) (s.heap.requests + 2) (.entry d)) (s.heap.requests + 1)
        (s.heap.requests + 3) (s.heap.requests + 4)) := by
  have hcreated := @created_accept s d q role .directory name h hd hname fun i hi => hg i (by omega)
  have hmade := hcreated.made' h
  set s₁ := accept s d name .directory
  set c := s.heap.requests + 1
  have hquiet := quiet_roomForDots s₁
  have h₁ := hcreated.forest.quiet hquiet
  have hlive : ∀ i, LiveInode s₁ i → LiveInode (roomForDots s₁) i := fun i hi =>
    (hquiet.liveInode hcreated.forest.made).mpr hi
  have hreq := hcreated.requests
  have hspare : ∀ p, s.heap.requests + 2 < p → Function.update (Function.update role c
      (.inode d (s.heap.requests + 2))) (s.heap.requests + 2) (.entry d) p = .spare := fun p hp =>
    hcreated.forest.spare p (hreq.symm ▸ hp)
  have hdots : (roomForDots s₁).heap.Live (s.heap.requests + 3) ∧
      (roomForDots s₁).heap.Live (s.heap.requests + 4) := by
    have hg₁ : s₁.heap.GrantsNext 2 := fun i hi => by
      rw [hcreated.grants, hreq, Nat.add_assoc]
      exact hg _ (by omega)
    have hboth := BlockHeap.live_kmalloc_two hcreated.forest.sane hg₁ ramfsDirEntrySize
      ramfsDirEntrySize
    rw [hreq] at hboth
    exact hboth
  have hce : c ≠ s.heap.requests + 2 := Nat.ne_of_lt (Nat.lt_succ_self _)
  have hrole : Function.update (Function.update role c (.inode d (s.heap.requests + 2)))
      (s.heap.requests + 2) (.entry d) c = .inode d (s.heap.requests + 2) := by
    rw [Function.update_of_ne hce, Function.update_self]
  have htype' : (s₁.inodes d).type = .directory := (hcreated.kind d hd.2.le).trans htype
  exact h₁.linkDots (hlive c hmade.live) hrole (hlive d (hmade.kept d hd)).1 hmade.type htype'
    hdots.1 hdots.2 (hspare _ (by omega)) (hspare _ (by omega)) (by omega)

omit htype in
/-- `ramfs_mkdir` leaves the entries that were there, before the new one. -/
theorem bindings_mkdir :
    bindings (linkDots (roomForDots (accept s d name .directory)) (s.heap.requests + 1) d
        (s.heap.requests + 3) (s.heap.requests + 4)) (q d ++ [s.heap.requests + 2]) =
      bindings s (q d) ++ [(name, s.heap.requests + 1)] := by
  have hcreated := @created_accept s d q role .directory name h hd hname fun i hi => hg i (by omega)
  rw [← hcreated.bindings]
  refine List.map_congr_left fun x hx => ?_
  have hle : x ≤ s.heap.requests + 2 := by
    rcases List.mem_append.mp hx with hx | hx
    · exact Nat.le_add_right_of_le ((h.node d hd).live x hx).le
    · exact Nat.le_of_eq (List.mem_singleton.mp hx)
  have hx' : (linkDots (roomForDots (accept s d name .directory)) (s.heap.requests + 1) d
      (s.heap.requests + 3) (s.heap.requests + 4)).entries x =
        (accept s d name .directory).entries x :=
    (Function.update_of_ne (by omega) _ _).trans (Function.update_of_ne (by omega) _ _)
  rw [hx']

/-- **The directory made by `ramfs_mkdir`** has the entries `.` and `..`. -/
theorem made_mkdir :
    Made s (linkDots (roomForDots (accept s d name .directory)) (s.heap.requests + 1) d
      (s.heap.requests + 3) (s.heap.requests + 4)) q role d name .directory
      (s.heap.requests + 1) := by
  have hcreated := @created_accept s d q role .directory name h hd hname fun i hi => hg i (by omega)
  have hmade := hcreated.made' h
  have hforest := forest_mkdir h hd htype hname hg
  have hbindings := bindings_mkdir h hd hname hg
  set s₁ := accept s d name .directory
  set c := s.heap.requests + 1
  have hquiet := quiet_roomForDots s₁
  have hlive : ∀ i, LiveInode s₁ i → LiveInode (roomForDots s₁) i := fun i hi =>
    (hquiet.liveInode hcreated.forest.made).mpr hi
  have hdc : d ≠ c := fun he => hmade.fresh (he ▸ hd.1)
  refine ⟨⟨_, _, s.heap.requests + 2, hforest, ?_, fun p hp => ?_, hbindings⟩,
    fun i hi => hlive i (hmade.kept i hi), hlive c hmade.live, hmade.fresh, ?_⟩
  · rw [Function.update_of_ne hdc, Function.update_self]
  · have hle : p ≤ s.heap.requests := Nat.le_of_not_lt fun hlt => hp (h.spare p hlt)
    rw [dotRoles_of_ne (by omega) (by omega), Function.update_of_ne (by omega),
      Function.update_of_ne (by omega)]
  · rw [inodes_linkDots_self]
    exact hmade.type

end Mkdir

/-! ## The root -/

/-- Where nothing was made yet. -/
theorem forest_start (hs : s.heap.Sane) (hm : s.made = []) (hd : s.dots = []) :
    Forest s (fun _ => []) fun _ => .spare := by
  refine ⟨hs, fun i hi => ?_, fun e he => ?_, fun _ _ => rfl, fun i hi => ?_⟩
  · exact nomatch hm ▸ hi
  · exact nomatch hd ▸ he
  · exact nomatch hm ▸ hi.1

/-- The root without `.` and `..`. -/
def bareRoot (s : Ramfs) : Ramfs :=
  { s with
    heap := (s.heap.kmalloc ramfsInodeSize).2
    inodes := Function.update s.inodes (s.heap.requests + 1) (newInode s .directory)
    nextInode := u32 (s.nextInode + 1)
    made := (s.heap.requests + 1) :: s.made }

theorem ramfsCreateRoot_cases (s : Ramfs) :
    (ramfsCreateRoot s).1 = 0 ∨ s.heap.grants s.heap.requests = true ∧
      (bareRoot s).heap.GrantsNext 2 ∧
      ramfsCreateRoot s = (s.heap.requests + 1, linkDots (roomForDots (bareRoot s))
        (s.heap.requests + 1) (s.heap.requests + 1) (s.heap.requests + 2)
        (s.heap.requests + 3)) := by
  rw [ramfsCreateRoot]
  rcases ramfsAllocInode_cases s .directory with ⟨-, ha⟩ | ⟨hg, ha⟩
  · rw [ha]
    exact .inl (congrArg Prod.fst (if_pos rfl))
  rw [ha]
  simp only [if_neg (Nat.succ_ne_zero _)]
  rcases (s.heap.kmalloc ramfsInodeSize).2.kmalloc_cases ramfsDirEntrySize with
    ⟨-, h0⟩ | ⟨hg₁, hn₁⟩
  · exact .inl (congrArg Prod.fst (if_pos (.inl h0)))
  rcases ((s.heap.kmalloc ramfsInodeSize).2.kmalloc ramfsDirEntrySize).2.kmalloc_cases
    ramfsDirEntrySize with ⟨-, h0⟩ | ⟨hg₂, hn₂⟩
  · exact .inl (congrArg Prod.fst (if_pos (.inr h0)))
  simp only [hn₁, hn₂]
  refine .inr ⟨hg, ((bareRoot s).heap.grantsNext_zero.succ hg₁).succ hg₂, ?_⟩
  exact if_neg (not_or.mpr ⟨Nat.succ_ne_zero _, Nat.succ_ne_zero _⟩)

/-- **The root made by `ramfs_create_root`** is its own parent. -/
theorem forest_createRoot (hs : s.heap.Sane) (hm : s.made = []) (hd : s.dots = [])
    (h0 : (ramfsCreateRoot s).1 ≠ 0) :
    ∃ q role, Forest (ramfsCreateRoot s).2 q role ∧
      LiveInode (ramfsCreateRoot s).2 (ramfsCreateRoot s).1 ∧
      role (ramfsCreateRoot s).1 = .inode (ramfsCreateRoot s).1 0 := by
  obtain ⟨hg, hg', hcall⟩ := (ramfsCreateRoot_cases s).resolve_left h0
  rw [hcall]
  set c := s.heap.requests + 1
  have hquiet : Quiet s { bareRoot s with made := s.made } :=
    ⟨(BlockHeap.Later.refl _).kmalloc ramfsInodeSize,
      fun p hp => Function.update_of_ne (Nat.ne_of_lt (Nat.lt_succ_of_le hp)) _ _,
      fun _ _ => rfl, fun _ => id, fun _ => .inl, rfl⟩
  have hinode : (bareRoot s).inodes c = newInode s .directory := Function.update_self _ _ _
  have hlc : (bareRoot s).heap.Live c :=
    BlockHeap.live_kmalloc_new hs hg (show ramfsInodeSize ≠ 0 by decide)
  have h₁ : Forest (bareRoot s) (Function.update (fun _ => []) c [])
      (Function.update (fun _ => Role.spare) c (.inode c 0)) :=
    ((forest_start hs hm hd).quiet hquiet).adopt hlc rfl (by rw [hinode]; rfl)
      (by rw [hinode]; rfl) (by rw [hinode]; rfl) c 0
  have hdots := BlockHeap.live_kmalloc_two h₁.sane hg' ramfsDirEntrySize ramfsDirEntrySize
  have h₂ := h₁.quiet (quiet_roomForDots (bareRoot s))
  have hc : LiveInode (roomForDots (bareRoot s)) c :=
    ((quiet_roomForDots (bareRoot s)).liveInode h₁.made).mpr ⟨List.mem_cons_self, hlc⟩
  have hspare : ∀ p, c < p → Function.update (fun _ => Role.spare) c (.inode c 0) p = .spare :=
    h₁.spare
  have htype : ((roomForDots (bareRoot s)).inodes c).type = .directory :=
    congrArg RamfsInode.type hinode
  have h₃ := h₂.linkDots hc (Function.update_self _ _ _) hc.1 htype htype hdots.1 hdots.2
    (hspare _ (Nat.lt_succ_self _)) (hspare _ (Nat.lt_succ_of_lt (Nat.lt_succ_self _)))
    (Nat.ne_of_lt (Nat.lt_succ_self _))
  have hcd : c ≠ c + 1 ∧ c ≠ c + 2 := ⟨by omega, by omega⟩
  refine ⟨_, _, h₃, hc, ?_⟩
  exact (Function.update_of_ne hcd.2 _ _).trans
    ((Function.update_of_ne hcd.1 _ _).trans (Function.update_self _ _ _))

/-! ## Removing -/

/-- The entry that `ramfs_rmdir` goes on to remove. -/
def RmdirTarget (s : Ramfs) (parent : Nat) (name : CString) (e : Nat) : Prop :=
  (s.inodes parent).type = .directory ∧
    ramfsFindEntry s (s.inodes parent).privateData name = some e ∧ e ≠ 0 ∧
    (s.inodes (s.entries e).inode).type = .directory ∧
    ¬ HasEntries s (s.inodes (s.entries e).inode).privateData

/-- The entry that `ramfs_unlink` goes on to remove. -/
def UnlinkTarget (s : Ramfs) (parent : Nat) (name : CString) (e : Nat) : Prop :=
  (s.inodes parent).type = .directory ∧
    ramfsFindEntry s (s.inodes parent).privateData name = some e ∧ e ≠ 0 ∧
    (s.inodes (s.entries e).inode).type = .regular

/-- The entry `e` of the directory and what it refers to are gone. -/
structure Removed (s s' : Ramfs) (q : Nat → List Nat) (role : Nat → Role) (d e : Nat) : Prop where
  child : ChildOk s role d e
  forest : ∃ l₁ l₂, q d = l₁ ++ e :: l₂ ∧ Forest s' (Function.update q d (l₁ ++ l₂)) role ∧
    bindings s' (l₁ ++ l₂) = bindings s (l₁ ++ l₂)
  live : ∀ i, LiveInode s' i ↔ LiveInode s i ∧ i ≠ (s.entries e).inode

theorem NodeOk.relinks (h : NodeOk s role l d) (he : e ∈ l) :
    ∃ l₁ l₂, l = l₁ ++ e :: l₂ ∧ Relinks s (removeEntry s d e) d l (l₁ ++ l₂) := by
  obtain ⟨l₁, l₂, rfl⟩ := List.append_of_mem he
  exact ⟨l₁, l₂, rfl, relinks_removeEntry h.ring h.head⟩

theorem removed_kfreeAll {blocks : List Nat} (h : Forest s q role) (hd : LiveInode s d)
    (he : e ∈ q d) (hchild : ChildOk s role d e) (hc : (s.entries e).inode ∈ blocks)
    (hblocks : ∀ p ∈ blocks, p = e ∨ p = (s.entries e).inode ∨
      (s.inodes (s.entries e).inode).data ≠ 0 ∧ p = (s.inodes (s.entries e).inode).data) :
    Removed s ((removeEntry s d e).kfreeAll blocks) q role d e := by
  obtain ⟨l₁, l₂, hq, hr⟩ := (h.node d hd).relinks he
  obtain ⟨hforest, hlive⟩ := h.unlink hd hq hchild hr hc fun p hp => by
    refine (hblocks p hp).imp_right (Or.imp_right fun ⟨h0, hpd⟩ => ?_)
    obtain ⟨hdata, hrole⟩ := (h.node _ hchild.live).data h0
    exact hpd ▸ ⟨hdata.le, hrole⟩
  refine ⟨hchild, ⟨l₁, l₂, hq, hforest, ?_⟩, hlive⟩
  rw [Ramfs.kfreeAll_same]
  exact List.map_congr_left fun x _ => by rw [hr.name, hr.inode]

theorem ramfsRmdir_eq {n : CString} (ht : RmdirTarget s d n e) :
    ramfsRmdir s d n = some (0, ((removeEntry s (s.inodes d).privateData e).kfree e).kfree
      (s.inodes (s.entries e).inode).privateData) := by
  obtain ⟨htype, hfind, he0, htype', hentries⟩ := ht
  unfold ramfsRmdir
  simp only [hfind]
  rw [if_neg (not_not.mpr htype), if_neg he0, if_neg (not_not.mpr htype'), if_neg hentries]

/-- What `ramfs_unlink` frees: the data if there are any, the entry and the inode. -/
def ownBlocks (s : Ramfs) (e : Nat) : List Nat :=
  let inode := (s.entries e).inode
  if (s.inodes inode).data ≠ 0 then [(s.inodes inode).data, e, inode] else [e, inode]

theorem mem_ownBlocks {p : Nat} : p ∈ ownBlocks s e ↔
    (s.inodes (s.entries e).inode).data ≠ 0 ∧ p = (s.inodes (s.entries e).inode).data ∨
      p = e ∨ p = (s.entries e).inode := by
  unfold ownBlocks
  by_cases h0 : (s.inodes (s.entries e).inode).data ≠ 0
  · rw [if_pos h0]
    simp only [List.mem_cons, List.not_mem_nil, or_false, and_iff_right h0]
  · rw [if_neg h0]
    simp only [List.mem_cons, List.not_mem_nil, or_false, h0, false_and, false_or]

theorem ramfsUnlink_eq {n : CString} (h : Forest s q role) (hd : LiveInode s d) (he : e ∈ q d)
    (hchild : ChildOk s role d e) (ht : UnlinkTarget s d n e) :
    ramfsUnlink s d n = some (0, (removeEntry s d e).kfreeAll (ownBlocks s e)) := by
  obtain ⟨htype, hfind, he0, htype'⟩ := ht
  have hn := h.node d hd
  unfold ramfsUnlink ownBlocks
  rw [hn.self] at hfind
  simp only [hn.self, hfind]
  rw [if_neg (not_not.mpr htype), if_neg he0, if_neg (not_not.mpr htype')]
  obtain ⟨l₁, l₂, -, hr⟩ := hn.relinks he
  have hself : ((removeEntry s d e).inodes ((removeEntry s d e).entries e).inode).privateData =
      (s.entries e).inode := by
    rw [(hr.fields _).2.1, hr.inode, (h.node _ hchild.live).self]
  simp only [hself, (hr.fields _).2.2]
  by_cases h0 : (s.inodes (s.entries e).inode).data ≠ 0
  · rw [if_pos h0, if_pos h0]
    rfl
  · rw [if_neg h0, if_neg h0]
    rfl

/-- **What `ramfs_rmdir` does**: it fails and changes nothing, or an entry of that
name is removed. -/
theorem ramfsRmdir_cases (h : Forest s q role) (hd : LiveInode s d) (name : CString) :
    ramfsRmdir s d name = some (-1, s) ∨
    ∃ e ∈ q d, (s.entries e).name.toCString = name ∧ RmdirTarget s d name e ∧
      ∃ s', ramfsRmdir s d name = some (0, s') ∧ (e ∉ s.dots → Removed s s' q role d e) := by
  have hn := h.node d hd
  rw [ramfsRmdir]
  simp only [hn.self]
  by_cases htype : (s.inodes d).type ≠ .directory
  · exact .inl (if_pos htype)
  rw [if_neg htype]
  rcases hn.find_cases name with ⟨e, he, hen, hfind⟩ | ⟨-, hfind⟩
  · have he0 : e ≠ 0 := Nat.ne_of_gt (hn.live e he).pos
    rw [hfind]
    simp only [if_neg he0]
    by_cases htype' : (s.inodes (s.entries e).inode).type ≠ .directory
    · exact .inl (if_pos htype')
    rw [if_neg htype']
    by_cases hentries : HasEntries s (s.inodes (s.entries e).inode).privateData
    · exact .inl (if_pos hentries)
    rw [if_neg hentries]
    have htarget : RmdirTarget s d name e := ⟨not_not.mp htype, hn.self.symm ▸ hfind, he0,
      not_not.mp htype', hentries⟩
    refine .inr ⟨e, he, hen, htarget, _, rfl, fun hdots => ?_⟩
    have hchild := (hn.entry e he).resolve_left fun hdot => hdots hdot.dot
    rw [(h.node _ hchild.live).self]
    refine @removed_kfreeAll _ _ _ _ _ [e, (s.entries e).inode] h hd he hchild ?_ fun p hp => ?_
    · exact List.mem_cons_of_mem _ List.mem_cons_self
    · exact (List.mem_cons.mp hp).imp_right fun hp => .inl (List.mem_singleton.mp hp)
  · rw [hfind]
    exact .inl (if_pos rfl)

/-- **What `ramfs_unlink` does**: it fails and changes nothing, or an entry of that
name is removed, and then it is none of `.` and `..`. -/
theorem ramfsUnlink_cases (h : Forest s q role) (hd : LiveInode s d) (name : CString) :
    ramfsUnlink s d name = some (-1, s) ∨
    ∃ e ∈ q d, (s.entries e).name.toCString = name ∧ UnlinkTarget s d name e ∧
      ∃ s', ramfsUnlink s d name = some (0, s') ∧ Removed s s' q role d e := by
  have hn := h.node d hd
  rcases hn.find_cases name with ⟨e, he, hen, hfind⟩ | ⟨-, hfind⟩
  · have he0 : e ≠ 0 := Nat.ne_of_gt (hn.live e he).pos
    by_cases htarget : UnlinkTarget s d name e
    · have hchild : ChildOk s role d e := (hn.entry e he).resolve_left fun hdot =>
        nomatch hdot.directory.symm.trans htarget.2.2.2
      refine .inr ⟨e, he, hen, htarget, _, ramfsUnlink_eq h hd he hchild htarget, ?_⟩
      refine removed_kfreeAll h hd he hchild (mem_ownBlocks.mpr (.inr (.inr rfl))) fun p hp => ?_
      rcases mem_ownBlocks.mp hp with hp | hp | hp
      · exact .inr (.inr hp)
      · exact .inl hp
      · exact .inr (.inl hp)
    · refine .inl ?_
      unfold ramfsUnlink
      simp only [hn.self, hfind, if_neg he0]
      by_cases htype : (s.inodes d).type ≠ .directory
      · exact if_pos htype
      rw [if_neg htype]
      exact if_pos fun htype' =>
        htarget ⟨not_not.mp htype, hn.self.symm ▸ hfind, he0, htype'⟩
  · refine .inl ?_
    unfold ramfsUnlink
    simp only [hn.self, hfind, if_true]
    exact ite_self _

end SynapseKernel.Fs
