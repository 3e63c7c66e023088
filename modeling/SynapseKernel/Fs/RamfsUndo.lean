import SynapseKernel.Fs.RamfsDirectory
import SynapseKernel.Mm.KheapTakes

/-! # Making a directory and taking it back

`ramfs_rmdir` of a directory just made restores the ring of its parent. It frees two
of the four blocks that `ramfs_mkdir` took (`mkdir_rmdir_leaks`). A `ramfs_mkdir` that
fails takes nothing back once the directory is linked (`mkdir_atomic_iff`). -/
namespace SynapseKernel.Fs
open SynapseKernel.Word SynapseKernel.Kheap SynapseKernel.Str SynapseKernel.Ring

/-- The states that sound operations lead to from a new root. -/
inductive RamfsReach : Mount → Prop
  | root {s : Ramfs} : s.heap.Sane → s.made = [] → s.dots = [] → (ramfsCreateRoot s).1 ≠ 0 →
    RamfsReach (mountRoot s)
  | step {m m' : Mount} {op : RamfsOp} : RamfsReach m → Sound m.fs op →
    ramfsStep m op = some m' → RamfsReach m'

/-- The ring of the directory is the same: its head and, all the way round, its
entries. -/
structure SameRing (s s' : Ramfs) (d : Nat) : Prop where
  head : (s'.inodes d).entries = (s.inodes d).entries
  entry : (s.inodes d).entries ≠ 0 → ∀ k, s'.entries (s.next^[k] (s.inodes d).entries) =
    s.entries (s.next^[k] (s.inodes d).entries)

variable {m : Mount} {s s' s₁ : Ramfs} {d e c p : Nat} {q q' : Nat → List Nat}
  {role role' : Nat → Role} {name : FileName} {type : FileType} {l : List Nat}

theorem RamfsReach.whole (h : RamfsReach m) : ∃ q role, Whole m q role := by
  induction h with
  | root hs hm hd h0 => exact whole_mountRoot hs hm hd h0
  | step _ hs hstep ih =>
    obtain ⟨q, role, h⟩ := ih
    obtain ⟨m', hstep', hc⟩ := h.step hs
    obtain rfl := Option.some.inj (hstep'.symm.trans hstep)
    exact hc.whole

/-! ## The ring of a directory -/

theorem SameRing.refl (s : Ramfs) (d : Nat) : SameRing s s d := ⟨rfl, fun _ _ => rfl⟩

/-- An entry is what its name and its three pointers are. -/
theorem RamfsDirEntry.eq_of_fields {a b : RamfsDirEntry} (hn : a.name = b.name)
    (hi : a.inode = b.inode) (hnext : a.next = b.next) (hprev : a.prev = b.prev) : a = b := by
  cases a
  cases b
  cases hn
  cases hi
  cases hnext
  cases hprev
  rfl

theorem NodeOk.head_mem (h : NodeOk s role l d) (h0 : (s.inodes d).entries ≠ 0) :
    (s.inodes d).entries ∈ l := by
  rw [h.head] at h0 ⊢
  cases l with
  | nil => exact absurd rfl h0
  | cons a l => exact List.mem_cons_self

/-- The list of the entries and what they bind determine the ring. -/
theorem NodeOk.sameRing (h : NodeOk s role l d) (h' : NodeOk s' role' l d)
    (hb : bindings s' l = bindings s l) : SameRing s s' d := by
  refine ⟨h'.head.trans h.head.symm, fun h0 k => ?_⟩
  have hmem := h.ring.iterate_mem (h.head_mem h0) k
  obtain ⟨hnext, hprev⟩ := h.ring.links_eq h'.ring hmem
  have hbinding := List.map_inj_left.mp hb _ hmem
  exact RamfsDirEntry.eq_of_fields (Prod.mk.inj hbinding).1 (Prod.mk.inj hbinding).2 hnext hprev

/-- An entry is found by its name. -/
theorem NodeOk.find_mem (h : NodeOk s role l d) (he : e ∈ l) :
    ramfsFindEntry s d (s.entries e).name.toCString = some e := by
  rcases h.find_cases (s.entries e).name.toCString with ⟨e', he', hen, hfind⟩ | ⟨hno, -⟩
  · rw [hfind, List.inj_on_of_nodup_map h.names he' he (FileName.toCString_inj hen)]
  · exact absurd rfl (hno e he)

/-- Taking out the last entry leaves the ring that was there without it. -/
theorem Removed.sameRing (hr : Removed s₁ s' q' role' d e) (hn : NodeOk s role l d)
    (hn₁ : NodeOk s₁ role' (q' d) d) (hq : q' d = l ++ [e]) (hd : LiveInode s' d)
    (hb : bindings s₁ l = bindings s l) : SameRing s s' d := by
  obtain ⟨l₁, l₂, hsplit, hf, hb'⟩ := hr.forest
  have hnodup := hn₁.ring.nodup
  rw [hq] at hnodup hsplit
  have he : e ∉ l := (List.nodup_cons.mp (List.nodup_append_comm.mp hnodup)).1
  obtain ⟨rfl, -, rfl⟩ := (List.append_cons_inj_of_notMem he List.not_mem_nil).mp hsplit
  have hn' := hf.node d hd
  rw [Function.update_self] at hn'
  rw [List.append_nil] at hn' hb'
  exact hn.sameRing hn' (hb'.trans hb)

/-- The last of the entries, and what the others bind. -/
theorem bindings_last (h : bindings s' (l ++ [e]) = bindings s l ++ [(name, c)]) :
    bindings s' l = bindings s l ∧ (s'.entries e).name = name ∧ (s'.entries e).inode = c := by
  unfold bindings at h ⊢
  rw [List.map_append] at h
  obtain ⟨hfirst, hlast⟩ := List.append_inj' h rfl
  obtain ⟨hname, hinode⟩ := Prod.mk.inj (List.cons.inj hlast).1
  exact ⟨hfirst, hname, hinode⟩

/-! ## A directory is made and removed -/

/-- The state after `ramfs_mkdir` when all that it asks for is granted. -/
def withDir (s : Ramfs) (d : Nat) (name : FileName) : Ramfs :=
  linkDots (roomForDots (accept s d name .directory)) (s.heap.requests + 1) d
    (s.heap.requests + 3) (s.heap.requests + 4)

/-- `ramfs_rmdir` succeeds and restores the ring and the live blocks. -/
def RmdirUndoes (s s₁ : Ramfs) (d : Nat) (name : CString) : Prop :=
  ∃ s₂, ramfsRmdir s₁ d name = some (0, s₂) ∧ SameRing s s₂ d ∧
    ∀ p, s₂.heap.Live p ↔ s.heap.Live p

theorem heap_addEntry (s : Ramfs) (d e : Nat) : (addEntry s d e).heap = s.heap := by
  simp only [addEntry]
  split <;> rfl

theorem heap_accept (s : Ramfs) (d : Nat) (name : FileName) (type : FileType) :
    (accept s d name type).heap =
      ((s.heap.kmalloc ramfsInodeSize).2.kmalloc ramfsDirEntrySize).2 := heap_addEntry _ _ _

/-- An inode and an entry. -/
theorem live_accept (hs : s.heap.Sane) (hg : s.heap.GrantsNext 2) :
    (accept s d name type).heap.Live p ↔
      s.heap.Live p ∨ p = s.heap.requests + 1 ∨ p = s.heap.requests + 2 := by
  rw [heap_accept]
  exact BlockHeap.live_kmalloc_both hs hg _ _

/-- An inode and three entries. -/
theorem live_withDir (hs : s.heap.Sane) (hg : s.heap.GrantsNext 4) :
    (withDir s d name).heap.Live p ↔
      s.heap.Live p ∨ s.heap.requests < p ∧ p ≤ s.heap.requests + 4 := by
  have hg₂ : s.heap.GrantsNext 2 := fun i hi => hg i (by omega)
  have hheap := heap_accept s d name .directory
  have hs₁ : (accept s d name .directory).heap.Sane := hheap ▸ hs.kmalloc.kmalloc
  have hreq : (accept s d name .directory).heap.requests = s.heap.requests + 2 := by rw [hheap]; rfl
  have hg₁ : (accept s d name .directory).heap.GrantsNext 2 := by
    intro i hi
    rw [hreq, hheap, Nat.add_assoc]
    exact hg (2 + i) (by omega)
  have hboth : (withDir s d name).heap.Live p ↔ _ :=
    BlockHeap.live_kmalloc_both hs₁ hg₁ ramfsDirEntrySize ramfsDirEntrySize
  rw [hboth, live_accept hs hg₂, hreq, or_assoc]
  refine or_congr_right ?_
  omega

section Mkdir
variable (h : Forest s q role) (hd : LiveInode s d) (htype : (s.inodes d).type = .directory)
  (hname : ∀ e ∈ q d, (s.entries e).name ≠ name) (hg : s.heap.GrantsNext 4)
include h hd htype hname hg

/-- What `ramfs_rmdir` finds by the name of the new directory. -/
theorem rmdirTarget_withDir :
    RmdirTarget (withDir s d name) d name.toCString (s.heap.requests + 2) := by
  have hmade := made_mkdir h hd htype hname hg
  have hf := forest_mkdir h hd htype hname hg
  obtain ⟨-, hen, hei⟩ := bindings_last (bindings_mkdir h hd hname hg)
  have hcreated := @created_accept s d q role .directory name h hd hname fun i hi => hg i (by omega)
  rw [← withDir] at hmade hf hen hei
  have hn := hf.node d (hmade.kept d hd)
  have hdc : d ≠ s.heap.requests + 1 := Nat.ne_of_lt (Nat.lt_succ_of_le hd.2.le)
  rw [Function.update_of_ne hdc, Function.update_self] at hn
  have he : s.heap.requests + 2 ∈ q d ++ [s.heap.requests + 2] :=
    List.mem_append_right _ (List.mem_singleton_self _)
  have hdtype : ((withDir s d name).inodes d).type = .directory :=
    (type_linkDots d).trans ((hcreated.kind d hd.2.le).trans htype)
  have hhead : ((withDir s d name).inodes (s.heap.requests + 1)).entries = s.heap.requests + 3 := by
    rw [withDir, inodes_linkDots_self]
  have hfind := hn.find_mem he
  rw [hen] at hfind
  refine ⟨hdtype, hn.self.symm ▸ hfind, Nat.succ_ne_zero _, hei ▸ hmade.type, ?_⟩
  rw [hei, (hf.node _ hmade.live).self]
  rintro ⟨-, hentries⟩
  rw [hhead, Ramfs.next, Ramfs.prev, withDir, entries_linkDots_dot (by omega)] at hentries
  rcases hentries with hne | hne
  · exact hne rfl
  · exact hne ((strcmp_eq_zero _ _).mpr rfl)

/-- **What `ramfs_rmdir` leaves** of what `ramfs_mkdir` made: the entries `.` and `..`. -/
theorem rmdir_withDir :
    ∃ s₂, ramfsRmdir (withDir s d name) d name.toCString = some (0, s₂) ∧ SameRing s s₂ d ∧
      ∀ p, s₂.heap.Live p ↔
        s.heap.Live p ∨ p = s.heap.requests + 3 ∨ p = s.heap.requests + 4 := by
  have hmade := made_mkdir h hd htype hname hg
  have hf := forest_mkdir h hd htype hname hg
  obtain ⟨hb, -, hei⟩ := bindings_last (bindings_mkdir h hd hname hg)
  rw [← withDir] at hmade hf hb hei
  have htarget := rmdirTarget_withDir h hd htype hname hg
  set c := s.heap.requests + 1
  set e := s.heap.requests + 2
  have hd₁ := hmade.kept d hd
  have hn := hf.node d hd₁
  have hdc : d ≠ c := Nat.ne_of_lt (Nat.lt_succ_of_le hd.2.le)
  have hq : Function.update (Function.update (Function.update q c []) d (q d ++ [e])) c
      [s.heap.requests + 3, s.heap.requests + 4] d = q d ++ [e] := by
    rw [Function.update_of_ne hdc, Function.update_self]
  have he : e ∈ q d ++ [e] := List.mem_append_right _ (List.mem_singleton_self _)
  rw [hq] at hn
  have hchild := (hn.entry e he).resolve_left fun hdot => by
    have hmarked := hdot.marked
    rw [dotRoles_of_ne (by omega) (by omega), Function.update_self] at hmarked
    cases hmarked
  have hremoved := @removed_kfreeAll _ _ _ _ _ [e, c] hf hd₁ (hq.symm ▸ he) hchild
    (hei.symm ▸ List.mem_cons_of_mem _ List.mem_cons_self) fun p hp => by
      rw [hei]
      exact (List.mem_cons.mp hp).imp_right fun hp => .inl (List.mem_singleton.mp hp)
  have hd₂ := (hremoved.live d).mpr ⟨hd₁, hei.symm ▸ hdc⟩
  refine ⟨_, (ramfsRmdir_eq htarget).trans ?_, hremoved.sameRing (h.node d hd) (hq.symm ▸ hn) hq
    hd₂ hb, fun p => ?_⟩
  · rw [hn.self, hei, (hf.node c hmade.live).self]
    rfl
  · obtain ⟨l₁, l₂, -, hr⟩ := hn.relinks he
    rw [hr.live_kfreeAll, live_withDir h.sane hg]
    have hle : s.heap.Live p → p ≤ s.heap.requests := fun hl => hl.le
    simp only [List.mem_cons, List.not_mem_nil, or_false, not_or]
    by_cases hl : s.heap.Live p
    · have := hle hl
      simp only [hl, true_or, true_and, iff_true]
      omega
    · simp only [hl, false_or]
      omega

end Mkdir

/-- A `ramfs_mkdir` that succeeded, and `ramfs_rmdir` after it. -/
theorem RamfsReach.rmdir_after_mkdir (hm : RamfsReach m) (hd : LiveInode m.fs d)
    (hmkdir : ramfsMkdir m.fs d name = some (0, s₁)) :
    ∃ s₂, ramfsRmdir s₁ d name.toCString = some (0, s₂) ∧ SameRing m.fs s₂ d ∧
      ∀ p, s₂.heap.Live p ↔
        m.fs.heap.Live p ∨ p = m.fs.heap.requests + 3 ∨ p = m.fs.heap.requests + 4 := by
  obtain ⟨q, role, h⟩ := hm.whole
  have h := h.forest
  by_cases hrefused : (m.fs.inodes d).type ≠ .directory ∨ ∃ e ∈ q d, (m.fs.entries e).name = name
  · rw [ramfsMkdir_refused h hd hrefused] at hmkdir
    cases hmkdir
  obtain ⟨htype, hname⟩ := not_or.mp hrefused
  have htype := not_not.mp htype
  have hname : ∀ e ∈ q d, (m.fs.entries e).name ≠ name := fun e he hen => hname ⟨e, he, hen⟩
  rcases ramfsMkdir_absent h hd htype hname with ⟨-, s', hcall, -⟩ | ⟨hg, hcall⟩ <;>
    rw [hcall] at hmkdir
  · cases hmkdir
  obtain rfl := (Prod.mk.inj (Option.some.inj hmkdir)).2
  exact rmdir_withDir h hd htype hname hg

/-- The entry `.` was not handed out before. -/
theorem not_rmdirUndoes {s₂ : Ramfs} {n : CString} (hrmdir : ramfsRmdir s₁ d n = some (0, s₂))
    (hlive : s₂.heap.Live (s.heap.requests + 3)) : ¬ RmdirUndoes s s₁ d n := by
  rintro ⟨s₃, hrmdir', -, hsame⟩
  obtain rfl := (Prod.mk.inj (Option.some.inj (hrmdir.symm.trans hrmdir'))).2
  have hle := ((hsame _).mp hlive).le
  omega

/-- **A directory that is made and removed again leaks** the entries `.` and `..`:
whatever state of a RamFS `ramfs_mkdir` succeeds in, `ramfs_rmdir` succeeds and
restores the ring of the parent, and these two blocks stay allocated. -/
theorem mkdir_rmdir_leaks (hm : RamfsReach m) (hd : LiveInode m.fs d)
    (hmkdir : ramfsMkdir m.fs d name = some (0, s₁)) :
    ¬ RmdirUndoes m.fs s₁ d name.toCString ∧
      ∃ s₂, ramfsRmdir s₁ d name.toCString = some (0, s₂) ∧ SameRing m.fs s₂ d ∧
        ∀ p, s₂.heap.Live p ↔
          m.fs.heap.Live p ∨ p = m.fs.heap.requests + 3 ∨ p = m.fs.heap.requests + 4 := by
  obtain ⟨s₂, hrmdir, hring, hlive⟩ := hm.rmdir_after_mkdir hd hmkdir
  exact ⟨not_rmdirUndoes hrmdir ((hlive _).mpr (.inr (.inl rfl))), s₂, hrmdir, hring, hlive⟩

theorem reach_fresh : RamfsReach (mountRoot freshRamfs) :=
  .root (fun p hp => nomatch hp) rfl rfl (by decide)

theorem mkdir_fresh : ∃ s₁, ramfsMkdir (mountRoot freshRamfs).fs 1 aName = some (0, s₁) := by
  have hcall : (ramfsMkdir (mountRoot freshRamfs).fs 1 aName).map Prod.fst = some 0 := by decide
  obtain ⟨⟨r, s₁⟩, hr, rfl⟩ := Option.map_eq_some_iff.mp hcall
  exact ⟨s₁, hr⟩

theorem mkdir_rmdir_leaks_fresh : ∃ s₁,
    ramfsMkdir (mountRoot freshRamfs).fs 1 aName = some (0, s₁) ∧
      ¬ RmdirUndoes (mountRoot freshRamfs).fs s₁ 1 aName.toCString := by
  obtain ⟨s₁, hmkdir⟩ := mkdir_fresh
  exact ⟨s₁, hmkdir, (mkdir_rmdir_leaks reach_fresh liveInode_freshRoot hmkdir).1⟩

/-- `mkdir a` and `rmdir a` in a new root. -/
theorem mkdir_rmdir_not_neutral : ¬ ∀ (m : Mount) (d : Nat) (name : FileName) (s₁ : Ramfs),
    RamfsReach m → LiveInode m.fs d → ramfsMkdir m.fs d name = some (0, s₁) →
      RmdirUndoes m.fs s₁ d name.toCString := by
  intro h
  obtain ⟨s₁, hmkdir⟩ := mkdir_fresh
  obtain ⟨s₂, hrmdir, -, hlive⟩ := reach_fresh.rmdir_after_mkdir liveInode_freshRoot hmkdir
  exact not_rmdirUndoes hrmdir ((hlive _).mpr (.inr (.inl rfl)))
    (h _ 1 aName s₁ reach_fresh liveInode_freshRoot hmkdir)

/-! ## A directory is not made -/

/-- `ramfs_create` of a name that does not fit `char name[256]`: the state in which it
returns `-1`, and `none` where it goes on to copy the name. -/
def ramfsCreateLong (s : Ramfs) (parent : Nat) (name : CString) (type : FileType) :
    Option Ramfs :=
  let dir := (s.inodes parent).privateData
  if (s.inodes parent).type ≠ .directory then some s
  else
    match ramfsFindEntry s dir name with
    | none => none
    | some found =>
      if found ≠ 0 then some s
      else
        let (newInode, s) := ramfsAllocInode s type
        if newInode = 0 then some s
        else
          let (newEntry, heap) := s.heap.kmalloc ramfsDirEntrySize
          let s := { s with heap := heap }
          if newEntry = 0 then some (s.kfree newInode) else none

/-- `ramfs_mkdir` of any name; it is not told what comes of a copy that runs over the
end of the field. -/
def ramfsMkdirAny (s : Ramfs) (parent : Nat) (name : CString) : Option (Int × Ramfs) :=
  if h : name.bytes.length ≤ 255 then ramfsMkdir s parent ⟨name, h⟩
  else (ramfsCreateLong s parent name .directory).map fun s => (-1, s)

/-- The call stays in bounds, and when it fails the ring and the live blocks are those
of before. -/
def MkdirAtomic (s : Ramfs) (d : Nat) (name : CString) : Prop :=
  ∃ r s', ramfsMkdirAny s d name = some (r, s') ∧
    (r < 0 → SameRing s s' d ∧ ∀ p, s'.heap.Live p ↔ s.heap.Live p)

theorem Quiet.sameRing (hq : Quiet s s') (hn : NodeOk s role l d) (hd : s.heap.Live d) :
    SameRing s s' d := by
  refine ⟨by rw [hq.inodes d hd.le], fun h0 k => ?_⟩
  exact hq.entries _ (hn.live _ (hn.ring.iterate_mem (hn.head_mem h0) k)).le

/-- Long names are refused like others, up to the copy. -/
theorem ramfsCreateLong_eq (h : Forest s q role) (hd : LiveInode s d) (n : CString) :
    ((s.inodes d).type ≠ .directory ∨ found s d n ≠ none) ∧ ramfsCreateLong s d n type = some s ∨
    ((s.inodes d).type = .directory ∧ found s d n = none) ∧
      ramfsCreateLong s d n type = requestBoth s type some fun _ _ _ => none := by
  have hn := h.node d hd
  unfold ramfsCreateLong
  simp only [hn.self]
  by_cases htype : (s.inodes d).type ≠ .directory
  · exact .inl ⟨.inl htype, if_pos htype⟩
  rcases hn.find_cases n with ⟨e, he, hen, hfind⟩ | ⟨hno, hfind⟩
  · have hfound : found s d n ≠ none := fun hnone => hn.found_eq_none.mp hnone e he hen
    have he0 : e ≠ 0 := Nat.ne_of_gt (hn.live e he).pos
    rw [if_neg htype, hfind]
    exact .inl ⟨.inr hfound, if_pos he0⟩
  · rw [if_neg htype, hfind]
    exact .inr ⟨⟨not_not.mp htype, hn.found_eq_none.mpr hno⟩, rfl⟩

/-- A failure that changed nothing that the parent or the heap show. -/
theorem mkdirAtomic_of_eq {n : CString} (hcall : ramfsMkdirAny s d n = some (-1, s'))
    (hring : SameRing s s' d) (hlive : ∀ p, s'.heap.Live p ↔ s.heap.Live p) : MkdirAtomic s d n :=
  ⟨-1, s', hcall, fun _ => ⟨hring, hlive⟩⟩

/-- Without room for `.` and `..` the new inode stays behind. -/
theorem not_mkdirAtomic_dropDots {n : CString} (hs : s.heap.Sane) (hg : s.heap.GrantsNext 2)
    (hcall : ramfsMkdirAny s d n = some (-1, dropDots (accept s d name .directory))) :
    ¬ MkdirAtomic s d n := by
  rintro ⟨r, s', hcall', hsame⟩
  obtain ⟨rfl, rfl⟩ := Prod.mk.inj (Option.some.inj (hcall.symm.trans hcall'))
  have hinode : (accept s d name .directory).heap.Live (s.heap.requests + 1) :=
    (live_accept hs hg).mpr (.inr (.inl rfl))
  have hkept := ((quiet_dropDots _).heap.live _ hinode.le).mpr hinode
  have hle := (((hsame (by decide)).2 _).mp hkept).le
  omega

/-- A name that fits. -/
theorem mkdirAtomic_fits (h : Forest s q role) (hd : LiveInode s d) :
    MkdirAtomic s d name.toCString ↔
      (s.inodes d).type ≠ .directory ∨ found s d name.toCString ≠ none ∨
        ¬ s.heap.GrantsNext 2 ∨ s.heap.GrantsNext 4 := by
  have hn := h.node d hd
  have hany : ramfsMkdirAny s d name.toCString = ramfsMkdir s d name := dif_pos name.fits
  by_cases htype : (s.inodes d).type ≠ .directory
  · have hcall := hany.trans (ramfsMkdir_refused h hd (.inl htype))
    exact iff_of_true (mkdirAtomic_of_eq hcall (.refl s d) fun _ => Iff.rfl) (.inl htype)
  rcases hn.absent_or_present name with ⟨hno, hfree⟩ | ⟨hname, hfound⟩
  · have htype := not_not.mp htype
    by_cases hg : s.heap.GrantsNext 2
    · rcases ramfsMkdir_accepted h hd htype hno hg with ⟨hno', hcall⟩ | ⟨hg', hcall⟩
      · refine iff_of_false (not_mkdirAtomic_dropDots h.sane hg (hany.trans hcall)) ?_
        rintro (ht | hf | hn₂ | hg')
        · exact ht htype
        · exact hf hfree
        · exact hn₂ hg
        · exact hno' hg'
      · refine iff_of_true ⟨0, _, hany.trans hcall, fun hr => ?_⟩ (.inr (.inr (.inr hg')))
        exact absurd hr (by decide)
    · obtain ⟨-, s', hquiet, hlive, hboth⟩ :=
        (requestBoth_cases s .directory).resolve_right fun hyes => hg hyes.1
      have hcreate := (ramfsCreate_eq h hd htype hno).trans (hboth _ _)
      have hcall : ramfsMkdir s d name = some (-1, s') := by
        rw [ramfsMkdir, hcreate]
        rfl
      exact iff_of_true (mkdirAtomic_of_eq (hany.trans hcall) (hquiet.sameRing hn hd.2) hlive)
        (.inr (.inr (.inl hg)))
  · have hcall := hany.trans (ramfsMkdir_refused h hd (.inr hname))
    exact iff_of_true (mkdirAtomic_of_eq hcall (.refl s d) fun _ => Iff.rfl) (.inr (.inl hfound))

/-- A name that does not. -/
theorem mkdirAtomic_long (h : Forest s q role) (hd : LiveInode s d) {n : CString}
    (hlong : ¬ n.bytes.length ≤ 255) :
    MkdirAtomic s d n ↔
      (s.inodes d).type ≠ .directory ∨ found s d n ≠ none ∨ ¬ s.heap.GrantsNext 2 := by
  have hn := h.node d hd
  have hany : ramfsMkdirAny s d n = (ramfsCreateLong s d n .directory).map fun s => (-1, s) :=
    dif_neg hlong
  rcases @ramfsCreateLong_eq s d q role .directory h hd n with
    ⟨hrefused, hcall⟩ | ⟨⟨htype, hfree⟩, hcall⟩ <;> rw [hcall] at hany
  · refine iff_of_true (mkdirAtomic_of_eq hany (.refl s d) fun _ => Iff.rfl) ?_
    exact hrefused.imp_right .inl
  · rcases requestBoth_cases s .directory with ⟨hg, s', hquiet, hlive, hboth⟩ | ⟨hg, hboth⟩ <;>
      rw [hboth] at hany
    · exact iff_of_true (mkdirAtomic_of_eq hany (hquiet.sameRing hn hd.2) hlive) (.inr (.inr hg))
    · refine iff_of_false ?_ ?_
      · rintro ⟨r, s', hcall', -⟩
        cases hany.symm.trans hcall'
      rintro (ht | hf | hn₂)
      · exact ht htype
      · exact hf hfree
      · exact hn₂ hg

/-- **A failed `ramfs_mkdir` changes nothing** exactly when it fails before the new
directory is linked, or the name fits and all that is asked for is granted. -/
theorem mkdir_atomic_iff (hm : RamfsReach m) (hd : LiveInode m.fs d) (n : CString) :
    MkdirAtomic m.fs d n ↔
      (m.fs.inodes d).type ≠ .directory ∨ found m.fs d n ≠ none ∨
        ¬ m.fs.heap.GrantsNext 2 ∨ n.bytes.length ≤ 255 ∧ m.fs.heap.GrantsNext 4 := by
  obtain ⟨q, role, h⟩ := hm.whole
  by_cases hfits : n.bytes.length ≤ 255
  · rw [and_iff_right hfits]
    exact @mkdirAtomic_fits _ _ _ _ ⟨n, hfits⟩ h.forest hd
  · rw [mkdirAtomic_long h.forest hd hfits]
    simp only [hfits, false_and, or_false]

theorem mkdir_atomic_iff_fresh :
    MkdirAtomic (mountRoot freshRamfs).fs 1 aName.toCString ↔
      ((mountRoot freshRamfs).fs.inodes 1).type ≠ .directory ∨
        found (mountRoot freshRamfs).fs 1 aName.toCString ≠ none ∨
        ¬ (mountRoot freshRamfs).fs.heap.GrantsNext 2 ∨
        aName.toCString.bytes.length ≤ 255 ∧ (mountRoot freshRamfs).fs.heap.GrantsNext 4 :=
  mkdir_atomic_iff reach_fresh liveInode_freshRoot aName.toCString

/-- A heap that grants the root, an inode and an entry, and nothing more. -/
def scarceRamfs : Ramfs :=
  { freshRamfs with heap := ⟨fun i => decide (i < 5), fun block => block, 0, []⟩ }

theorem reach_scarce : RamfsReach (mountRoot scarceRamfs) :=
  .root (fun p hp => nomatch hp) rfl rfl (by decide)

/-- `mkdir a` without room for `.` and `..` fails and leaves `a` behind. -/
theorem mkdir_not_atomic : ¬ ∀ (m : Mount) (d : Nat) (name : CString),
    RamfsReach m → LiveInode m.fs d → MkdirAtomic m.fs d name := by
  intro h
  have hroot : LiveInode (mountRoot scarceRamfs).fs 1 :=
    ⟨by decide, by decide, by decide, by decide, by decide⟩
  obtain ⟨q, role, hw⟩ := reach_scarce.whole
  have hiff := (@mkdirAtomic_fits _ _ _ _ aName hw.forest hroot).mp (h _ 1 _ reach_scarce hroot)
  have hgrants : (mountRoot scarceRamfs).fs.heap.GrantsNext 2 := by
    unfold BlockHeap.GrantsNext
    decide
  rcases hiff with htype | hfound | hno | hgrants'
  · exact htype (by decide)
  · exact hfound (by decide)
  · exact hno hgrants
  · exact absurd (hgrants' 2 (by decide)) (by decide)

end SynapseKernel.Fs
