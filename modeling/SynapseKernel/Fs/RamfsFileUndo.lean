import SynapseKernel.Fs.RamfsUndo

/-! # Making a file and taking it back

A new file owns three blocks: its inode, its entry and, once something was written,
its data, which every write may move. `ramfs_unlink` frees what the file owns, so the
heap's block list is that of before (`file_leaves_no_trace`). -/
namespace SynapseKernel.Fs
open SynapseKernel.Word SynapseKernel.Kheap SynapseKernel.Blocks SynapseKernel.Str

/-- The writes, each of bytes at an offset, one after the other. -/
def writeAll (s : Ramfs) (file : RamfsFile) (writes : List (List UInt8 × Nat)) : Ramfs :=
  writes.foldl (fun s w => (ramfsWrite s file w.1 w.2).2) s

/-- `ramfs_create` of a regular file, the writes if there is one, and `ramfs_unlink`,
with what that returns. -/
def fileRun (s : Ramfs) (d : Nat) (name : FileName) (file : RamfsFile)
    (writes : List (List UInt8 × Nat)) : Option (Int × Ramfs) :=
  match ramfsCreate s d name .regular with
  | none => none
  | some (inode, s) =>
    let s := if inode ≠ 0 then writeAll s (ramfsOpen inode file) writes else s
    ramfsUnlink s d name.toCString

variable {m : Mount} {s s' s₀ s₁ : Ramfs} {d e c p : Nat} {q : Nat → List Nat}
  {role : Nat → Role} {name : FileName} {file : RamfsFile} {buf : List UInt8} {offset : Nat}

/-! ## What the new file owns -/

/-- `s` came of writes to the file `c`, new in `s₁`, where `s₀` was before it. -/
structure Owns (s₀ s₁ s : Ramfs) (q : Nat → List Nat) (c : Nat) : Prop where
  forest : ∃ role, Forest s q role
  inode : ∀ i, LiveInode s i ↔ LiveInode s₁ i
  entries : s.entries = s₁.entries
  type : ∀ j, (s.inodes j).type = (s₁.inodes j).type
  requests : s₀.heap.requests + 2 ≤ s.heap.requests
  live : ∀ p, s.heap.Live p ↔ s₀.heap.Live p ∨ p = s₀.heap.requests + 1 ∨
    p = s₀.heap.requests + 2 ∨ (s.inodes c).data ≠ 0 ∧ p = (s.inodes c).data
  data : (s.inodes c).data ≠ 0 → s₀.heap.requests + 2 < (s.inodes c).data

theorem Owns.write (h : Owns s₀ s₁ s q file.inode) (hc : LiveInode s₁ file.inode) :
    Owns s₀ s₁ (ramfsWrite s file buf offset).2 q file.inode := by
  obtain ⟨role, hf⟩ := h.forest
  have hc' := (h.inode _).mpr hc
  obtain ⟨⟨role', hf', -⟩, hinode⟩ := ramfsWrite_forest hf hc' buf offset
  have hmoves := @dataMoves_write s file buf offset hf.sane (hf.node _ hc').self
  refine ⟨⟨role', hf'⟩, fun i => (hinode i).trans (h.inode i), hmoves.entries.trans h.entries,
    fun j => (hmoves.type j).trans (h.type j), Nat.le_trans h.requests hmoves.requests,
    fun p => ?_, fun h0 => ?_⟩
  · rcases hmoves.live with ⟨hdata, hlive⟩ | ⟨hdata, hlive⟩
    · rw [hlive, hdata]
      exact h.live p
    · -- the old data are freed, and they are none of the blocks of before
      have hold : s₀.heap.Live p → p ≤ s₀.heap.requests := fun hl => hl.le
      have hreq := h.requests
      rw [hlive, hdata, h.live p]
      by_cases h0 : (s.inodes file.inode).data = 0
      · simp only [h0, ne_eq, not_true_eq_false, false_and, or_false, false_imp_iff, and_true,
          Nat.succ_ne_zero, not_false_eq_true, true_and, or_assoc]
      · have hle : (s.inodes file.inode).data ≤ s.heap.requests :=
          ((hf.node _ hc').data h0).1.le
        have hlow := h.data h0
        simp only [h0, ne_eq, not_false_eq_true, true_and, forall_const, Nat.succ_ne_zero]
        by_cases hl : s₀.heap.Live p
        · have := hold hl
          simp only [hl, true_or, true_and, iff_true]
          omega
        · simp only [hl, false_or]
          omega
  · rcases hmoves.live with ⟨hdata, -⟩ | ⟨hdata, -⟩
    · rw [hdata] at h0 ⊢
      exact h.data h0
    · rw [hdata]
      exact Nat.lt_succ_of_le h.requests

theorem Owns.writeAll (h : Owns s₀ s₁ s q file.inode) (hc : LiveInode s₁ file.inode)
    (writes : List (List UInt8 × Nat)) : Owns s₀ s₁ (writeAll s file writes) q file.inode := by
  induction writes generalizing s with
  | nil => exact h
  | cons w writes ih => exact ih (h.write hc)

/-- The blocks that an unlink of the file frees are all but those of before. -/
theorem Owns.live_freed (ho : Owns s₀ s₁ s q (s₀.heap.requests + 1))
    (hei : (s.entries (s₀.heap.requests + 2)).inode = s₀.heap.requests + 1) :
    s.heap.Live p ∧ p ∉ ownBlocks s (s₀.heap.requests + 2) ↔ s₀.heap.Live p := by
  have hle : s₀.heap.Live p → p ≤ s₀.heap.requests := fun hl => hl.le
  rw [ho.live, mem_ownBlocks, hei]
  by_cases hl : s₀.heap.Live p
  · have := hle hl
    simp only [hl, true_or, true_and, iff_true, not_or, not_and]
    refine ⟨fun h0 => ?_, by omega, by omega⟩
    have := ho.data h0
    omega
  · simp only [hl, false_or, iff_false]
    rintro ⟨hown, hout⟩
    rcases hown with hc | he | hdata
    · exact hout (.inr (.inr hc))
    · exact hout (.inr (.inl he))
    · exact hout (.inl hdata)

section Created
variable (h : Forest s₀ q role) (hd : LiveInode s₀ d)
  (hname : ∀ e ∈ q d, (s₀.entries e).name ≠ name) (hg : s₀.heap.GrantsNext 2)
include h hd hname hg

/-- A new file owns its inode and its entry. -/
theorem owns_accept :
    Owns s₀ (accept s₀ d name .regular) (accept s₀ d name .regular)
      (Function.update (Function.update q (s₀.heap.requests + 1) []) d
        (q d ++ [s₀.heap.requests + 2])) (s₀.heap.requests + 1) := by
  have hcreated := @created_accept s₀ d q role .regular name h hd hname hg
  have hdata : ((accept s₀ d name .regular).inodes (s₀.heap.requests + 1)).data = 0 := by
    rw [hcreated.inode]
    rfl
  refine ⟨⟨_, hcreated.forest⟩, fun _ => Iff.rfl, rfl, fun _ => rfl, Nat.le_of_eq
    hcreated.requests.symm, fun p => ?_, fun h0 => absurd hdata h0⟩
  rw [live_accept h.sane hg, hdata]
  simp only [ne_eq, not_true_eq_false, false_and, or_false]

/-- **What `ramfs_unlink` leaves** of a file: nothing. -/
theorem Owns.unlink (htype : (s₀.inodes d).type = .directory)
    (ho : Owns s₀ (accept s₀ d name .regular) s (Function.update
      (Function.update q (s₀.heap.requests + 1) []) d (q d ++ [s₀.heap.requests + 2]))
      (s₀.heap.requests + 1)) :
    ∃ s', ramfsUnlink s d name.toCString = some (0, s') ∧ SameRing s₀ s' d ∧
      ∀ p, s'.heap.Live p ↔ s₀.heap.Live p := by
  have hcreated := @created_accept s₀ d q role .regular name h hd hname hg
  have hmade := hcreated.made' h
  obtain ⟨role', hf⟩ := ho.forest
  set c := s₀.heap.requests + 1
  set e := s₀.heap.requests + 2
  have hq : Function.update (Function.update q c []) d (q d ++ [e]) d = q d ++ [e] :=
    Function.update_self _ _ _
  have hbindings : bindings s (q d ++ [e]) = bindings s₀ (q d) ++ [(name, c)] := by
    rw [← hcreated.bindings, bindings, bindings, ho.entries]
  obtain ⟨hb, hen, hei⟩ := bindings_last hbindings
  have hd₁ : LiveInode s d := (ho.inode d).mpr (hmade.kept d hd)
  have hn := hf.node d hd₁
  rw [hq] at hn
  have he : e ∈ q d ++ [e] := List.mem_append_right _ (List.mem_singleton_self _)
  have hfind := hn.find_mem he
  rw [hen] at hfind
  have htarget : UnlinkTarget s d name.toCString e := by
    refine ⟨(ho.type d).trans ((hcreated.kind d hd.2.le).trans htype), hn.self.symm ▸ hfind,
      Nat.succ_ne_zero _, ?_⟩
    rw [hei, ho.type]
    exact hmade.type
  have hchild : ChildOk s role' d e := (hn.entry e he).resolve_left fun hdot =>
    absurd (hdot.directory.symm.trans htarget.2.2.2) (by decide)
  have hremoved : Removed s ((removeEntry s d e).kfreeAll (ownBlocks s e))
      (Function.update (Function.update q c []) d (q d ++ [e])) role' d e := by
    refine removed_kfreeAll hf hd₁ (hq.symm ▸ he) hchild (mem_ownBlocks.mpr (.inr (.inr rfl)))
      fun p hp => ?_
    rcases mem_ownBlocks.mp hp with hp | hp | hp
    · exact .inr (.inr hp)
    · exact .inl hp
    · exact .inr (.inl hp)
  have hdc : d ≠ c := Nat.ne_of_lt (Nat.lt_succ_of_le hd.2.le)
  have hd₂ := (hremoved.live d).mpr ⟨hd₁, hei.symm ▸ hdc⟩
  refine ⟨_, ramfsUnlink_eq hf hd₁ (hq.symm ▸ he) hchild htarget,
    hremoved.sameRing (h.node d hd) (hq.symm ▸ hn) hq hd₂ hb, fun p => ?_⟩
  obtain ⟨l₁, l₂, -, hr⟩ := hn.relinks he
  rw [hr.live_kfreeAll]
  exact ho.live_freed hei

end Created

/-- Nothing to take back: the file was not made. -/
theorem unlink_refused (h : Forest s q role) (hd : LiveInode s d)
    (hname : ∀ e ∈ q d, (s.entries e).name ≠ name) :
    ramfsUnlink s d name.toCString = some (-1, s) := by
  rcases ramfsUnlink_cases h hd name.toCString with hcall | ⟨e, he, hen, -⟩
  · exact hcall
  · exact absurd (FileName.toCString_inj hen) (hname e he)

/-- The file is made and taken back, or is not made. -/
theorem Forest.fileRun (h : Forest s q role) (hd : LiveInode s d)
    (htype : (s.inodes d).type = .directory) (hname : ∀ e ∈ q d, (s.entries e).name ≠ name)
    (file : RamfsFile) (writes : List (List UInt8 × Nat)) :
    ∃ r s', fileRun s d name file writes = some (r, s') ∧ (s.heap.GrantsNext 2 → r = 0) ∧
      SameRing s s' d ∧ ∀ p, s'.heap.Live p ↔ s.heap.Live p := by
  have hn := h.node d hd
  unfold Fs.fileRun
  by_cases hg : s.heap.GrantsNext 2
  · have hcall := ((@ramfsCreate_absent s d q role .regular name h hd htype hname).resolve_left
      fun hno => hno.1 hg).2
    have hcreated := @created_accept s d q role .regular name h hd hname hg
    have hnew : Owns s _ _ _ (ramfsOpen (s.heap.requests + 1) file).inode :=
      owns_accept h hd hname hg
    have howns := hnew.writeAll hcreated.live writes
    obtain ⟨s', hunlink, hring, hlive⟩ := howns.unlink h hd hname hg htype
    rw [hcall]
    exact ⟨0, s', hunlink, fun _ => rfl, hring, hlive⟩
  · obtain ⟨-, s', hquiet, hlive, hboth⟩ :=
      (requestBoth_cases s .regular).resolve_right fun hyes => hg hyes.1
    have hcall := (@ramfsCreate_eq s d q role .regular name h hd htype hname).trans (hboth _ _)
    have hd' := (hquiet.liveInode h.made).mpr hd
    have hname' : ∀ e ∈ q d, (s'.entries e).name ≠ name := fun e he => by
      rw [hquiet.entries e (hn.live e he).le]
      exact hname e he
    rw [hcall]
    refine ⟨-1, s', ?_, fun hg' => absurd hg' hg, hquiet.sameRing hn hd.2, hlive⟩
    exact unlink_refused (h.quiet hquiet) hd' hname'

/-- **A file that is made, written to and removed again leaves no trace**, whatever of
the writes fails: the ring of the parent and, when any reachable kernel heap answers
the calls, the block list are as before. -/
theorem file_leaves_no_trace (hm : RamfsReach m) (hd : LiveInode m.fs d)
    (htype : (m.fs.inodes d).type = .directory) (hfree : found m.fs d name.toCString = none)
    (file : RamfsFile) (writes : List (List UInt8 × Nat)) :
    ∃ r s', fileRun m.fs d name file writes = some (r, s') ∧
      (m.fs.heap.GrantsNext 2 → r = 0) ∧ SameRing m.fs s' d ∧
      ∀ c c', Views c m.fs.heap → Serves c m.fs.heap c' s'.heap →
        blockList c'.heap = blockList c.heap := by
  obtain ⟨q, role, h⟩ := hm.whole
  have hname : ∀ e ∈ q d, (m.fs.entries e).name ≠ name := fun e he hen =>
    (h.forest.node d hd).found_eq_none.mp hfree e he (congrArg FileName.toCString hen)
  obtain ⟨r, s', hrun, hzero, hring, hlive⟩ := h.forest.fileRun hd htype hname file writes
  exact ⟨r, s', hrun, hzero, hring, fun c c' hv hs => hs.restores hv hlive⟩

/-- A byte is written to the new file `a`. -/
theorem file_leaves_no_trace_fresh :
    ∃ r s', fileRun (mountRoot freshRamfs).fs 1 aName ⟨0, 0, 0, 0⟩ [([7], 0)] = some (r, s') ∧
      ((mountRoot freshRamfs).fs.heap.GrantsNext 2 → r = 0) ∧ SameRing (mountRoot freshRamfs).fs s' 1 ∧
      ∀ c c', Views c (mountRoot freshRamfs).fs.heap →
        Serves c (mountRoot freshRamfs).fs.heap c' s'.heap → blockList c'.heap = blockList c.heap :=
  file_leaves_no_trace reach_fresh liveInode_freshRoot (by decide) (by decide) _ _

end SynapseKernel.Fs
