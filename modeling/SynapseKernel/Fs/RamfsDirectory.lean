import SynapseKernel.Fs.RamfsRuns
import SynapseKernel.Lib.Runs

/-! # A directory of a RamFS is a map

What `ramfs_find_entry` finds in a directory is a finite map from names to
inodes. An operation on the directory updates the map at one name or fails and
changes nothing (`directory_isMap`). -/
namespace SynapseKernel.Fs
open SynapseKernel.Word SynapseKernel.Kheap SynapseKernel.Str SynapseKernel.Ring SynapseKernel.Runs

/-- The map: the inode of the entry that `ramfs_find_entry` finds. -/
def found (s : Ramfs) (d : Nat) (name : CString) : Option Nat :=
  match ramfsFindEntry s d name with
  | some entry => if entry ≠ 0 then some (s.entries entry).inode else none
  | none => none

/-- The map of the directory `d` is updated at this name. -/
def Updates (s s' : Ramfs) (d : Nat) (name : CString) (value : Option Nat) : Prop :=
  ∀ n, found s' d n = if n = name then value else found s d n

/-- A new inode is found by a name that was free. -/
def Binds (s s' : Ramfs) (d : Nat) (name : CString) (type : FileType) (inode : Nat) : Prop :=
  found s d name = none ∧ Updates s s' d name (some inode) ∧ LiveInode s' inode ∧
    inode ∉ s.made ∧ (s'.inodes inode).type = type

/-- The entries are a ring of distinct names, and every lookup in it ends. -/
def RingOfNames (s : Ramfs) (d : Nat) : Prop :=
  (∃ l, IsRing s.next s.prev l ∧ (s.inodes d).entries = l.headD 0 ∧ (∀ e ∈ l, s.heap.Live e) ∧
    (l.map fun e => (s.entries e).name).Nodup ∧
    ∀ name, (∃ e ∈ l, (s.entries e).name.toCString = name) ↔ found s d name ≠ none) ∧
  ∀ name, ramfsFindEntry s d name ≠ none

/-- What the next operation on the directory does to the map when what it asks of
the heap is granted. -/
structure ActsAsMap (s : Ramfs) (d : Nat) : Prop where
  create : ∀ name type, s.heap.GrantsNext 2 → ∃ result s',
    ramfsCreate s d name type = some (result, s') ∧
      (result ≠ 0 ∧ Binds s s' d name.toCString type result ∨
        result = 0 ∧ found s d name.toCString ≠ none ∧ s' = s)
  mkdir : ∀ name, s.heap.GrantsNext 4 → ∃ result s', ramfsMkdir s d name = some (result, s') ∧
    (result = 0 ∧ (∃ inode, Binds s s' d name.toCString .directory inode) ∨
      result = -1 ∧ found s d name.toCString ≠ none ∧ s' = s)
  unlink : ∀ name, ∃ result s', ramfsUnlink s d name = some (result, s') ∧
    (result = 0 ∧ found s d name ≠ none ∧ Updates s s' d name none ∨ result = -1 ∧ s' = s)
  rmdir : ∀ name, name ≠ dotName.toCString → name ≠ dotdotName.toCString →
    ∃ result s', ramfsRmdir s d name = some (result, s') ∧
      (result = 0 ∧ found s d name ≠ none ∧ Updates s s' d name none ∨ result = -1 ∧ s' = s)

variable {m : Mount} {s s' : Ramfs} {d e i : Nat} {q : Nat → List Nat} {role : Nat → Role}
  {type : FileType} {name : FileName} {op : RamfsOp} {l : List Nat}

theorem NodeOk.found_eq_some (h : NodeOk s role l d) {n : CString} {v : Nat} :
    found s d n = some v ↔
      ∃ e ∈ l, (s.entries e).name.toCString = n ∧ (s.entries e).inode = v := by
  rcases h.find_cases n with ⟨e, he, hen, hfind⟩ | ⟨hno, hfind⟩
  · have hfound : found s d n = some (s.entries e).inode := by
      rw [found, hfind]
      exact if_pos (Nat.ne_of_gt (h.live e he).pos)
    rw [hfound, Option.some.injEq]
    refine ⟨fun hv => ⟨e, he, hen, hv⟩, ?_⟩
    rintro ⟨e', he', hen', hv⟩
    have hsame : e' = e := List.inj_on_of_nodup_map h.names he' he
      (FileName.toCString_inj (hen'.trans hen.symm))
    rw [← hsame, hv]
  · have hfound : found s d n = none := by
      rw [found, hfind]
      exact if_neg (not_not.mpr rfl)
    rw [hfound]
    refine ⟨fun hv => (nomatch hv), ?_⟩
    rintro ⟨e, he, hen, -⟩
    exact absurd hen (hno e he)

theorem NodeOk.found_eq_none (h : NodeOk s role l d) {n : CString} :
    found s d n = none ↔ ∀ e ∈ l, (s.entries e).name.toCString ≠ n := by
  rw [Option.eq_none_iff_forall_ne_some]
  constructor
  · intro hno e he hen
    exact hno _ (h.found_eq_some.mpr ⟨e, he, hen, rfl⟩)
  · intro hno v hv
    obtain ⟨e, he, hen, -⟩ := h.found_eq_some.mp hv
    exact hno e he hen

/-- **The entries of a directory** are a ring of names. -/
theorem NodeOk.ringOfNames (h : NodeOk s role l d) : RingOfNames s d := by
  refine ⟨⟨l, h.ring, h.head, h.live, h.names, fun n => ?_⟩, fun n => ?_⟩
  · rw [Ne, h.found_eq_none]
    refine ⟨fun ⟨e, he, hen⟩ hno => hno e he hen, fun hno => ?_⟩
    rcases h.find_cases n with ⟨e, he, hen, -⟩ | ⟨hno', -⟩
    · exact ⟨e, he, hen⟩
    · exact absurd hno' hno
  · rcases h.find_cases n with ⟨e, -, -, hfind⟩ | ⟨-, hfind⟩ <;> rw [hfind] <;> exact nofun

theorem mem_bindings {n : CString} {v : Nat} :
    (∃ b ∈ bindings s l, b.1.toCString = n ∧ b.2 = v) ↔
      ∃ e ∈ l, (s.entries e).name.toCString = n ∧ (s.entries e).inode = v := by
  constructor
  · rintro ⟨b, hb, hen, hv⟩
    obtain ⟨e, he, rfl⟩ := List.mem_map.mp hb
    exact ⟨e, he, hen, hv⟩
  · intro ⟨e, he, hen, hv⟩
    exact ⟨_, List.mem_map_of_mem he, hen, hv⟩

/-- A new last entry. -/
theorem updates_append (h : NodeOk s role l d) {role' : Nat → Role} {c : Nat}
    (h' : NodeOk s' role' (l ++ [e]) d)
    (hb : bindings s' (l ++ [e]) = bindings s l ++ [(name, c)]) :
    Updates s s' d name.toCString (some c) := by
  intro n
  by_cases hn : n = name.toCString
  · rw [if_pos hn, h'.found_eq_some, ← mem_bindings, hb]
    exact ⟨(name, c), List.mem_append_right _ List.mem_cons_self, hn.symm, rfl⟩
  · rw [if_neg hn]
    refine Option.ext fun v => ?_
    rw [h'.found_eq_some, h.found_eq_some, ← mem_bindings, ← mem_bindings, hb]
    refine ⟨fun ⟨b, hm, hbn, hv⟩ => ⟨b, ?_, hbn, hv⟩, fun ⟨b, hm, hbn, hv⟩ =>
      ⟨b, List.mem_append_left _ hm, hbn, hv⟩⟩
    refine (List.mem_append.mp hm).resolve_right fun hm => hn ?_
    rw [← hbn, List.mem_singleton.mp hm]

/-- An entry less. -/
theorem updates_remove {role' : Nat → Role} {l₁ l₂ : List Nat}
    (h : NodeOk s role (l₁ ++ e :: l₂) d) (h' : NodeOk s' role' (l₁ ++ l₂) d)
    (hb : bindings s' (l₁ ++ l₂) = bindings s (l₁ ++ l₂)) :
    Updates s s' d (s.entries e).name.toCString none := by
  have hperm : (l₁ ++ e :: l₂).Perm (e :: (l₁ ++ l₂)) := List.perm_middle
  have hnames := (hperm.map fun e => (s.entries e).name).nodup_iff.mp h.names
  have hkeep : ∀ {n v}, found s' d n = some v ↔
      ∃ x ∈ l₁ ++ l₂, (s.entries x).name.toCString = n ∧ (s.entries x).inode = v := by
    intro n v
    rw [h'.found_eq_some, ← mem_bindings, hb, mem_bindings]
  intro n
  by_cases hn : n = (s.entries e).name.toCString
  · rw [if_pos hn, Option.eq_none_iff_forall_ne_some]
    intro v hv
    obtain ⟨x, hx, hxn, -⟩ := hkeep.mp hv
    refine (List.nodup_cons.mp hnames).1 (List.mem_map.mpr ⟨x, hx, ?_⟩)
    exact FileName.toCString_inj (hxn.trans hn)
  · rw [if_neg hn]
    refine Option.ext fun v => ?_
    rw [hkeep, h.found_eq_some]
    refine ⟨fun ⟨x, hx, hxn, hv⟩ => ⟨x, hperm.mem_iff.mpr (List.mem_cons_of_mem _ hx), hxn, hv⟩,
      fun ⟨x, hx, hxn, hv⟩ => ⟨x, ?_, hxn, hv⟩⟩
    rcases List.mem_cons.mp (hperm.mem_iff.mp hx) with rfl | hx
    · exact absurd hxn.symm hn
    · exact hx

/-- A name that is not there, or is. -/
theorem NodeOk.absent_or_present (h : NodeOk s role l d) (name : FileName) :
    ((∀ e ∈ l, (s.entries e).name ≠ name) ∧ found s d name.toCString = none) ∨
    ((∃ e ∈ l, (s.entries e).name = name) ∧ found s d name.toCString ≠ none) := by
  by_cases hname : ∃ e ∈ l, (s.entries e).name = name
  · obtain ⟨e, he, hen⟩ := hname
    refine .inr ⟨⟨e, he, hen⟩, fun hno => ?_⟩
    exact h.found_eq_none.mp hno e he (congrArg FileName.toCString hen)
  · have hno : ∀ e ∈ l, (s.entries e).name ≠ name := fun e he hen => hname ⟨e, he, hen⟩
    refine .inl ⟨hno, h.found_eq_none.mpr fun e he hen => ?_⟩
    exact hno e he (FileName.toCString_inj hen)

theorem binds_of_made {c : Nat} (h : Forest s q role) (hd : LiveInode s d)
    (hno : found s d name.toCString = none) (hm : Made s s' q role d name type c) :
    Binds s s' d name.toCString type c := by
  obtain ⟨q', role', e, hf, hq, -, hb⟩ := hm.forest
  have hn := hf.node d (hm.kept d hd)
  rw [hq] at hn
  exact ⟨hno, updates_append (h.node d hd) hn hb, hm.live, hm.fresh, hm.type⟩

theorem updates_of_removed (h : Forest s q role) (hd : LiveInode s d)
    (hr : Removed s s' q role d e) : Updates s s' d (s.entries e).name.toCString none := by
  obtain ⟨l₁, l₂, hq, hf, hb⟩ := hr.forest
  have hd' : LiveInode s' d := (hr.live d).mpr ⟨hd, Nat.ne_of_lt hr.child.newer⟩
  have hn := h.node d hd
  have hn' := hf.node d hd'
  rw [hq] at hn
  rw [Function.update_self] at hn'
  exact updates_remove hn hn' hb

/-- Only `.` and `..` have the names of these. -/
theorem NodeOk.not_dot (h : NodeOk s role l d) (he : e ∈ l)
    (hdot : (s.entries e).name.toCString ≠ dotName.toCString)
    (hdotdot : (s.entries e).name.toCString ≠ dotdotName.toCString) : e ∉ s.dots := by
  intro hm
  rcases h.entry e he with hd | hc
  · rcases hd.refers with ⟨hn, -⟩ | ⟨hn, -⟩
    · exact hdot (congrArg FileName.toCString hn)
    · exact hdotdot (congrArg FileName.toCString hn)
  · exact hc.proper hm

/-- **One operation on a directory** is one on the map. -/
theorem Forest.actsAsMap (h : Forest s q role) (hd : LiveInode s d)
    (htype : (s.inodes d).type = .directory) : ActsAsMap s d := by
  have hn := h.node d hd
  refine ⟨fun name type hg => ?_, fun name hg => ?_, fun name => ?_, fun name hdot hdotdot => ?_⟩
  · rcases hn.absent_or_present name with ⟨hno, hfree⟩ | ⟨hname, hfound⟩
    · have hcall := ((@ramfsCreate_absent s d q role type name h hd htype hno).resolve_left
        fun hr => hr.1 hg).2
      have hcreated := @created_accept s d q role type name h hd hno hg
      exact ⟨_, _, hcall, .inl ⟨Nat.succ_ne_zero _, binds_of_made h hd hfree (hcreated.made' h)⟩⟩
    · exact ⟨0, s, ramfsCreate_refused h hd (.inr hname), .inr ⟨rfl, hfound, rfl⟩⟩
  · rcases hn.absent_or_present name with ⟨hno, hfree⟩ | ⟨hname, hfound⟩
    · have hcall := ((ramfsMkdir_absent h hd htype hno).resolve_left fun hr => hr.1 hg).2
      have hmade := made_mkdir h hd htype hno hg
      exact ⟨_, _, hcall, .inl ⟨rfl, _, binds_of_made h hd hfree hmade⟩⟩
    · exact ⟨-1, s, ramfsMkdir_refused h hd (.inr hname), .inr ⟨rfl, hfound, rfl⟩⟩
  · rcases ramfsUnlink_cases h hd name with hcall | ⟨e, he, rfl, -, s', hcall, hremoved⟩
    · exact ⟨-1, s, hcall, .inr ⟨rfl, rfl⟩⟩
    · have hfound : found s d (s.entries e).name.toCString ≠ none := fun hno =>
        hn.found_eq_none.mp hno e he rfl
      exact ⟨0, s', hcall, .inl ⟨rfl, hfound, updates_of_removed h hd hremoved⟩⟩
  · rcases ramfsRmdir_cases h hd name with hcall | ⟨e, he, rfl, -, s', hcall, hremoved⟩
    · exact ⟨-1, s, hcall, .inr ⟨rfl, rfl⟩⟩
    · have hfound : found s d (s.entries e).name.toCString ≠ none := fun hno =>
        hn.found_eq_none.mp hno e he rfl
      have hremoved := hremoved (hn.not_dot he hdot hdotdot)
      exact ⟨0, s', hcall, .inl ⟨rfl, hfound, updates_of_removed h hd hremoved⟩⟩

/-- Names fit, only live inodes are worked on and `rmdir` is not asked for `.` or `..`. -/
def Careful (s : Ramfs) : RamfsOp → Prop
  | .create parent name _ | .mkdir parent name => LiveInode s parent ∧ name.bytes.length ≤ 255
  | .rmdir parent name =>
    LiveInode s parent ∧ name ≠ dotName.toCString ∧ name ≠ dotdotName.toCString
  | .unlink parent _ => LiveInode s parent
  | .write file _ _ => LiveInode s file.inode
  | _ => True

theorem Forest.sound (h : Forest s q role) (hc : Careful s op) : Sound s op := by
  cases op with
  | rmdir parent name =>
    obtain ⟨hd, hdot, hdotdot⟩ := hc
    refine ⟨hd, ?_⟩
    rintro e ⟨-, hfind, he0, -⟩
    have hn := h.node parent hd
    rw [hn.self] at hfind
    rcases hn.find_cases name with ⟨e', he', rfl, hfind'⟩ | ⟨-, hfind'⟩ <;> rw [hfind'] at hfind
    · obtain rfl := Option.some.inj hfind
      exact hn.not_dot he' hdot hdotdot
    · exact absurd (Option.some.inj hfind).symm he0
  | create parent name type => exact hc
  | mkdir parent name => exact hc
  | unlink parent name => exact hc
  | openFile inode file => trivial
  | closeFile fd => trivial
  | read file count offset => trivial
  | write file buf offset => exact hc

/-- **Every directory is a map** in every state of a run. -/
theorem directory_isMap (s : Ramfs) (hs : s.heap.Sane) (hm : s.made = []) (hd : s.dots = [])
    (h0 : (ramfsCreateRoot s).1 ≠ 0) (ops : List RamfsOp)
    (hops : Guarded mountStep (fun m op => ∀ m', m = some m' → Careful m'.fs op)
      (some (mountRoot s)) ops) :
    Always mountStep (Mounted fun m => ∀ d, LiveInode m.fs d →
      (m.fs.inodes d).type = .directory → RingOfNames m.fs d ∧ ActsAsMap m.fs d)
      (some (mountRoot s)) ops := by
  refine hops.always (Mounted fun m => ∃ q role, Whole m q role) ?_ ?_
    ⟨_, rfl, whole_mountRoot hs hm hd h0⟩
  · rintro m ⟨m', rfl, q, role, h⟩
    exact ⟨m', rfl, fun d hl ht => ⟨(h.forest.node d hl).ringOfNames, h.forest.actsAsMap hl ht⟩⟩
  · rintro m op ⟨m', rfl, q, role, h⟩ hok
    obtain ⟨m'', hstep, hc⟩ := h.step (h.forest.sound (hok m' rfl))
    exact ⟨m'', hstep, hc.whole⟩

theorem directory_isMap_fresh :
    Always mountStep (Mounted fun m => ∀ d, LiveInode m.fs d →
      (m.fs.inodes d).type = .directory → RingOfNames m.fs d ∧ ActsAsMap m.fs d)
      (some (mountRoot freshRamfs))
      [.mkdir 1 ⟨[97], by decide⟩, .rmdir 1 ⟨[97], by decide⟩] := by
  refine directory_isMap freshRamfs (fun p hp => nomatch hp) rfl rfl (by decide) _
    ⟨fun m' h => ?_, fun m' h => ?_, trivial⟩
  · obtain rfl := Option.some.inj h
    have hfits : ([97] : List UInt8).length ≤ 255 := by decide
    exact ⟨liveInode_freshRoot, hfits⟩
  · obtain rfl := Option.some.inj h
    exact ⟨⟨by decide, by decide, by decide, by decide, by decide⟩, by decide, by decide⟩

end SynapseKernel.Fs
