import SynapseKernel.Lib.Links
import SynapseKernel.Lib.Runs
import SynapseKernel.Lib.Search
import SynapseKernel.Mm.BlockHeap
import SynapseKernel.Str.CString

/-! # The list of mounts (kernel/fs/vfs.c)

The list is a stack: `vfs_mount` puts a node in front and `vfs_umount` takes out the first
one with the path, and the heap holds two blocks for each entry (`vfs_stack`). The
root of the tree is a static beside the list, which `vfs_mount` means to set and does not
(`knowsRoot_iff`). -/
namespace SynapseKernel.Fs
open SynapseKernel.Kheap SynapseKernel.Links SynapseKernel.Runs SynapseKernel.Search
open SynapseKernel.Str

/-- `mount_point_t`. -/
structure MountNode where
  mountPoint : Nat
  rootInode : Nat
  fOps : Nat
  next : Nat

/-- The statics of vfs.c, the heap and what is in its blocks. -/
structure Vfs where
  heap : BlockHeap
  nodes : Nat → MountNode
  paths : Nat → CString
  mountPoints : Nat
  rootInode : Nat

abbrev mountPointSize : Nat := 16

abbrev Vfs.next (s : Vfs) (node : Nat) : Nat := (s.nodes node).next

/-- The block with the path of a node. -/
abbrev Vfs.pathBlock (s : Vfs) (node : Nat) : Nat := (s.nodes node).mountPoint

def vfsInit (s : Vfs) : Vfs := { s with mountPoints := 0, rootInode := 0 }

/-- `device` is not looked at. -/
def vfsMount (s : Vfs) (_device mountPoint : CString) (fOps rootInode : Nat) : Int × Vfs :=
  let node := s.heap.kmalloc mountPointSize
  if node.1 = 0 then (-1, { s with heap := node.2 })
  else
    let path := node.2.kmalloc (mountPoint.bytes.length + 1)
    if path.1 = 0 then (-1, { s with heap := path.2.kfree node.1 })
    else
      -- for `/` the source assigns `root_inode` to itself, which is the parameter here
      (0, { s with
        heap := path.2
        paths := Function.update s.paths path.1 mountPoint
        nodes := Function.update s.nodes node.1
          { mountPoint := path.1, rootInode := rootInode, fOps := fOps, next := s.mountPoints }
        mountPoints := node.1 })

/-- `current` is taken from the list, of which `prev` is the node before it. -/
def removeNode (s : Vfs) (prev current : Nat) : Vfs :=
  if prev ≠ 0 then
    { s with nodes := Function.update s.nodes prev { s.nodes prev with next := s.next current } }
  else { s with mountPoints := s.next current }

/-- `none` is a list that does not end. -/
def vfsUmount (s : Vfs) (mountPoint : CString) : Option (Int × Vfs) :=
  match walk (trail fun node => strcmp (s.paths (s.pathBlock node)) mountPoint = 0) s.next
      s.heap.requests s.mountPoints 0 with
  | none => none
  | some (.ok _) => some (-1, s)
  | some (.error (prev, current)) =>
    let s := removeNode s prev current
    some (0, { s with heap := (s.heap.kfree (s.pathBlock current)).kfree current })

/-- What is returned, the inode and the basename. -/
def vfsPathResolve (s : Vfs) (_path : CString) : Int × Nat × Nat := (0, s.rootInode, 0)

/-- What is returned, and the inode if it is stored. -/
def vfsOpen (s : Vfs) (path : CString) (_flags : Nat) : Int × Option Nat :=
  let resolved := vfsPathResolve s path
  if resolved.1 < 0 then (resolved.1, none) else (0, some resolved.2.1)

/-! ## Runs of mounts and unmounts -/

inductive VfsOp
  | mount (device path : CString) (fOps rootInode : Nat)
  | umount (path : CString)

def vfsCall (s : Vfs) : VfsOp → Option (Int × Vfs)
  | .mount device path fOps rootInode => some (vfsMount s device path fOps rootInode)
  | .umount path => vfsUmount s path

/-- An entry of the stack. -/
structure StackEntry where
  path : CString
  rootInode : Nat
  fOps : Nat

/-- The stack after a call that returned `result`. -/
def stacked (stack : List StackEntry) (result : Int) : VfsOp → List StackEntry
  | .mount _ path fOps rootInode =>
    if result = 0 then ⟨path, rootInode, fOps⟩ :: stack else stack
  | .umount path => stack.eraseP fun m => m.path = path

/-- The file system layer, beside the stack that it is meant to keep. -/
structure StackedVfs where
  vfs : Vfs
  stack : List StackEntry

def vfsNext (t : StackedVfs) (op : VfsOp) : StackedVfs :=
  match vfsCall t.vfs op with
  | none => t
  | some (result, s) => ⟨s, stacked t.stack result op⟩

/-- What a node of the list says. -/
def Vfs.entry (s : Vfs) (node : Nat) : StackEntry :=
  ⟨s.paths (s.pathBlock node), (s.nodes node).rootInode, (s.nodes node).fOps⟩

/-- The node and the copy of the path of each entry. -/
def Vfs.blocks (s : Vfs) (nodes : List Nat) : List Nat :=
  nodes.flatMap fun node => [node, s.pathBlock node]

/-- The list in memory is the stack, and the live blocks are those of its entries and
those that were live `before`. -/
structure ListsNodes (before : BlockHeap) (t : StackedVfs) (nodes : List Nat) : Prop where
  links : IsList t.vfs.next t.vfs.mountPoints nodes
  entries : nodes.map t.vfs.entry = t.stack
  distinct : (t.vfs.blocks nodes).Nodup
  fresh : ∀ block ∈ t.vfs.blocks nodes, ¬ before.Live block
  live : ∀ block, t.vfs.heap.Live block ↔ before.Live block ∨ block ∈ t.vfs.blocks nodes
  sane : t.vfs.heap.Sane

def ListsStack (before : BlockHeap) (t : StackedVfs) : Prop := ∃ nodes, ListsNodes before t nodes

/-- Nothing but the count of requests differs, and no block. -/
def SameMounts (s s' : Vfs) : Prop :=
  ∃ heap, s' = { s with heap := heap } ∧ ∀ block, heap.Live block ↔ s.heap.Live block

/-- A call returns `0` or `-1`, and with `-1` it changes nothing: a mount that is refused
memory, and an unmount of a path that is not in the stack. -/
def Answers (t : StackedVfs) (op : VfsOp) : Prop :=
  ∃ result s', vfsCall t.vfs op = some (result, s') ∧ (result = 0 ∨ result = -1) ∧
    (result = -1 → SameMounts t.vfs s') ∧
    (result = 0 ↔ match op with
      | .mount _ _ _ _ => t.vfs.heap.GrantsNext 2
      | .umount path => ∃ m ∈ t.stack, m.path = path)

variable {s : Vfs} {t : StackedVfs} {before : BlockHeap} {nodes pre post : List Nat}
  {node x y : Nat} {path : CString}

/-! ## Mounting -/

/-- The state after a mount that succeeds. -/
def pushed (s : Vfs) (path : CString) (fOps rootInode : Nat) : Vfs :=
  { s with
    heap := ((s.heap.kmalloc mountPointSize).2.kmalloc (path.bytes.length + 1)).2
    paths := Function.update s.paths (s.heap.requests + 2) path
    nodes := Function.update s.nodes (s.heap.requests + 1)
      { mountPoint := s.heap.requests + 2, rootInode := rootInode, fOps := fOps,
        next := s.mountPoints }
    mountPoints := s.heap.requests + 1 }

theorem vfsMount_cases (s : Vfs) (device path : CString) (fOps rootInode : Nat) :
    (¬ s.heap.GrantsNext 2 ∧ ∃ s', vfsMount s device path fOps rootInode = (-1, s') ∧
      SameMounts s s' ∧ (s.heap.Sane → s'.heap.Sane)) ∨
    (s.heap.GrantsNext 2 ∧
      vfsMount s device path fOps rootInode = (0, pushed s path fOps rootInode)) := by
  rcases s.heap.kmalloc_cases mountPointSize with ⟨hno, hnode⟩ | ⟨hyes, hnode⟩
  · have he : vfsMount s device path fOps rootInode =
        (-1, { s with heap := (s.heap.kmalloc mountPointSize).2 }) := by
      simp only [vfsMount, hnode, if_true]
    refine .inl ⟨BlockHeap.not_grantsNext Nat.two_pos hno, _, he, ⟨_, rfl, fun block => ?_⟩,
      fun hs => @BlockHeap.Sane.kmalloc _ mountPointSize hs⟩
    exact @BlockHeap.live_kmalloc_refused _ _ mountPointSize hno
  rcases (s.heap.kmalloc mountPointSize).2.kmalloc_cases (path.bytes.length + 1)
      (Nat.succ_ne_zero _) with
    ⟨hno, hpath⟩ | ⟨hyes', hpath⟩
  · have he : vfsMount s device path fOps rootInode = (-1, { s with
        heap := ((s.heap.kmalloc mountPointSize).2.kmalloc (path.bytes.length + 1)).2.kfree
          (s.heap.requests + 1) }) := by
      simp only [vfsMount, hnode, hpath, Nat.succ_ne_zero, if_false, if_true]
    refine .inl ⟨BlockHeap.not_grantsNext Nat.one_lt_two hno, _, he, ⟨_, rfl, fun block => ?_⟩,
      fun hs => ?_⟩
    · exact BlockHeap.live_undo_one hno
    · have hs' : (s.heap.kmalloc mountPointSize).2.Sane := hs.kmalloc
      exact hs'.kmalloc.kfree ((s.heap.kmalloc mountPointSize).2.requests_le_kmalloc _)
  · refine .inr ⟨((BlockHeap.grantsNext_zero _).succ hyes).succ hyes', ?_⟩
    simp only [vfsMount, hnode, hpath, Nat.succ_ne_zero, if_false]
    rfl

theorem Vfs.blocks_congr {s' : Vfs} (h : ∀ node ∈ nodes, s'.pathBlock node = s.pathBlock node) :
    s'.blocks nodes = s.blocks nodes := by
  refine List.flatMap_congr fun node hnode => ?_
  rw [h node hnode]

theorem Vfs.mem_blocks (h : node ∈ nodes) :
    node ∈ s.blocks nodes ∧ s.pathBlock node ∈ s.blocks nodes := by
  constructor
  · exact List.mem_flatMap.mpr ⟨node, h, List.mem_cons_self⟩
  · exact List.mem_flatMap.mpr ⟨node, h, List.mem_cons_of_mem _ List.mem_cons_self⟩

theorem ListsNodes.le (h : ListsNodes before t nodes) {block : Nat}
    (hb : block ∈ t.vfs.blocks nodes) : 0 < block ∧ block ≤ t.vfs.heap.requests := by
  have hl := (h.live block).mpr (.inr hb)
  exact ⟨hl.pos, hl.le⟩

/-- The new node is in a block of its own. -/
theorem ListsNodes.pushed_nodes (h : ListsNodes before t nodes) (path : CString)
    (fOps rootInode : Nat) :
    (pushed t.vfs path fOps rootInode).nodes (t.vfs.heap.requests + 1) =
        ⟨t.vfs.heap.requests + 2, rootInode, fOps, t.vfs.mountPoints⟩ ∧
      ∀ node ∈ nodes, (pushed t.vfs path fOps rootInode).nodes node = t.vfs.nodes node := by
  refine ⟨Function.update_self _ _ _, fun node hnode => ?_⟩
  have hle := (h.le (Vfs.mem_blocks hnode).1).2
  exact Function.update_of_ne (by omega) _ _

theorem ListsNodes.pushed_blocks (h : ListsNodes before t nodes) (path : CString)
    (fOps rootInode : Nat) :
    (pushed t.vfs path fOps rootInode).blocks ((t.vfs.heap.requests + 1) :: nodes) =
      (t.vfs.heap.requests + 1) :: (t.vfs.heap.requests + 2) :: t.vfs.blocks nodes := by
  obtain ⟨hnew, hold⟩ := h.pushed_nodes path fOps rootInode
  have hsame : (pushed t.vfs path fOps rootInode).blocks nodes = t.vfs.blocks nodes :=
    Vfs.blocks_congr fun node hnode => congrArg MountNode.mountPoint (hold node hnode)
  rw [← hsame, Vfs.blocks, List.flatMap_cons, Vfs.pathBlock, hnew]
  rfl

theorem ListsNodes.pushed_entries (h : ListsNodes before t nodes) (path : CString)
    (fOps rootInode : Nat) :
    ((t.vfs.heap.requests + 1) :: nodes).map (pushed t.vfs path fOps rootInode).entry =
      ⟨path, rootInode, fOps⟩ :: t.stack := by
  obtain ⟨hnew, hold⟩ := h.pushed_nodes path fOps rootInode
  rw [List.map_cons, ← h.entries]
  congr 1
  · rw [Vfs.entry, Vfs.pathBlock, hnew]
    exact congrArg (StackEntry.mk · rootInode fOps) (Function.update_self _ _ _)
  · refine List.map_congr_left fun node hnode => ?_
    have hle : (t.vfs.nodes node).mountPoint ≤ t.vfs.heap.requests :=
      (h.le (Vfs.mem_blocks hnode).2).2
    rw [Vfs.entry, Vfs.entry, Vfs.pathBlock, hold node hnode]
    congr 1
    exact Function.update_of_ne (by omega) _ _

/-- **A mount** puts its entry in front. -/
theorem ListsNodes.push (h : ListsNodes before t nodes) (hg : t.vfs.heap.GrantsNext 2)
    (path : CString) (fOps rootInode : Nat) :
    ListsNodes before ⟨pushed t.vfs path fOps rootInode, ⟨path, rootInode, fOps⟩ :: t.stack⟩
      ((t.vfs.heap.requests + 1) :: nodes) := by
  obtain ⟨hnew, hold⟩ := h.pushed_nodes path fOps rootInode
  have hblocks := h.pushed_blocks path fOps rootInode
  refine ⟨⟨rfl, Nat.succ_ne_zero _, ?_⟩, h.pushed_entries path fOps rootInode, ?_,
    fun block hb => ?_, fun block => ?_,
    (@BlockHeap.Sane.kmalloc _ mountPointSize h.sane).kmalloc⟩
  · rw [Vfs.next, hnew]
    exact h.links.congr fun node hnode => congrArg MountNode.next (hold node hnode)
  · rw [hblocks, List.nodup_cons, List.nodup_cons]
    refine ⟨fun hm => ?_, fun hm => ?_, h.distinct⟩
    · rcases List.mem_cons.mp hm with he | hm
      · omega
      · have := (h.le hm).2
        omega
    · have := (h.le hm).2
      omega
  · rw [hblocks] at hb
    intro hbefore
    have hle := ((h.live block).mpr (.inl hbefore)).le
    rcases List.mem_cons.mp hb with rfl | hb
    · omega
    rcases List.mem_cons.mp hb with rfl | hb
    · omega
    · exact h.fresh block hb hbefore
  · rw [hblocks, List.mem_cons, List.mem_cons]
    refine (BlockHeap.live_kmalloc_both h.sane hg mountPointSize (path.bytes.length + 1)
      (by decide) (Nat.succ_ne_zero _)).trans ?_
    rw [h.live block]
    tauto

/-! ## Unmounting -/

/-- The state after an unmount of the node `x`. -/
def popped (s : Vfs) (prev x : Nat) : Vfs :=
  { removeNode s prev x with heap := (s.heap.kfree (s.pathBlock x)).kfree x }

theorem removeNode_nodes (s : Vfs) (prev x node : Nat) :
    ∃ next, (removeNode s prev x).nodes node = { s.nodes node with next := next } := by
  rw [removeNode]
  split
  · by_cases he : node = prev
    · rw [he]
      exact ⟨_, Function.update_self _ _ _⟩
    · exact ⟨s.next node, Function.update_of_ne he _ _⟩
  · exact ⟨s.next node, rfl⟩

theorem removeNode_statics (s : Vfs) (prev x : Nat) :
    (removeNode s prev x).heap = s.heap ∧ (removeNode s prev x).paths = s.paths ∧
      (removeNode s prev x).rootInode = s.rootInode := by
  rw [removeNode]
  split
  · exact ⟨rfl, rfl, rfl⟩
  · exact ⟨rfl, rfl, rfl⟩

theorem popped_pathBlock (s : Vfs) (prev x node : Nat) :
    (popped s prev x).pathBlock node = s.pathBlock node := by
  obtain ⟨next, hn⟩ := removeNode_nodes s prev x node
  have hnode : (popped s prev x).nodes node = { s.nodes node with next := next } := hn
  rw [Vfs.pathBlock, hnode]

theorem popped_entry (s : Vfs) (prev x node : Nat) :
    (popped s prev x).entry node = s.entry node := by
  obtain ⟨next, hn⟩ := removeNode_nodes s prev x node
  have hpaths : (popped s prev x).paths = s.paths := (removeNode_statics s prev x).2.1
  have hnode : (popped s prev x).nodes node = { s.nodes node with next := next } := hn
  rw [Vfs.entry, Vfs.entry, Vfs.pathBlock, hpaths, hnode]

/-- The first node is taken out of the head, any other one out of the node before it. -/
theorem removeNode_links (h : IsList s.next s.mountPoints (pre ++ x :: post)) :
    IsList (removeNode s (pre.getLastD 0) x).next (removeNode s (pre.getLastD 0) x).mountPoints
      (pre ++ post) := by
  rcases List.eq_nil_or_concat' pre with rfl | ⟨front, y, rfl⟩
  · exact h.2.2
  · rw [List.append_assoc, List.singleton_append] at h ⊢
    have hy : y ≠ 0 := h.ne_zero y (List.mem_append_right _ List.mem_cons_self)
    have hnext : (removeNode s y x).next = Function.update s.next y (s.next x) := by
      funext node
      rw [removeNode, if_pos hy]
      exact Function.apply_update (fun _ => MountNode.next) s.nodes y _ node
    have hhead : (removeNode s y x).mountPoints = s.mountPoints := by rw [removeNode, if_pos hy]
    rw [List.getLastD_concat, hnext, hhead]
    exact h.unlink

theorem Vfs.blocks_middle (s : Vfs) (pre post : List Nat) (x : Nat) :
    (s.blocks (pre ++ x :: post)).Perm (x :: s.pathBlock x :: s.blocks (pre ++ post)) := by
  simp only [Vfs.blocks, List.flatMap_append, List.flatMap_cons, List.cons_append, List.nil_append]
  exact List.perm_middle.trans (List.perm_middle.cons x)

/-- What `vfs_umount` returns: the walk ends, at the first node with the path. -/
theorem ListsNodes.umount_cases (h : ListsNodes before t nodes) (path : CString) :
    ((∀ m ∈ t.stack, m.path ≠ path) ∧ vfsUmount t.vfs path = some (-1, t.vfs)) ∨
    ∃ pre x post, nodes = pre ++ x :: post ∧ (t.vfs.entry x).path = path ∧
      (∀ y ∈ pre, (t.vfs.entry y).path ≠ path) ∧
      vfsUmount t.vfs path = some (0, popped t.vfs (pre.getLastD 0) x) := by
  have hlen : nodes.length ≤ t.vfs.heap.requests :=
    BlockHeap.length_le h.links.nodup fun node hnode => h.le (Vfs.mem_blocks hnode).1
  have hwalk := fun p [DecidablePred p] => @IsList.walk_eq _ _ _ _ _ (trail p) h.links _ hlen 0
  have hpath : ∀ node, strcmp (t.vfs.paths (t.vfs.pathBlock node)) path = 0 ↔
      (t.vfs.entry node).path = path := fun node => strcmp_eq_zero _ _
  rcases foldlM_trail (fun node => strcmp (t.vfs.paths (t.vfs.pathBlock node)) path = 0)
      nodes 0 with
    ⟨pre, x, post, rfl, hx, hpre, hr⟩ | ⟨hno, last, hr⟩
  · refine .inr ⟨pre, x, post, rfl, (hpath x).mp hx, fun y hy => mt (hpath y).mpr (hpre y hy), ?_⟩
    rw [vfsUmount, hwalk, hr]
    obtain ⟨hheap, -, -⟩ := removeNode_statics t.vfs (pre.getLastD 0) x
    have hblock : (removeNode t.vfs (pre.getLastD 0) x).pathBlock x = t.vfs.pathBlock x :=
      popped_pathBlock t.vfs (pre.getLastD 0) x x
    simp only [hheap, hblock, popped]
  · refine .inl ⟨fun m hm => ?_, ?_⟩
    · rw [← h.entries] at hm
      obtain ⟨node, hnode, rfl⟩ := List.mem_map.mp hm
      exact mt (hpath node).mpr (hno node hnode)
    · rw [vfsUmount, hwalk, hr]

/-- The entry that is taken out is the first one with the path. -/
theorem ListsNodes.popped_entries (h : ListsNodes before t (pre ++ x :: post))
    (hx : (t.vfs.entry x).path = path) (hpre : ∀ y ∈ pre, (t.vfs.entry y).path ≠ path)
    (prev : Nat) :
    (pre ++ post).map (popped t.vfs prev x).entry = t.stack.eraseP fun m => m.path = path := by
  have hentry : (popped t.vfs prev x).entry = t.vfs.entry :=
    funext fun node => popped_entry _ _ _ node
  have hkeep : ∀ m ∈ pre.map t.vfs.entry, ¬ decide (m.path = path) = true := by
    intro m hm
    obtain ⟨node, hnode, rfl⟩ := List.mem_map.mp hm
    rw [decide_eq_true_eq]
    exact hpre node hnode
  have hfirst : decide ((t.vfs.entry x).path = path) = true := decide_eq_true hx
  rw [hentry, ← h.entries, List.map_append, List.map_append, List.map_cons]
  exact ((List.eraseP_append_right _ hkeep).trans
    (congrArg _ (List.eraseP_cons_of_pos hfirst))).symm

/-- Its two blocks are freed, and no others. -/
theorem ListsNodes.popped_live (h : ListsNodes before t (pre ++ x :: post)) (prev block : Nat) :
    (popped t.vfs prev x).heap.Live block ↔
      before.Live block ∨ block ∈ t.vfs.blocks (pre ++ post) := by
  have hmem := fun block => (t.vfs.blocks_middle pre post x).mem_iff (a := block)
  obtain ⟨hxnew, hpnew, -⟩ := (List.nodup_cons.mp
    ((t.vfs.blocks_middle pre post x).nodup_iff.mp h.distinct)).imp_right List.nodup_cons.mp
  have hlive := h.live block
  have hfx := h.fresh x ((hmem x).mpr List.mem_cons_self)
  have hfp := h.fresh _ ((hmem (t.vfs.pathBlock x)).mpr
    (List.mem_cons_of_mem _ List.mem_cons_self))
  rw [hmem, List.mem_cons, List.mem_cons] at hlive
  refine BlockHeap.live_kfree.trans ((and_congr_left' BlockHeap.live_kfree).trans ?_)
  rw [hlive]
  constructor
  · rintro ⟨⟨hb | rfl | rfl | hb, hnp⟩, hnx⟩
    · exact .inl hb
    · exact absurd rfl hnx
    · exact absurd rfl hnp
    · exact .inr hb
  · rintro (hb | hb)
    · exact ⟨⟨.inl hb, fun he => hfp (he ▸ hb)⟩, fun he => hfx (he ▸ hb)⟩
    · refine ⟨⟨.inr (.inr (.inr hb)), ?_⟩, ?_⟩
      · rintro rfl
        exact hpnew hb
      · rintro rfl
        exact hxnew (List.mem_cons_of_mem _ hb)

/-- **An unmount** takes out its entry and nothing else. -/
theorem ListsNodes.pop (h : ListsNodes before t (pre ++ x :: post))
    (hx : (t.vfs.entry x).path = path) (hpre : ∀ y ∈ pre, (t.vfs.entry y).path ≠ path) :
    ListsNodes before ⟨popped t.vfs (pre.getLastD 0) x, t.stack.eraseP fun m => m.path = path⟩
      (pre ++ post) := by
  have hblocks : (popped t.vfs (pre.getLastD 0) x).blocks (pre ++ post) =
      t.vfs.blocks (pre ++ post) := Vfs.blocks_congr fun node _ => popped_pathBlock _ _ _ node
  have hperm := t.vfs.blocks_middle pre post x
  obtain ⟨-, -, hdistinct⟩ :=
    (List.nodup_cons.mp (hperm.nodup_iff.mp h.distinct)).imp_right List.nodup_cons.mp
  refine ⟨removeNode_links h.links, h.popped_entries hx hpre _, hblocks ▸ hdistinct,
    fun block hb => ?_, fun block => hblocks ▸ h.popped_live _ block, ?_⟩
  · rw [hblocks] at hb
    exact h.fresh block (hperm.mem_iff.mpr
      (List.mem_cons_of_mem _ (List.mem_cons_of_mem _ hb)))
  · have hpath := (h.le (@Vfs.mem_blocks t.vfs _ x
      (List.mem_append_right _ List.mem_cons_self)).2).2
    have hnode := (h.le (@Vfs.mem_blocks t.vfs _ x
      (List.mem_append_right _ List.mem_cons_self)).1).2
    exact (h.sane.kfree hpath).kfree hnode

/-! ## The stack -/

theorem vfsNext_some {op : VfsOp} {result : Int} {s' : Vfs}
    (h : vfsCall t.vfs op = some (result, s')) :
    vfsNext t op = ⟨s', stacked t.stack result op⟩ := by
  rw [vfsNext, h]

/-- A mount that fails leaves the list. -/
theorem ListsNodes.refused (h : ListsNodes before t nodes) {s' : Vfs}
    (hs : SameMounts t.vfs s') (hsane : s'.heap.Sane) : ListsNodes before ⟨s', t.stack⟩ nodes := by
  obtain ⟨heap, rfl, hlive⟩ := hs
  exact ⟨h.links, h.entries, h.distinct, h.fresh, fun block => (hlive block).trans (h.live block),
    hsane⟩

/-- **One call** does to the list in memory what it does to the stack. -/
theorem ListsStack.next (h : ListsStack before t) (op : VfsOp) :
    ListsStack before (vfsNext t op) := by
  obtain ⟨nodes, h⟩ := h
  cases op with
  | mount device path fOps rootInode =>
    rcases vfsMount_cases t.vfs device path fOps rootInode with
      ⟨-, s', he, hsame, hsane⟩ | ⟨hg, he⟩
    · have hcall : vfsCall t.vfs (.mount device path fOps rootInode) = some (-1, s') :=
        congrArg some he
      rw [vfsNext_some hcall]
      exact ⟨nodes, h.refused hsame (hsane h.sane)⟩
    · have hcall : vfsCall t.vfs (.mount device path fOps rootInode) = some (0, _) :=
        congrArg some he
      rw [vfsNext_some hcall]
      exact ⟨_, h.push hg path fOps rootInode⟩
  | umount path =>
    rcases h.umount_cases path with ⟨hno, he⟩ | ⟨pre, x, post, rfl, hx, hpre, he⟩
    · have hstack : t.stack.eraseP (fun m => m.path = path) = t.stack :=
        List.eraseP_of_forall_not fun m hm => by
          rw [decide_eq_true_eq]
          exact hno m hm
      have hcall : vfsCall t.vfs (.umount path) = some (-1, t.vfs) := he
      rw [vfsNext_some hcall, stacked, hstack]
      exact ⟨nodes, h⟩
    · have hcall : vfsCall t.vfs (.umount path) = some (0, _) := he
      rw [vfsNext_some hcall]
      exact ⟨_, h.pop hx hpre⟩

theorem ListsStack.answers (h : ListsStack before t) (op : VfsOp) : Answers t op := by
  obtain ⟨nodes, h⟩ := h
  cases op with
  | mount device path fOps rootInode =>
    rcases vfsMount_cases t.vfs device path fOps rootInode with
      ⟨hno, s', he, hsame, -⟩ | ⟨hg, he⟩
    · exact ⟨-1, s', congrArg some he, .inr rfl, fun _ => hsame,
        iff_of_false (by decide) hno⟩
    · exact ⟨0, _, congrArg some he, .inl rfl, fun h => absurd h (by decide),
        iff_of_true rfl hg⟩
  | umount path =>
    rcases h.umount_cases path with ⟨hno, he⟩ | ⟨pre, x, post, rfl, hx, hpre, he⟩
    · refine ⟨-1, _, he, .inr rfl, fun _ => ⟨_, rfl, fun _ => Iff.rfl⟩, iff_of_false (by decide) ?_⟩
      rintro ⟨m, hm, hpath⟩
      exact hno m hm hpath
    · refine ⟨0, _, he, .inl rfl, fun h => absurd h (by decide), iff_of_true rfl ?_⟩
      refine ⟨t.vfs.entry x, ?_, hx⟩
      rw [← h.entries]
      exact List.mem_map_of_mem (List.mem_append_right _ List.mem_cons_self)

theorem listsStack_init {s : Vfs} (hs : s.heap.Sane) : ListsStack s.heap ⟨vfsInit s, []⟩ := by
  refine ⟨[], rfl, rfl, List.nodup_nil, fun block hb => absurd hb List.not_mem_nil, fun block => ?_,
    hs⟩
  exact (or_iff_left List.not_mem_nil).symm

/-- **The list of mounts is a stack.** In every run of mounts and unmounts from `vfs_init`
it holds the entries of the stack in their order, the heap holds their blocks and no
others, and every call answers as the stack says. -/
theorem vfs_stack (s : Vfs) (hs : s.heap.Sane) (ops : List VfsOp) :
    Always vfsNext (ListsStack s.heap) ⟨vfsInit s, []⟩ ops ∧
      Guarded vfsNext Answers ⟨vfsInit s, []⟩ ops := by
  have hany := @guarded_of_forall _ _ vfsNext (fun _ => True) (StackedVfs.mk (vfsInit s) []) ops
    fun _ _ => trivial
  constructor
  · exact hany.always (ListsStack s.heap) (fun _ => id) (fun t op ht _ => ht.next op)
      (listsStack_init hs)
  · exact hany.imp (ListsStack s.heap) (fun t op ht _ => ht.next op)
      (fun t op ht _ => ht.answers op) (listsStack_init hs)

/-- `"/"`. -/
def slashPath : CString := ⟨[47], by decide⟩

/-- The file system layer before `vfs_init`; the request `2` is refused. -/
def bareVfs : Vfs where
  heap := ⟨fun i => i ≠ 2, id, 0, []⟩
  nodes := fun _ => ⟨0, 0, 0, 0⟩
  paths := fun _ => slashPath
  mountPoints := 0
  rootInode := 0

/-- Two mounts with a refused one between them, and two unmounts. -/
def someMounts : List VfsOp :=
  [.mount slashPath slashPath 0 7, .mount slashPath slashPath 0 8, .mount slashPath slashPath 0 9,
    .umount slashPath, .umount slashPath]

theorem vfs_stack_someMounts :
    Always vfsNext (ListsStack bareVfs.heap) ⟨vfsInit bareVfs, []⟩ someMounts ∧
      Guarded vfsNext Answers ⟨vfsInit bareVfs, []⟩ someMounts :=
  vfs_stack bareVfs (fun _ hp => absurd hp List.not_mem_nil) someMounts

/-! ## The root -/

/-- With a file system at `/`, every path leads to the root inode of the last one. -/
def KnowsRoot (t : StackedVfs) : Prop :=
  ∀ m, t.stack.find? (fun m => m.path = slashPath) = some m →
    m.rootInode ≠ 0 ∧ ∀ path flags,
      vfsPathResolve t.vfs path = (0, m.rootInode, 0) ∧
        vfsOpen t.vfs path flags = (0, some m.rootInode)

/-- The call mounts a file system at `/`, for which there is memory. -/
def MountsRoot (t : StackedVfs) : VfsOp → Prop
  | .mount _ path _ _ => path = slashPath ∧ t.vfs.heap.GrantsNext 2
  | .umount _ => False

/-- The static is never set, and nothing is mounted at `/`. -/
def NoRoot (t : StackedVfs) : Prop := t.vfs.rootInode = 0 ∧ ∀ m ∈ t.stack, m.path ≠ slashPath

theorem NoRoot.knowsRoot (h : NoRoot t) : KnowsRoot t := by
  intro m hm
  have hpath := List.find?_some hm
  rw [decide_eq_true_eq] at hpath
  exact absurd hpath (h.2 m (List.mem_of_find?_eq_some hm))

theorem NoRoot.next (h : NoRoot t) {op : VfsOp} (hop : ¬ MountsRoot t op) :
    NoRoot (vfsNext t op) := by
  cases op with
  | mount device path fOps rootInode =>
    rcases vfsMount_cases t.vfs device path fOps rootInode with
      ⟨-, s', he, ⟨heap, rfl, -⟩, -⟩ | ⟨hg, he⟩
    · have hcall : vfsCall t.vfs (.mount device path fOps rootInode) = some (-1, _) :=
        congrArg some he
      rw [vfsNext_some hcall]
      exact h
    · have hcall : vfsCall t.vfs (.mount device path fOps rootInode) = some (0, _) :=
        congrArg some he
      rw [vfsNext_some hcall]
      exact ⟨h.1, List.forall_mem_cons.mpr ⟨fun hp => hop ⟨hp, hg⟩, h.2⟩⟩
  | umount path =>
    cases hcall : vfsCall t.vfs (.umount path) with
    | none =>
      rw [vfsNext, hcall]
      exact h
    | some r =>
      have hroot : r.2.rootInode = t.vfs.rootInode := by
        have hcall : vfsUmount t.vfs path = some r := hcall
        rw [vfsUmount] at hcall
        split at hcall
        · cases hcall
        · rw [← Option.some.inj hcall]
        · rw [← Option.some.inj hcall]
          exact (removeNode_statics _ _ _).2.2
      rw [vfsNext_some hcall]
      exact ⟨hroot.trans h.1, fun m hm => h.2 m (List.mem_of_mem_eraseP hm)⟩

theorem NoRoot.mountsRoot (h : NoRoot t) {op : VfsOp} (hop : MountsRoot t op) :
    ¬ KnowsRoot (vfsNext t op) := by
  cases op with
  | mount device path fOps rootInode =>
    obtain ⟨rfl, hg⟩ := hop
    rcases vfsMount_cases t.vfs device slashPath fOps rootInode with ⟨hno, -⟩ | ⟨-, he⟩
    · exact absurd hg hno
    · have hcall : vfsCall t.vfs (.mount device slashPath fOps rootInode) = some (0, _) :=
        congrArg some he
      rw [vfsNext_some hcall]
      intro hknows
      obtain ⟨hne, hall⟩ := hknows ⟨slashPath, rootInode, fOps⟩ rfl
      have hresolve : t.vfs.rootInode = rootInode :=
        congrArg (fun r => r.2.1) (hall slashPath 0).1
      exact hne (hresolve.symm.trans h.1)
  | umount path => exact hop.elim

/-- **The root is known** in every state of a run exactly when nothing is mounted at `/`
in it: such a mount leaves the static as `vfs_init` left it. -/
theorem knowsRoot_iff (s : Vfs) (ops : List VfsOp) :
    Always vfsNext KnowsRoot ⟨vfsInit s, []⟩ ops ↔
      Guarded vfsNext (fun t op => ¬ MountsRoot t op) ⟨vfsInit s, []⟩ ops :=
  always_iff_guarded NoRoot (fun _ h => h.knowsRoot) (fun _ _ h => h.next)
    (fun _ _ h hop => h.mountsRoot (not_not.mp hop))
    ⟨rfl, fun _ hm => absurd hm List.not_mem_nil⟩ ops

/-- A mount at `/` that returns `0`, after which `vfs_open` gives `NULL` for `/`. -/
theorem root_not_found :
    (vfsMount (vfsInit bareVfs) slashPath slashPath 0 7).1 = 0 ∧
      vfsOpen (vfsNext ⟨vfsInit bareVfs, []⟩ (.mount slashPath slashPath 0 7)).vfs slashPath 0 =
        (0, some 0) ∧
      ¬ Always vfsNext KnowsRoot ⟨vfsInit bareVfs, []⟩ [.mount slashPath slashPath 0 7] := by
  refine ⟨by decide, rfl, fun h => ?_⟩
  have hopen := ((h.2 ⟨slashPath, 7, 0⟩ rfl).2 slashPath 0).2
  have h7 : some 0 = some 7 := congrArg Prod.snd hopen
  cases h7

end SynapseKernel.Fs
