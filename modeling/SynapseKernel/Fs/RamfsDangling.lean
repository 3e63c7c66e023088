import SynapseKernel.Fs.RamfsCapacity
import SynapseKernel.Fs.RamfsRuns
import SynapseKernel.Lib.Runs

/-! # Dangling references of a RamFS

An inode stays allocated as long as an entry that the root leads to, or an open
file, refers to it. `ramfs_rmdir` breaks this for `.` and `..`, and so do both
ways to remove for what is open (`noDangling_of_safe`). A write that leaves its
buffer can put anything in the place of an entry, so the runs are those in which
every write fits. -/
namespace SynapseKernel.Fs
open SynapseKernel.Word SynapseKernel.Kheap SynapseKernel.Str SynapseKernel.Runs

/-- What may be asked for: work on live inodes and on open files. -/
def Lawful (m : Mount) : RamfsOp → Prop
  | .create parent _ _ | .mkdir parent _ | .rmdir parent _ | .unlink parent _ =>
    LiveInode m.fs parent
  | .openFile inode _ => LiveInode m.fs inode
  | .closeFile _ => True
  | .read file _ _ | .write file _ _ => file ∈ m.files

/-- Names and writes fit, and neither `.`, `..` nor what is open is removed. -/
def Safe (m : Mount) : RamfsOp → Prop
  | .create _ name _ | .mkdir _ name => name.bytes.length ≤ 255
  | .rmdir parent name => ∀ e, RmdirTarget m.fs parent name e →
    e ∉ m.fs.dots ∧ ∀ f ∈ m.files, f.inode ≠ (m.fs.entries e).inode
  | .unlink parent name => ∀ e, UnlinkTarget m.fs parent name e →
    ∀ f ∈ m.files, f.inode ≠ (m.fs.entries e).inode
  | .write file buf offset => (m.fs.inodes file.inode).type = .regular →
    WriteFits m.fs file.inode offset buf.length
  | _ => True

variable {m m' : Mount} {s : Ramfs} {d i : Nat} {q : Nat → List Nat} {role : Nat → Role}
  {op : RamfsOp}

/-- An inode that is linked all the way from the root. -/
inductive Attached (m : Mount) (q : Nat → List Nat) (role : Nat → Role) : Nat → Prop
  | root : Attached m q role m.root
  | child {d e : Nat} : Attached m q role d → e ∈ q d → ChildOk m.fs role d e →
    Attached m q role (m.fs.entries e).inode

theorem Attached.live (h : Whole m q role) (ha : Attached m q role i) : LiveInode m.fs i := by
  cases ha with
  | root => exact h.live
  | child _ _ hc => exact hc.live

/-- The parent of an attached inode is attached. -/
theorem Attached.parent (h : Whole m q role) (ha : Attached m q role i) {parent f : Nat}
    (hr : role i = .inode parent f) : Attached m q role parent := by
  cases ha with
  | root =>
    rw [h.root] at hr
    obtain ⟨rfl, -⟩ := Role.inode.inj hr
    exact .root
  | child hd _ hc =>
    rw [hc.linked] at hr
    obtain ⟨rfl, -⟩ := Role.inode.inj hr
    exact hd

/-- Whole, and what is open is live. -/
def WholeOpen (m : Mount) : Prop :=
  (∃ q role, Whole m q role) ∧ ∀ f ∈ m.files, LiveInode m.fs f.inode

/-- What is open is not freed by a safe step. -/
theorem Safe.not_frees {f : RamfsFile} (hs : Safe m op) (hf : f ∈ m.files) :
    ¬ Frees m.fs op f.inode := by
  cases op with
  | rmdir parent name =>
    intro ⟨e, ht, he⟩
    exact (hs e ht).2 f hf he.symm
  | unlink parent name =>
    intro ⟨e, ht, he⟩
    exact hs e ht f hf he.symm
  | create parent name type => exact id
  | mkdir parent name => exact id
  | openFile inode file => exact id
  | closeFile fd => exact id
  | read file count offset => exact id
  | write file buf offset => exact id

theorem Safe.sound (hs : Safe m op) (hl : Lawful m op) (ho : WholeOpen m) : Sound m.fs op := by
  cases op with
  | create parent name type => exact ⟨hl, hs⟩
  | mkdir parent name => exact ⟨hl, hs⟩
  | rmdir parent name => exact ⟨hl, fun e ht => (hs e ht).1⟩
  | unlink parent name => exact hl
  | openFile inode file => trivial
  | closeFile fd => trivial
  | read file count offset => trivial
  | write file buf offset => exact ho.2 file hl

/-- Every open file was open before or refers to an inode that is opened. -/
theorem files_step (h : ramfsStep m op = some m') {f : RamfsFile} (hf : f ∈ m'.files) :
    f ∈ m.files ∨ ∃ inode file, op = .openFile inode file ∧ f = ramfsOpen inode file := by
  have hmap : ∀ {α : Type} {r : Option (α × Ramfs)}, r.map m.set = some m' → f ∈ m.files := by
    intro α r hr
    obtain ⟨x, -, rfl⟩ := Option.map_eq_some_iff.mp hr
    exact hf
  cases op with
  | create parent name type =>
    rw [ramfsStep] at h
    split at h
    · exact .inl (hmap h)
    · cases h
  | mkdir parent name =>
    rw [ramfsStep] at h
    split at h
    · exact .inl (hmap h)
    · cases h
  | rmdir parent name => exact .inl (hmap h)
  | unlink parent name => exact .inl (hmap h)
  | openFile inode file =>
    cases h
    rcases List.mem_cons.mp hf with rfl | hf
    · exact .inr ⟨inode, file, rfl, rfl⟩
    · exact .inl hf
  | closeFile fd =>
    cases h
    exact .inl (List.mem_of_mem_eraseIdx hf)
  | read file count offset =>
    cases h
    exact .inl hf
  | write file buf offset =>
    cases h
    exact .inl hf

/-- **A safe step** keeps what is open allocated. -/
theorem WholeOpen.step (ho : WholeOpen m) (hl : Lawful m op) (hs : Safe m op) :
    Mounted WholeOpen (mountStep (some m) op) := by
  obtain ⟨q, role, h⟩ := ho.1
  obtain ⟨m', hstep, hc⟩ := h.step (hs.sound hl ho)
  refine ⟨m', hstep, hc.whole, fun f hf => ?_⟩
  rcases files_step hstep hf with hf | ⟨inode, file, rfl, rfl⟩
  · exact hc.live _ (ho.2 f hf) (hs.not_frees hf)
  · exact hc.live _ hl id

end SynapseKernel.Fs
