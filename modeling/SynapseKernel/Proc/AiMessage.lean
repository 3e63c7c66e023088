import SynapseKernel.Proc.Executor
import SynapseKernel.Str.Memory

/-! # Messages to the executor (kernel/executor.c)

A message is a string in memory. `parse_ai_action` looks for fixed patterns in
it and reads on from where they stand, by a fixed distance that can lead past
the string's end; what it reads there ends up in the pid or the reason and
nowhere else. Nothing happens to a task before the prompt is answered
(`executeAiAction_gated`). `atoi` is not in the source and is an argument. -/
namespace SynapseKernel.Proc
open SynapseKernel.Word SynapseKernel.ByteMemory SynapseKernel.Links SynapseKernel.Str
open SynapseKernel.Kheap

/-! ## parse_ai_action -/

/-- The literals of the four tests. -/
def typePattern : AiActionType → List UInt8
  | .kill => ascii ['"', 't', 'y', 'p', 'e', '"', ':', ' ', '"', 'k', 'i', 'l', 'l', '"']
  | .pause => ascii ['"', 't', 'y', 'p', 'e', '"', ':', ' ', '"', 'p', 'a', 'u', 's', 'e', '"']
  | .resume =>
    ascii ['"', 't', 'y', 'p', 'e', '"', ':', ' ', '"', 'r', 'e', 's', 'u', 'm', 'e', '"']
  | .alert => ascii ['"', 't', 'y', 'p', 'e', '"', ':', ' ', '"', 'a', 'l', 'e', 'r', 't', '"']

/-- The tests in the order they are made. -/
def typeTests : List AiActionType := [.kill, .pause, .resume, .alert]

/-- The chain of tests from `tests` on: `some none` is the `return -1`. -/
def firstType (m : Mem) (json : Nat) : List AiActionType → Option (Option AiActionType)
  | [] => some none
  | type :: tests =>
    match strstr m json (typePattern type) with
    | none => none
    | some (some _) => some (some type)
    | some none => firstType m json tests

/-- Where the value of a field begins: `distance` bytes on from its key and past
what is skipped, `some none` where there is no such key. -/
def fieldValue (m : Mem) (json : Nat) (key : List UInt8) (distance : Nat) (skipped : List UInt8) :
    Option (Option Nat) :=
  match strstr m json key with
  | none => none
  | some none => some none
  | some (some p) => (skip m skipped (p + distance)).map some

def parsePid (atoi : Mem → Nat → Nat) (m : Mem) (json : Nat) : Option Nat :=
  (fieldValue m json (ascii ['"', 'p', 'i', 'd', '"', ':']) 7 (ascii [' ', '\t', ':'])).map fun p =>
    match p with
    | none => 0
    | some p => u32 (atoi m p)

/-- The text copied into one of the two buffers of 256 bytes. -/
def parseText (m : Mem) (json : Nat) (key : List UInt8) (distance : Nat) : Option (List UInt8) :=
  (fieldValue m json key distance (ascii [' ', '\t', '"'])).map fun p =>
    match p with
    | none => []
    | some p => copyUntil m (byteOf '"') 255 p

def messageKey : List UInt8 := ascii ['"', 'm', 'e', 's', 's', 'a', 'g', 'e', '"', ':']

def reasonKey : List UInt8 := ascii ['"', 'r', 'e', 'a', 's', 'o', 'n', '"', ':']

/-- `some none` is the result `-1`, `none` a loop that does not end. A field
that is not found stays as `memset` left it. -/
def parseAiAction (atoi : Mem → Nat → Nat) (m : Mem) (json : Nat) : Option (Option AiAction) :=
  match firstType m json typeTests with
  | none => none
  | some none => some none
  | some (some .alert) =>
    (parseText m json messageKey 11).map fun message => some ⟨.alert, 0, [], message⟩
  | some (some type) =>
    (parsePid atoi m json).bind fun pid =>
      (parseText m json reasonKey 10).map fun reason => some ⟨type, pid, reason, []⟩

/-- `execute_ai_action`; `c` is what `vga_getc` returns. -/
def executeAiAction (atoi : Mem → Nat → Nat) (s : Sched) (m : Mem) (json : Nat) (c : Char)
    (cpu : RegsContext) : Option Sched :=
  match parseAiAction atoi m json with
  | none => none
  | some none => some s
  | some (some action) => executeAction s action c cpu

/-! ## Parsing ends -/

section Parse
variable {m : Mem} {json : Nat} {text : List UInt8} {atoi : Mem → Nat → Nat}

theorem firstType_isSome (hm : Holds m json text) (tests : List AiActionType) :
    ∃ r, firstType m json tests = some r := by
  induction tests with
  | nil => exact ⟨none, rfl⟩
  | cons type tests ih =>
    obtain ⟨r, hr⟩ := hm.strstr_isSome (typePattern type) json
    rw [firstType, hr]
    cases r with
    | none => exact ih
    | some p => exact ⟨some type, rfl⟩

theorem fieldValue_isSome (hm : Holds m json text) (key : List UInt8) (distance : Nat)
    (skipped : List UInt8) (h0 : 0 ∉ skipped) :
    ∃ r, fieldValue m json key distance skipped = some r := by
  obtain ⟨r, hr⟩ := hm.strstr_isSome key json
  rw [fieldValue, hr]
  cases r with
  | none => exact ⟨none, rfl⟩
  | some p =>
    obtain ⟨v, hv⟩ := hm.skip_isSome h0 (p + distance)
    exact ⟨some v, by simp only [hv, Option.map_some]⟩

theorem parsePid_isSome (hm : Holds m json text) (atoi : Mem → Nat → Nat) :
    ∃ r, parsePid atoi m json = some r := by
  obtain ⟨v, hv⟩ := fieldValue_isSome hm (ascii ['"', 'p', 'i', 'd', '"', ':']) 7
    (ascii [' ', '\t', ':']) (by decide)
  rw [parsePid, hv]
  exact ⟨_, rfl⟩

theorem parseText_isSome (hm : Holds m json text) (key : List UInt8) (distance : Nat) :
    ∃ r, parseText m json key distance = some r := by
  obtain ⟨v, hv⟩ := fieldValue_isSome hm key distance (ascii [' ', '\t', '"']) (by decide)
  rw [parseText, hv]
  exact ⟨_, rfl⟩

/-- Everything `parse_ai_action` can do. -/
theorem parseAiAction_cases (hm : Holds m json text) (atoi : Mem → Nat → Nat) :
    (firstType m json typeTests = some none ∧ parseAiAction atoi m json = some none) ∨
    ∃ type action, firstType m json typeTests = some (some type) ∧ action.type = type ∧
      parseAiAction atoi m json = some (some action) := by
  obtain ⟨r, hr⟩ := firstType_isSome hm typeTests
  obtain ⟨message, hmessage⟩ := parseText_isSome hm messageKey 11
  obtain ⟨pid, hpid⟩ := parsePid_isSome hm atoi
  obtain ⟨reason, hreason⟩ := parseText_isSome hm reasonKey 10
  rw [parseAiAction, hr]
  cases r with
  | none => exact .inl ⟨rfl, rfl⟩
  | some type =>
    right
    cases type with
    | alert => exact ⟨.alert, ⟨.alert, 0, [], message⟩, rfl, rfl, by simp only [hmessage]; rfl⟩
    | kill => exact ⟨.kill, ⟨.kill, pid, reason, []⟩, rfl, rfl, by simp only [hpid, hreason]; rfl⟩
    | pause =>
      exact ⟨.pause, ⟨.pause, pid, reason, []⟩, rfl, rfl, by simp only [hpid, hreason]; rfl⟩
    | resume =>
      exact ⟨.resume, ⟨.resume, pid, reason, []⟩, rfl, rfl, by simp only [hpid, hreason]; rfl⟩

end Parse

/-! ## What an answered prompt can do -/

section Gate
variable {s s' : Sched} {q : Nat → List Nat} {action : AiAction} {c : Char} {cpu : RegsContext}

/-- The ready queues are the lists `q` of tasks in blocks the heap has handed out. -/
structure AcyclicQueues (s : Sched) (q : Nat → List Nat) : Prop where
  list : ∀ p < maxPriority, IsList s.next (s.readyQueue p) (q p)
  handed : ∀ p < maxPriority, ∀ t ∈ q p, t ≤ s.heap.requests

/-- The tasks in the queues, lowest priority first. -/
def queuedTasks (q : Nat → List Nat) : List Nat := (List.range maxPriority).flatMap q

theorem SchedInv.acyclic (h : SchedInv s q) : AcyclicQueues s q :=
  ⟨fun p _ => h.list p, fun p _ t ht => (h.handed t (h.queued p t ht)).2⟩

/-- A confirmed action, up to one field of one record: the task exits, the
first queued task with the pid gets a state, or there is no such task. -/
inductive Acts (s : Sched) (q : Nat → List Nat) (action : AiAction) (cpu : RegsContext) :
    Sched → Prop
  | exit {s' : Sched} : action.type = .kill → (s.tcb s.currentTask).pid = action.pid →
      taskExit s cpu = some s' → Acts s q action cpu s'
  | state {pre post : List Nat} {t : Nat} {state : TaskState} :
      action.type.queuedState = some state → queuedTasks q = pre ++ t :: post →
      (s.tcb t).pid = action.pid →
      (∀ x ∈ pre, (s.tcb x).pid ≠ action.pid) →
      Acts s q action cpu
        { s with tcb := Function.update s.tcb t { s.tcb t with state := state } }
  | absent : (∀ x ∈ queuedTasks q, (s.tcb x).pid ≠ action.pid) → Acts s q action cpu s

/-- A walk over queues that end is a fold over their tasks. -/
theorem AcyclicQueues.walkQueues_eq {σ ρ : Type} {body : σ → Nat → Except ρ σ}
    (h : AcyclicQueues s q) {is : List Nat} (his : ∀ i ∈ is, i < maxPriority) (acc : σ) :
    walkQueues body s is acc = some ((is.flatMap q).foldlM body acc) := by
  refine Proc.walkQueues_eq (fun i hi => ?_) acc
  have hlist := h.list i (his i hi)
  refine ⟨hlist, BlockHeap.length_le hlist.nodup fun t ht => ?_⟩
  exact ⟨Nat.pos_of_ne_zero (hlist.ne_zero t ht), h.handed i (his i hi) t ht⟩

/-- The search by pid ends with the first queued task that has it. -/
theorem AcyclicQueues.setFoundState_acts (h : AcyclicQueues s q) (action : AiAction)
    {state : TaskState} (hstate : action.type.queuedState = some state) (cpu : RegsContext) :
    ∃ s', setFoundState s action.pid state = some s' ∧ Acts s q action cpu s' := by
  have hfind : findTask s action.pid =
      some ((queuedTasks q).foldlM (Search.search fun t => (s.tcb t).pid = action.pid) ()) :=
    h.walkQueues_eq (fun i hi => List.mem_range.mp hi) ()
  rw [setFoundState, hfind]
  rcases Search.foldlM_search (fun t => (s.tcb t).pid = action.pid) (queuedTasks q) with
    ⟨pre, t, post, hl, ht, hpre, hr⟩ | ⟨hno, hr⟩
  · rw [hr]
    exact ⟨_, rfl, .state hstate hl ht hpre⟩
  · rw [hr]
    exact ⟨s, rfl, .absent hno⟩

theorem executeAction_alert (htype : action.type = .alert) :
    executeAction s action c cpu = some s := by
  rw [executeAction, htype]

theorem executeAction_refused (hc : ¬ Confirms c) : executeAction s action c cpu = some s := by
  rw [executeAction]
  cases action.type with
  | alert => rfl
  | kill => exact if_neg hc
  | pause => exact if_neg hc
  | resume => exact if_neg hc

theorem executeAction_confirmed (h : AcyclicQueues s q) (h0 : s.currentTask ≠ 0)
    (hc : Confirms c) (htype : action.type ≠ .alert) (cpu : RegsContext) :
    ∃ s', executeAction s action c cpu = some s' ∧ Acts s q action cpu s' := by
  cases he : action.type with
  | alert => exact absurd he htype
  | kill =>
    simp only [executeAction, he, if_pos hc, if_neg h0]
    by_cases hpid : (s.tcb s.currentTask).pid = action.pid
    · have hexit : taskExit s cpu = some (schedule (releaseCurrent s) cpu) := if_neg h0
      rw [if_pos hpid]
      exact ⟨_, hexit, .exit he hpid hexit⟩
    · rw [if_neg hpid]
      exact h.setFoundState_acts action (by rw [he]; rfl) cpu
  | pause =>
    simp only [executeAction, he, if_pos hc]
    exact h.setFoundState_acts action (by rw [he]; rfl) cpu
  | resume =>
    simp only [executeAction, he, if_pos hc]
    exact h.setFoundState_acts action (by rw [he]; rfl) cpu

/-- **Human confirmation gates every action.** Whatever the message and whatever
lies behind it in memory, parsing and acting end. A message that does not
parse, an alert and an answer other than `y` or `Y` leave the scheduler as it
was; a confirmed action ends the current task or changes at most the state of
the first queued task with its pid. -/
theorem executeAiAction_gated {m : Mem} {json : Nat} {text : List UInt8}
    (hm : Holds m json text) (h : AcyclicQueues s q) (h0 : s.currentTask ≠ 0)
    (atoi : Mem → Nat → Nat) (c : Char) (cpu : RegsContext) :
    ∃ parsed s', parseAiAction atoi m json = some parsed ∧
      executeAiAction atoi s m json c cpu = some s' ∧
      (parsed = none → s' = s) ∧
      ∀ action, parsed = some action →
        (action.type = .alert ∨ ¬ Confirms c → s' = s) ∧
        (action.type ≠ .alert → Confirms c → Acts s q action cpu s') := by
  rcases parseAiAction_cases hm atoi with ⟨-, hp⟩ | ⟨type, action, -, -, hp⟩
  · refine ⟨none, s, hp, by rw [executeAiAction, hp], fun _ => rfl, fun action he => ?_⟩
    cases he
  · rw [executeAiAction, hp]
    by_cases hgo : action.type ≠ .alert ∧ Confirms c
    · obtain ⟨s', hs', hacts⟩ := executeAction_confirmed h h0 hgo.2 hgo.1 cpu
      refine ⟨some action, s', rfl, hs', fun he => (by cases he), fun a he => ?_⟩
      obtain rfl := Option.some.inj he
      exact ⟨fun hstop => absurd hgo (by tauto), fun _ _ => hacts⟩
    · have hsame : executeAction s action c cpu = some s := by
        by_cases htype : action.type = .alert
        · exact executeAction_alert htype
        · exact executeAction_refused fun hc => hgo ⟨htype, hc⟩
      refine ⟨some action, s, rfl, hsame, fun _ => rfl, fun a he => ?_⟩
      obtain rfl := Option.some.inj he
      exact ⟨fun _ => rfl, fun htype hc => absurd ⟨htype, hc⟩ hgo⟩

/-- A message that asks for the idle task to be killed, with the answer `n`. -/
theorem executeAiAction_gated_refused :
    executeAiAction (fun _ _ => 0) (schedInit (.boot grantingHeap 0 0))
      (place (typePattern .kill)) 0 'n' .zero = some (schedInit (.boot grantingHeap 0 0)) := by
  obtain ⟨q, hinv, -⟩ := Sound.schedInit sane_grantingHeap 0 0
  have hm : Holds (place (typePattern .kill)) 0 (typePattern .kill) := holds_place (by decide)
  obtain ⟨parsed, s', -, hs', hnone, hsome⟩ :=
    executeAiAction_gated hm hinv.acyclic (by decide) (fun _ _ => 0) 'n' .zero
  rw [hs']
  cases parsed with
  | none => rw [hnone rfl]
  | some action => rw [(hsome action rfl).1 (.inr (by decide))]

end Gate

end SynapseKernel.Proc
