import Mathlib.Tactic.IntervalCases
import SynapseKernel.Lib.ByteMemory
import SynapseKernel.Lib.Runs
import SynapseKernel.Lib.Word

/-! # The task manager daemon (sbin)

Once a second the daemon writes its list of processes anew and serves the request that
stands in a file. `SIGUSR1` makes it serve a request between any two assignments of the main
program. What `security_check` lets through depends on the list: only process 2 once the
list was written (`kills_eq_requests`), and before that process 0, which is the group of the
daemon itself (`kills_targets`). -/
namespace SynapseKernel.Taskmgrd
open SynapseKernel.Word SynapseKernel.ByteMemory SynapseKernel.Runs

/-! ## The list of processes -/

inductive ProcState
  | running | ready | blocked | zombie

structure ProcInfo where
  pid : Int
  state : ProcState
  name : List UInt8
  priority : Nat
  totalTime : Nat
  memoryUsage : Nat

structure SystemState where
  timestamp : Int
  numProcs : Nat
  procs : Nat → ProcInfo
  totalMemory : Nat
  freeMemory : Nat
  usedMemory : Nat

/-- A static variable. -/
def zeroState : SystemState where
  timestamp := 0
  numProcs := 0
  procs := fun _ => ⟨0, .running, [], 0, 0, 0⟩
  totalMemory := 0
  freeMemory := 0
  usedMemory := 0

/-- The assignments of `update_system_state`. -/
inductive Assignment
  | timestamp (time : Int)
  | numProcs (n : Nat)
  | name (i : Nat) (text : List UInt8)
  | pid (i : Nat) (pid : Int)
  | state (i : Nat) (state : ProcState)
  | priority (i n : Nat)
  | totalTime (i n : Nat)
  | memoryUsage (i n : Nat)
  | totalMemory (n : Nat)
  | freeMemory (n : Nat)
  | usedMemory (n : Nat)

def SystemState.setProc (s : SystemState) (i : Nat) (proc : ProcInfo) : SystemState :=
  { s with procs := Function.update s.procs i proc }

def SystemState.assign (s : SystemState) : Assignment → SystemState
  | .timestamp time => { s with timestamp := time }
  | .numProcs n => { s with numProcs := n }
  | .name i text => s.setProc i { s.procs i with name := text }
  | .pid i pid => s.setProc i { s.procs i with pid := pid }
  | .state i state => s.setProc i { s.procs i with state := state }
  | .priority i n => s.setProc i { s.procs i with priority := n }
  | .totalTime i n => s.setProc i { s.procs i with totalTime := n }
  | .memoryUsage i n => s.setProc i { s.procs i with memoryUsage := n }
  | .totalMemory n => { s with totalMemory := n }
  | .freeMemory n => { s with freeMemory := n }
  | .usedMemory n => { s with usedMemory := n }

/-- What `update_system_state` does, in order, with what `time` and `getpid` return. -/
def updateSystemState (getpid time : Int) : List Assignment :=
  [.timestamp time, .numProcs 3,
    .name 0 (ascii ['i', 'n', 'i', 't']), .pid 0 1, .state 0 .running, .priority 0 10,
    .totalTime 0 100, .memoryUsage 0 4096,
    .name 1 (ascii ['s', 'y', 's', 'l', 'o', 'g', 'd']), .pid 1 2, .state 1 .running,
    .priority 1 8, .totalTime 1 50, .memoryUsage 1 2048,
    .name 2 (ascii ['t', 'a', 's', 'k', 'm', 'g', 'r', 'd']), .pid 2 getpid, .state 2 .running,
    .priority 2 8, .totalTime 2 30, .memoryUsage 2 2048,
    .totalMemory 32768, .freeMemory 24576, .usedMemory 8192]

/-! ## Requests -/

abbrev aiActionKill : Int := 1
abbrev aiActionPause : Int := 2
abbrev aiActionResume : Int := 3
abbrev aiActionInfo : Int := 4

structure AiActionRequest where
  action : Int
  pid : Int
  reason : List UInt8

/-- `sizeof(ai_action_request_t)`, with the result at the end. -/
abbrev requestSize : Nat := 140

def decodeRequest (bytes : List UInt8) : AiActionRequest where
  action := s32 (readLE (fun i => bytes.getD i 0) 0 4)
  pid := s32 (readLE (fun i => bytes.getD i 0) 4 4)
  reason := (bytes.drop 8).take 128

inductive KillSignal
  | sigkill | sigstop | sigcont
  deriving DecidableEq

/-- What `execute_ai_action` returns, which is the result of `kill` where it is called. -/
inductive ActionResult
  | value (n : Int)
  | kill (pid : Int) (signal : KillSignal)

def isListed (system : SystemState) (pid : Int) : Bool :=
  (List.range system.numProcs).any fun i => (system.procs i).pid = pid

def securityCheck (getpid : Int) (system : SystemState) (req : AiActionRequest) : Int :=
  if req.pid = 1 then -1
  else if req.pid = getpid then -1
  else if isListed system req.pid = false then -1
  else if req.action < aiActionKill ∨ req.action > aiActionInfo then -1
  else 0

def executeAiAction (getpid : Int) (system : SystemState) (req : AiActionRequest) : ActionResult :=
  if securityCheck getpid system req < 0 then .value (-1)
  else if req.action = aiActionKill then .kill req.pid .sigkill
  else if req.action = aiActionPause then .kill req.pid .sigstop
  else if req.action = aiActionResume then .kill req.pid .sigcont
  else if req.action = aiActionInfo then .value 0
  else .value (-1)

/-! ## The daemon -/

/-- What the main program does next: `open` of the file before the loop, the assignments
that are left of the update, or the request of the round. -/
inductive Control
  | starting
  | updating (rest : List Assignment)
  | serving
  | stopped

/-- The calls of `kill`, the last one first, are not in the source. -/
structure Daemon where
  running : Bool
  system : SystemState
  control : Control
  kills : List (Int × KillSignal)

/-- The signal handlers are installed. -/
def started : Daemon := ⟨true, zeroState, .starting, []⟩

/-- `file` is what stands in the file, if it can be opened. A signal to process 0 goes to the
daemon as well, and `SIGKILL` ends it. -/
def handleAiRequests (getpid : Int) (d : Daemon) (file : Option (List UInt8)) : Daemon :=
  match file with
  | none => d
  | some bytes =>
    let req := bytes.take requestSize
    if req.length ≠ requestSize then d
    else
      match executeAiAction getpid d.system (decodeRequest req) with
      | .value _ => d
      | .kill pid signal =>
        { d with
          kills := (pid, signal) :: d.kills
          control := if pid = 0 ∧ signal = .sigkill then .stopped else d.control }

/-- The test of the loop. -/
def loopHead (getpid time : Int) (d : Daemon) : Daemon :=
  match d.control with
  | .stopped => d
  | _ =>
    { d with control := if d.running then .updating (updateSystemState getpid time) else .stopped }

/-- A step of the main program. When the update is done the list is printed. -/
def mainStep (getpid time : Int) (file : Option (List UInt8)) (d : Daemon) : Daemon :=
  match d.control with
  | .starting => if file.isNone then { d with control := .stopped } else loopHead getpid time d
  | .updating [] => { d with control := .serving }
  | .updating (a :: rest) => { d with system := d.system.assign a, control := .updating rest }
  | .serving => loopHead getpid time (handleAiRequests getpid d file)
  | .stopped => d

inductive Event
  | main (time : Int) (file : Option (List UInt8))
  | sigusr1 (file : Option (List UInt8))
  | sigterm

def next (getpid : Int) (d : Daemon) : Event → Daemon
  | .main time file => mainStep getpid time file d
  | .sigusr1 file =>
    match d.control with
    | .stopped => d
    | _ => handleAiRequests getpid d file
  | .sigterm =>
    match d.control with
    | .stopped => d
    | _ => { d with running := false }

def run (getpid : Int) (d : Daemon) (events : List Event) : Daemon := events.foldl (next getpid) d

variable {getpid time : Int} {system : SystemState} {req : AiActionRequest} {d : Daemon}
  {file : Option (List UInt8)} {events : List Event} {k m : Nat}

/-! ## What a request does -/

def signalOf (action : Int) : Option KillSignal :=
  if action = aiActionKill then some .sigkill
  else if action = aiActionPause then some .sigstop
  else if action = aiActionResume then some .sigcont
  else none

/-- The check lets a request through. -/
structure Passes (getpid : Int) (system : SystemState) (pid : Int) : Prop where
  not_init : pid ≠ 1
  not_self : pid ≠ getpid
  listed : isListed system pid = true

theorem action_of_signalOf {action : Int} {signal : KillSignal}
    (h : signalOf action = some signal) : action = match signal with
      | .sigkill => aiActionKill
      | .sigstop => aiActionPause
      | .sigcont => aiActionResume := by
  rw [signalOf] at h
  split at h
  · cases h
    assumption
  · split at h
    · cases h
      assumption
    · split at h
      · cases h
        assumption
      · cases h

/-- A request that the check lets through is carried out. -/
theorem executeAiAction_kill {signal : KillSignal} (hp : Passes getpid system req.pid)
    (ha : signalOf req.action = some signal) :
    executeAiAction getpid system req = .kill req.pid signal := by
  have hlisted : ¬ isListed system req.pid = false := Bool.not_eq_false _ ▸ hp.listed
  have haction := action_of_signalOf ha
  have hcheck : securityCheck getpid system req = 0 := by
    rw [securityCheck, if_neg hp.not_init, if_neg hp.not_self, if_neg hlisted, haction]
    cases signal with
    | sigkill => rfl
    | sigstop => rfl
    | sigcont => rfl
  rw [executeAiAction, hcheck, haction]
  cases signal with
  | sigkill => rfl
  | sigstop => rfl
  | sigcont => rfl

/-- Any other is not. -/
theorem executeAiAction_value
    (h : ¬ (Passes getpid system req.pid ∧ signalOf req.action ≠ none)) :
    ∃ n, executeAiAction getpid system req = .value n := by
  rw [executeAiAction]
  split
  · exact ⟨_, rfl⟩
  · rename_i hcheck
    have hpasses : Passes getpid system req.pid := by
      rw [securityCheck] at hcheck
      split at hcheck
      · exact absurd (by decide) hcheck
      · split at hcheck
        · exact absurd (by decide) hcheck
        · split at hcheck
          · exact absurd (by decide) hcheck
          · rename_i hinit hself hlisted
            exact ⟨hinit, hself, Bool.eq_true_of_not_eq_false hlisted⟩
    have hnone : signalOf req.action = none := not_not.mp fun hs => h ⟨hpasses, hs⟩
    rw [signalOf] at hnone
    split at hnone
    · cases hnone
    · split at hnone
      · cases hnone
      · split at hnone
        · cases hnone
        · rename_i hkill hpause hresume
          rw [if_neg hkill, if_neg hpause, if_neg hresume]
          split
          · exact ⟨_, rfl⟩
          · exact ⟨_, rfl⟩

/-- The call of `kill` that the file asks for. -/
def requested (file : Option (List UInt8)) : Option (Int × KillSignal) :=
  match file with
  | none => none
  | some bytes =>
    let req := bytes.take requestSize
    if req.length ≠ requestSize then none
    else (signalOf (decodeRequest req).action).map fun signal => ((decodeRequest req).pid, signal)

/-- Everything that a request can do. -/
theorem handleAiRequests_cases (getpid : Int) (d : Daemon) (file : Option (List UInt8)) :
    (∃ pid signal, requested file = some (pid, signal) ∧ Passes getpid d.system pid ∧
      handleAiRequests getpid d file =
        { d with
          kills := (pid, signal) :: d.kills
          control := if pid = 0 ∧ signal = .sigkill then .stopped else d.control }) ∨
    ((∀ pid signal, requested file = some (pid, signal) → ¬ Passes getpid d.system pid) ∧
      handleAiRequests getpid d file = d) := by
  cases file with
  | none => exact .inr ⟨fun _ _ h => (nomatch h), rfl⟩
  | some bytes =>
    by_cases hlen : (bytes.take requestSize).length ≠ requestSize
    · refine .inr ⟨fun pid signal h => ?_, if_pos hlen⟩
      rw [requested] at h
      simp only [if_pos hlen] at h
      cases h
    · have hreq : requested (some bytes) =
          (signalOf (decodeRequest (bytes.take requestSize)).action).map
            fun signal => ((decodeRequest (bytes.take requestSize)).pid, signal) := if_neg hlen
      by_cases hcall : Passes getpid d.system (decodeRequest (bytes.take requestSize)).pid ∧
          signalOf (decodeRequest (bytes.take requestSize)).action ≠ none
      · obtain ⟨hp, ha⟩ := hcall
        obtain ⟨signal, ha⟩ := Option.ne_none_iff_exists'.mp ha
        refine .inl ⟨_, signal, by rw [hreq, ha]; rfl, hp, ?_⟩
        simp only [handleAiRequests, if_neg hlen, executeAiAction_kill hp ha]
      · obtain ⟨n, hn⟩ := executeAiAction_value hcall
        refine .inr ⟨fun pid signal h hp => ?_, ?_⟩
        · rw [hreq] at h
          obtain ⟨signal', ha, he⟩ := Option.map_eq_some_iff.mp h
          obtain ⟨rfl, -⟩ := Prod.mk.inj he
          exact hcall ⟨hp, ha ▸ Option.some_ne_none _⟩
        · simp only [handleAiRequests, if_neg hlen, hn]

/-! ## The list while it is written -/

/-- The processes of a list that is written. -/
def pidOf (getpid : Int) : Nat → Int
  | 0 => 1
  | 1 => 2
  | _ => getpid

/-- The list was written. -/
structure Complete (getpid : Int) (system : SystemState) : Prop where
  count : system.numProcs = 3
  pids : ∀ i < 3, (system.procs i).pid = pidOf getpid i

/-- It was written in part, or not at all. -/
structure Begun (getpid : Int) (system : SystemState) : Prop where
  count : system.numProcs ≤ 3
  pids : ∀ i < 3, (system.procs i).pid = 0 ∨ (system.procs i).pid = pidOf getpid i

/-- An assignment of `update_system_state` to what the check looks at. -/
def Assignment.Writes (getpid : Int) : Assignment → Prop
  | .numProcs n => n = 3
  | .pid i p => p = pidOf getpid i
  | _ => True

theorem writes_of_mem {a : Assignment} (h : a ∈ updateSystemState getpid time) :
    a.Writes getpid := by
  simp only [updateSystemState, List.mem_cons, List.not_mem_nil, or_false] at h
  rcases h with rfl | rfl | rfl | rfl | rfl | rfl | rfl | rfl | rfl | rfl | rfl | rfl | rfl | rfl |
    rfl | rfl | rfl | rfl | rfl | rfl | rfl | rfl | rfl
  all_goals trivial

@[simp] theorem procs_setProc (system : SystemState) (i : Nat) (proc : ProcInfo) :
    (system.setProc i proc).procs = Function.update system.procs i proc := rfl

/-- Only an assignment to a pid changes a pid. -/
theorem assign_pid (system : SystemState) (a : Assignment) (i : Nat) :
    ((system.assign a).procs i).pid = (system.procs i).pid ∨
      ∃ pid, a = .pid i pid ∧ ((system.assign a).procs i).pid = pid := by
  have hset : ∀ (j : Nat) (proc : ProcInfo), proc.pid = (system.procs j).pid →
      ((system.setProc j proc).procs i).pid = (system.procs i).pid := by
    intro j proc hproc
    rw [procs_setProc]
    by_cases hij : i = j
    · subst hij
      rw [Function.update_self, hproc]
    · rw [Function.update_of_ne hij]
  cases a with
  | pid j pid =>
    by_cases hij : i = j
    · subst hij
      exact .inr ⟨pid, rfl, by rw [SystemState.assign, procs_setProc, Function.update_self]⟩
    · exact .inl (by rw [SystemState.assign, procs_setProc, Function.update_of_ne hij])
  | name j _ => exact .inl (hset j _ rfl)
  | state j _ => exact .inl (hset j _ rfl)
  | priority j _ => exact .inl (hset j _ rfl)
  | totalTime j _ => exact .inl (hset j _ rfl)
  | memoryUsage j _ => exact .inl (hset j _ rfl)
  | timestamp _ => exact .inl rfl
  | numProcs _ => exact .inl rfl
  | totalMemory _ => exact .inl rfl
  | freeMemory _ => exact .inl rfl
  | usedMemory _ => exact .inl rfl

theorem assign_numProcs {a : Assignment} (ha : a.Writes getpid) (system : SystemState) :
    (system.assign a).numProcs = system.numProcs ∨ (system.assign a).numProcs = 3 := by
  cases a with
  | numProcs n => exact .inr ha
  | _ => exact .inl rfl

theorem Begun.assign (h : Begun getpid system) {a : Assignment} (ha : a.Writes getpid) :
    Begun getpid (system.assign a) := by
  refine ⟨?_, fun i hi => ?_⟩
  · rcases assign_numProcs ha system with hn | hn
    · exact hn ▸ h.count
    · exact hn.le
  · rcases assign_pid system a i with hp | ⟨pid, rfl, hp⟩
    · exact hp ▸ h.pids i hi
    · exact .inr (hp.trans ha)

theorem Complete.assign (h : Complete getpid system) {a : Assignment} (ha : a.Writes getpid) :
    Complete getpid (system.assign a) := by
  refine ⟨?_, fun i hi => ?_⟩
  · rcases assign_numProcs ha system with hn | hn
    · exact hn.trans h.count
    · exact hn
  · rcases assign_pid system a i with hp | ⟨pid, rfl, hp⟩
    · exact hp.trans (h.pids i hi)
    · exact hp.trans ha

theorem isListed_iff {pid : Int} :
    isListed system pid = true ↔ ∃ i < system.numProcs, (system.procs i).pid = pid := by
  simp only [isListed, List.any_eq_true, List.mem_range, decide_eq_true_eq]

/-- A list that was written in part lets process 2 and process 0 through. -/
theorem Begun.passes (h : Begun getpid system) {pid : Int} (hp : Passes getpid system pid) :
    pid = 0 ∨ (pid = 2 ∧ getpid ≠ 2) := by
  obtain ⟨i, hi, rfl⟩ := isListed_iff.mp hp.listed
  have hi3 := Nat.lt_of_lt_of_le hi h.count
  rcases h.pids i hi3 with h0 | hpid
  · exact .inl h0
  · have hinit := hp.not_init
    have hself := hp.not_self
    rw [hpid] at hinit hself ⊢
    match i, hi3 with
    | 0, _ => exact absurd rfl hinit
    | 1, _ => exact .inr ⟨rfl, hself.symm⟩
    | 2, _ => exact absurd rfl hself

/-- A list that was written lets process 2 through. -/
theorem Complete.passes_iff (h : Complete getpid system) {pid : Int} :
    Passes getpid system pid ↔ pid = 2 ∧ getpid ≠ 2 := by
  constructor
  · intro hp
    obtain ⟨i, hi, rfl⟩ := isListed_iff.mp hp.listed
    rw [h.count] at hi
    have hinit := hp.not_init
    have hself := hp.not_self
    rw [h.pids i hi] at hinit hself ⊢
    match i, hi with
    | 0, _ => exact absurd rfl hinit
    | 1, _ => exact ⟨rfl, hself.symm⟩
    | 2, _ => exact absurd rfl hself
  · rintro ⟨rfl, hne⟩
    refine ⟨by decide, hne.symm, isListed_iff.mpr ⟨1, ?_, h.pids 1 (by decide)⟩⟩
    exact h.count ▸ (by decide)

/-! ## How far the main program is -/

def Event.isMain : Event → Bool
  | .main _ _ => true
  | _ => false

def mainSteps (events : List Event) : Nat := events.countP Event.isMain

/-- The daemon after `m` steps of the main program: the first of them opens the file, then the
list is written for the first time. -/
inductive Stage (getpid : Int) (m : Nat) (d : Daemon) : Prop
  | stopped : d.control = .stopped → Stage getpid m d
  | starting : m = 0 → d.control = .starting → d.system = zeroState → Stage getpid m d
  | first (time : Int) (k : Nat) : m = k + 1 → k ≤ 23 →
    d.control = .updating ((updateSystemState getpid time).drop k) →
    d.system = ((updateSystemState getpid time).take k).foldl SystemState.assign zeroState →
    Stage getpid m d
  | later : 24 < m → Complete getpid d.system →
    (∀ rest, d.control = .updating rest → ∀ a ∈ rest, a.Writes getpid) → Stage getpid m d

theorem Stage.same {d' : Daemon} (h : Stage getpid m d) (hs : d'.system = d.system)
    (hc : d'.control = d.control) : Stage getpid m d' := by
  cases h with
  | stopped h => exact .stopped (hc.trans h)
  | starting hm h hz => exact .starting hm (hc.trans h) (hs.trans hz)
  | first time k hm hk h hf => exact .first time k hm hk (hc.trans h) (hs.trans hf)
  | later hm h hrest => exact .later hm (hs ▸ h) fun rest he => hrest rest (hc.symm.trans he)

theorem handleAiRequests_frame (getpid : Int) (d : Daemon) (file : Option (List UInt8)) :
    (handleAiRequests getpid d file).system = d.system ∧
      ((handleAiRequests getpid d file).control = d.control ∨
        (handleAiRequests getpid d file).control = .stopped) := by
  rcases handleAiRequests_cases getpid d file with ⟨pid, signal, -, -, he⟩ | ⟨-, he⟩
  · rw [he]
    refine ⟨rfl, ?_⟩
    by_cases hgroup : pid = 0 ∧ signal = .sigkill
    · exact .inr (if_pos hgroup)
    · exact .inl (if_neg hgroup)
  · rw [he]
    exact ⟨rfl, .inl rfl⟩

theorem Stage.handle (h : Stage getpid m d) (file : Option (List UInt8)) :
    Stage getpid m (handleAiRequests getpid d file) := by
  obtain ⟨hs, hc | hc⟩ := handleAiRequests_frame getpid d file
  · exact h.same hs hc
  · exact .stopped hc

theorem complete_update (getpid time : Int) :
    Complete getpid ((updateSystemState getpid time).foldl SystemState.assign zeroState) := by
  refine ⟨rfl, fun i hi => ?_⟩
  match i, hi with
  | 0, _ => rfl
  | 1, _ => rfl
  | 2, _ => rfl

/-- A round begins, or the loop ends. -/
theorem loopHead_cases (getpid time : Int) (d : Daemon) :
    (loopHead getpid time d).system = d.system ∧
      ((loopHead getpid time d).control = .stopped ∨
        (loopHead getpid time d).control = .updating (updateSystemState getpid time)) := by
  rw [loopHead]
  split
  · exact ⟨rfl, .inl (by assumption)⟩
  · refine ⟨rfl, ?_⟩
    cases hr : d.running with
    | false => exact .inl rfl
    | true => exact .inr rfl

theorem Stage.loop (hm : 24 < m) (h : Complete getpid d.system) (time : Int) :
    Stage getpid m (loopHead getpid time d) := by
  obtain ⟨hs, hstop | hup⟩ := loopHead_cases getpid time d
  · exact .stopped hstop
  · refine .later hm (hs ▸ h) fun rest he a ha => ?_
    cases hup.symm.trans he
    exact writes_of_mem ha

theorem Stage.main (h : Stage getpid m d) (time : Int) (file : Option (List UInt8)) :
    Stage getpid (m + 1) (mainStep getpid time file d) := by
  cases h with
  | stopped hc =>
    refine .stopped ?_
    rw [mainStep, hc]
    exact hc
  | starting hm hc hz =>
    rw [mainStep, hc]
    dsimp only
    split
    · exact .stopped rfl
    · obtain ⟨hs, hstop | hup⟩ := loopHead_cases getpid time d
      · exact .stopped hstop
      · exact .first time 0 (by omega) (Nat.zero_le _) hup (hs.trans hz)
  | first time k hm hk hc hs =>
    have hlen : (updateSystemState getpid time).length = 23 := rfl
    rcases Nat.lt_or_eq_of_le hk with hlt | rfl
    · have hdrop := List.drop_eq_getElem_cons (hlen ▸ hlt)
      rw [mainStep, hc, hdrop]
      refine .first time (k + 1) (by omega) hlt rfl ?_
      rw [List.take_succ_eq_append_getElem (hlen ▸ hlt), List.foldl_append, ← hs]
      rfl
    · rw [mainStep, hc]
      refine .later (by omega) ?_ fun rest he => nomatch he
      rw [List.take_of_length_le (Nat.le_of_eq hlen)] at hs
      exact hs ▸ complete_update getpid time
  | later hm hcomplete hrest =>
    rw [mainStep]
    split
    · split
      · exact .stopped rfl
      · exact .loop (by omega) hcomplete time
    · exact .later (by omega) hcomplete fun rest he => nomatch he
    · rename_i a rest hc
      refine .later (by omega) (hcomplete.assign (hrest _ hc a List.mem_cons_self)) ?_
      intro rest' he b hb
      cases he
      exact hrest _ hc b (List.mem_cons_of_mem a hb)
    · have hs := (handleAiRequests_frame getpid d file).1
      exact .loop (by omega) (hs ▸ hcomplete) time
    · exact .stopped (by assumption)

/-- What holds in every run. -/
structure DaemonInv (getpid : Int) (m : Nat) (d : Daemon) : Prop where
  stage : Stage getpid m d
  listing : Begun getpid d.system
  kills : ∀ call ∈ d.kills, call.1 = 0 ∨ (call.1 = 2 ∧ getpid ≠ 2)

theorem Stage.writes (h : Stage getpid m d) {rest : List Assignment}
    (hc : d.control = .updating rest) : ∀ a ∈ rest, a.Writes getpid := by
  cases h with
  | stopped he => cases he.symm.trans hc
  | starting _ he _ => cases he.symm.trans hc
  | first time k _ _ he _ =>
    cases he.symm.trans hc
    exact fun a ha => writes_of_mem (List.mem_of_mem_drop ha)
  | later _ _ hrest => exact hrest rest hc

theorem daemonInv_started (getpid : Int) : DaemonInv getpid 0 started where
  stage := .starting rfl rfl rfl
  listing := ⟨Nat.zero_le _, fun _ _ => .inl rfl⟩
  kills := fun _ h => nomatch h

theorem DaemonInv.handle (h : DaemonInv getpid m d) (file : Option (List UInt8)) :
    DaemonInv getpid m (handleAiRequests getpid d file) := by
  refine ⟨h.stage.handle file, (handleAiRequests_frame getpid d file).1 ▸ h.listing, ?_⟩
  rcases handleAiRequests_cases getpid d file with ⟨pid, signal, -, hp, he⟩ | ⟨-, he⟩
  · rw [he]
    exact List.forall_mem_cons.mpr ⟨h.listing.passes hp, h.kills⟩
  · rw [he]
    exact h.kills

theorem loopHead_kills (getpid time : Int) (d : Daemon) :
    (loopHead getpid time d).kills = d.kills := by
  rw [loopHead]
  split
  · rfl
  · rfl

theorem DaemonInv.main (h : DaemonInv getpid m d) (time : Int) (file : Option (List UInt8)) :
    DaemonInv getpid (m + 1) (mainStep getpid time file d) := by
  have hstage := h.stage.main time file
  have hloop : ∀ d' : Daemon, Begun getpid d'.system →
      Begun getpid (loopHead getpid time d').system := fun d' hd =>
    (loopHead_cases getpid time d').1 ▸ hd
  refine ⟨hstage, ?_, ?_⟩
  · rw [mainStep]
    split
    · split
      · exact h.listing
      · exact hloop d h.listing
    · exact h.listing
    · rename_i a rest hc
      exact h.listing.assign (h.stage.writes hc a List.mem_cons_self)
    · exact hloop _ (h.handle file).listing
    · exact h.listing
  · rw [mainStep]
    split
    · split
      · exact h.kills
      · rw [loopHead_kills]
        exact h.kills
    · exact h.kills
    · exact h.kills
    · rw [loopHead_kills]
      exact (h.handle file).kills
    · exact h.kills

theorem DaemonInv.step (h : DaemonInv getpid m d) (event : Event) :
    DaemonInv getpid (m + if event.isMain then 1 else 0) (next getpid d event) := by
  cases event with
  | main time file => exact h.main time file
  | sigusr1 file =>
    change DaemonInv getpid m _
    rw [next]
    split
    · exact h
    · exact h.handle file
  | sigterm =>
    change DaemonInv getpid m _
    rw [next]
    split
    · exact h
    · exact ⟨h.stage.same rfl rfl, h.listing, h.kills⟩

theorem DaemonInv.run (h : DaemonInv getpid m d) (events : List Event) :
    DaemonInv getpid (m + mainSteps events) (run getpid d events) := by
  induction events generalizing m d with
  | nil => exact h
  | cons event events ih =>
    have hrest := ih (h.step event)
    rw [Nat.add_assoc, Nat.add_comm (ite _ _ _)] at hrest
    rw [mainSteps, List.countP_cons]
    exact hrest

theorem run_append (getpid : Int) (d : Daemon) (pre post : List Event) :
    run getpid d (pre ++ post) = run getpid (run getpid d pre) post := List.foldl_append

/-- **Nothing is ever sent to the first process or to the pid of the daemon**, whatever signals
come when: every call of `kill` is for process 2, or for process 0. -/
theorem kills_targets (getpid : Int) (events : List Event) :
    ∀ call ∈ (run getpid started events).kills, call.1 = 0 ∨ (call.1 = 2 ∧ getpid ≠ 2) :=
  ((daemonInv_started getpid).run events).kills

set_option maxRecDepth 4000 in
/-- A request for process 0 while the list is written. -/
theorem kills_targets_group :
    ∃ call ∈ (run 3 started (List.replicate 3 (.main 0 (some [])) ++
        [.sigusr1 (some ([1, 0, 0, 0, 0, 0, 0, 0] ++ List.replicate 132 0))])).kills,
      call.1 = 0 ∨ (call.1 = 2 ∧ (3 : Int) ≠ 2) := by
  have hkills : (run 3 started (List.replicate 3 (.main 0 (some [])) ++
      [.sigusr1 (some ([1, 0, 0, 0, 0, 0, 0, 0] ++ List.replicate 132 0))])).kills =
        [(0, .sigkill)] := rfl
  have hcall := hkills.symm ▸ List.mem_singleton_self ((0 : Int), KillSignal.sigkill)
  exact ⟨(0, .sigkill), hcall, kills_targets 3 _ _ hcall⟩

/-! ## Requests when the list is written -/

/-- The bytes that a step serves, if it serves a request. -/
def served (d : Daemon) : Event → Option (List UInt8)
  | .main _ file =>
    match d.control with
    | .serving => file
    | _ => none
  | .sigusr1 file =>
    match d.control with
    | .stopped => none
    | _ => file
  | .sigterm => none

/-- The call for a request for process 2. -/
def syslogdCall (getpid : Int) (file : Option (List UInt8)) : Option (Int × KillSignal) :=
  (requested file).filter fun call => call.1 = 2 ∧ getpid ≠ 2

theorem Complete.handle (h : Complete getpid d.system) (file : Option (List UInt8)) :
    handleAiRequests getpid d file =
      { d with kills := (syslogdCall getpid file).toList ++ d.kills } := by
  rcases handleAiRequests_cases getpid d file with ⟨pid, signal, hreq, hp, he⟩ | ⟨hno, he⟩
  · have htwo := h.passes_iff.mp hp
    have hcall : syslogdCall getpid file = some (pid, signal) := by
      rw [syslogdCall, hreq, Option.filter_some, if_pos (decide_eq_true htwo)]
    have hgroup : ¬ (pid = 0 ∧ signal = .sigkill) := by
      rintro ⟨rfl, -⟩
      exact absurd htwo.1 (by decide)
    rw [he, hcall, if_neg hgroup]
    rfl
  · have hcall : syslogdCall getpid file = none := by
      rw [syslogdCall, Option.filter_eq_none_iff]
      intro call hreq hp
      exact hno call.1 call.2 hreq (h.passes_iff.mpr (of_decide_eq_true hp))
    rw [he, hcall]
    rfl

theorem next_kills (hc : Complete getpid d.system) (event : Event) :
    (next getpid d event).kills = (syslogdCall getpid (served d event)).toList ++ d.kills := by
  cases event with
  | main time file =>
    cases hd : d.control with
    | starting =>
      simp only [next, mainStep, served, hd]
      split
      · rfl
      · exact loopHead_kills getpid time d
    | updating rest =>
      cases rest with
      | nil =>
        simp only [next, mainStep, served, hd]
        rfl
      | cons a rest =>
        simp only [next, mainStep, served, hd]
        rfl
    | serving =>
      simp only [next, mainStep, served, hd]
      rw [loopHead_kills, hc.handle]
    | stopped =>
      simp only [next, mainStep, served, hd]
      rfl
  | sigusr1 file =>
    rw [next, served]
    split
    · rfl
    · rw [hc.handle]
  | sigterm =>
    rw [next]
    split
    · rfl
    · rfl

/-- What is written stays written. -/
theorem Stage.complete_next (h : Stage getpid m d) (hc : Complete getpid d.system)
    (event : Event) : Complete getpid (next getpid d event).system := by
  cases event with
  | main time file =>
    rw [next, mainStep]
    split
    · split
      · exact hc
      · exact (loopHead_cases getpid time d).1 ▸ hc
    · exact hc
    · rename_i a rest hd
      exact hc.assign (h.writes hd a List.mem_cons_self)
    · rw [(loopHead_cases getpid time _).1, (handleAiRequests_frame getpid d file).1]
      exact hc
    · exact hc
  | sigusr1 file =>
    rw [next]
    split
    · exact hc
    · exact (handleAiRequests_frame getpid d file).1 ▸ hc
  | sigterm =>
    rw [next]
    split
    · exact hc
    · exact hc

theorem Stage.complete (h : Stage getpid m d) (hd : d.control = .serving) :
    Complete getpid d.system := by
  cases h with
  | stopped he => cases he.symm.trans hd
  | starting _ he _ => cases he.symm.trans hd
  | first _ _ _ _ he _ => cases he.symm.trans hd
  | later _ hc _ => exact hc

theorem DaemonInv.run_kills (h : DaemonInv getpid m d) (hc : Complete getpid d.system)
    (events : List Event) :
    (Taskmgrd.run getpid d events).kills =
      ((outs (next getpid) served d events).filterMap (syslogdCall getpid)).reverse ++
        d.kills := by
  induction events generalizing m d with
  | nil => rfl
  | cons event events ih =>
    have hrest := ih (h.step event) (h.stage.complete_next hc event)
    have hone : (syslogdCall getpid (served d event)).toList.reverse =
        (syslogdCall getpid (served d event)).toList := by
      cases syslogdCall getpid (served d event) with
      | none => rfl
      | some call => rfl
    rw [Taskmgrd.run, List.foldl_cons]
    refine hrest.trans ?_
    rw [next_kills hc, outs, List.filterMap_cons, ← List.append_assoc]
    congr 1
    cases syslogdCall getpid (served d event) with
    | none => exact List.append_nil _
    | some call => exact (List.reverse_cons).symm

/-- **Once the list was written** the calls of `kill` are the requests for process 2, in
order and as often as they are served. Nothing takes a request out of the file, so that it is
served again in the next round. -/
theorem kills_eq_requests (getpid : Int) (before events : List Event)
    (h : (run getpid started before).control = .serving) :
    (run getpid started (before ++ events)).kills =
      ((outs (next getpid) served (run getpid started before) events).filterMap
        (syslogdCall getpid)).reverse ++ (run getpid started before).kills := by
  have hinv := (daemonInv_started getpid).run before
  rw [run_append]
  exact hinv.run_kills (hinv.stage.complete h) events

/-- A request of this action for this process, without a reason. -/
def requestBytes (action pid : UInt8) : List UInt8 :=
  [action, 0, 0, 0, pid, 0, 0, 0] ++ List.replicate 132 0

/-- The steps up to the first request of the main program. -/
def firstRound : List Event := List.replicate 25 (.main 0 (some []))

set_option maxRecDepth 4000 in
theorem kills_eq_requests_twice :
    (run 3 started firstRound).control = .serving ∧
      (run 3 started (firstRound ++ [.sigusr1 (some (requestBytes 1 2)),
        .main 1 (some (requestBytes 1 2))])).kills = [(2, .sigkill), (2, .sigkill)] := by
  refine ⟨rfl, (kills_eq_requests 3 firstRound _ rfl).trans ?_⟩
  rfl

/-! ## Requests for the group -/

/-- Process 0 is listed while the count is written and the pid of the daemon is not. -/
theorem isListed_group (hp : getpid ≠ 0) (hk : k ≤ 23) :
    isListed (((updateSystemState getpid time).take k).foldl SystemState.assign zeroState) 0 =
      decide (2 ≤ k ∧ k ≤ 15) := by
  have hwritten : ∀ system : SystemState, system.numProcs = 3 → (system.procs 0).pid = 1 →
      (system.procs 1).pid = 2 → (system.procs 2).pid = getpid → isListed system 0 = false := by
    intro system hn h0 h1 h2
    simp [isListed, hn, List.range_succ, h0, h1, h2, hp]
  interval_cases k
  all_goals first
    | rfl
    | exact hwritten _ rfl rfl rfl rfl

theorem Stage.passes_group_iff (h : Stage getpid m d) (hp : getpid ≠ 0)
    (hd : d.control ≠ .stopped) : Passes getpid d.system 0 ↔ 3 ≤ m ∧ m ≤ 16 := by
  have hpasses : Passes getpid d.system 0 ↔ isListed d.system 0 = true :=
    ⟨fun h => h.listed, fun h => ⟨by decide, hp.symm, h⟩⟩
  cases h with
  | stopped he => exact absurd he hd
  | starting hm _ hz =>
    rw [hpasses, hz]
    exact iff_of_false (by decide) (by omega)
  | first time k hm hk _ hs =>
    rw [hpasses, hs, isListed_group hp hk, decide_eq_true_eq]
    omega
  | later hm hc _ =>
    refine iff_of_false (fun hg => ?_) (by omega)
    exact absurd (hc.passes_iff.mp hg).1 (by decide)

/-- **A request for process 0** that comes by signal is carried out, and so ends or stops
the group of the daemon, exactly between the second assignment of the first update and the
sixteenth. -/
theorem group_signalled_iff (getpid : Int) (hp : getpid ≠ 0) (events : List Event)
    (hd : (run getpid started events).control ≠ .stopped) (file : Option (List UInt8))
    (signal : KillSignal) (hreq : requested file = some (0, signal)) :
    (run getpid started (events ++ [.sigusr1 file])).kills =
        (0, signal) :: (run getpid started events).kills ↔
      3 ≤ mainSteps events ∧ mainSteps events ≤ 16 := by
  have hstage := ((daemonInv_started getpid).run events).stage
  rw [Nat.zero_add] at hstage
  have hlast : run getpid started (events ++ [.sigusr1 file]) =
      handleAiRequests getpid (run getpid started events) file := by
    rw [run_append, run, List.foldl_cons, List.foldl_nil, next]
    split
    · rename_i hs
      exact absurd hs hd
    · rfl
  rw [hlast, ← hstage.passes_group_iff hp hd]
  rcases handleAiRequests_cases getpid (run getpid started events) file with
    ⟨pid, signal', hreq', hpass, he⟩ | ⟨hno, he⟩
  · obtain ⟨rfl, rfl⟩ := Prod.mk.inj (Option.some.inj (hreq.symm.trans hreq'))
    rw [he]
    exact iff_of_true rfl hpass
  · rw [he]
    refine iff_of_false (fun hk => ?_) (hno 0 signal hreq)
    exact absurd (congrArg List.length hk) (Nat.ne_of_lt (Nat.lt_succ_self _))

set_option maxRecDepth 4000 in
theorem group_signalled_iff_early :
    (run 3 started (List.replicate 3 (.main 0 (some [])) ++
        [.sigusr1 (some (requestBytes 1 0))])).kills =
      (0, .sigkill) :: (run 3 started (List.replicate 3 (.main 0 (some [])))).kills := by
  refine (group_signalled_iff 3 (by decide) _ (fun h => ?_) _ .sigkill rfl).mpr (by decide)
  exact nomatch (show Control.updating _ = Control.stopped from h)

end SynapseKernel.Taskmgrd
