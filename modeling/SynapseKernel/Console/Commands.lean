import Mathlib.Data.List.Forall2
import SynapseKernel.Console.LineEditor
import SynapseKernel.Console.Shell
import SynapseKernel.Str.Compare

/-! # Running a command line (lib/shell.c)

A round of `shell_run` reads a line, cuts it into arguments and runs the command that its first
field names, or makes a system call for a file of that name, which the call does not pass on
(`shellRound_runs`). As `strtok` keeps empty fields, `echo` prints back all blanks of a line
but one at its end (`echo_prints_iff`). -/
namespace SynapseKernel.Console
open SynapseKernel.Word SynapseKernel.ByteMemory SynapseKernel.LineEdit SynapseKernel.Words
open SynapseKernel.Str

inductive Command where
  | help | echo | clear | version | ai | ps | free | top
deriving DecidableEq

/-- `shell_command_t`. -/
structure ShellCommand where
  name : CString
  func : Command
  description : List UInt8

/-- The entries before the one that is `NULL`. -/
def shellCommands : List ShellCommand :=
  [⟨⟨ascii ['h', 'e', 'l', 'p'], by decide⟩, .help,
      ascii ['S', 'h', 'o', 'w', ' ', 'a', 'v', 'a', 'i', 'l', 'a', 'b', 'l', 'e', ' ', 'c',
        'o', 'm', 'm', 'a', 'n', 'd', 's']⟩,
   ⟨⟨ascii ['e', 'c', 'h', 'o'], by decide⟩, .echo,
      ascii ['E', 'c', 'h', 'o', ' ', 't', 'e', 'x', 't', ' ', 't', 'o', ' ', 's', 'c', 'r',
        'e', 'e', 'n']⟩,
   ⟨⟨ascii ['c', 'l', 'e', 'a', 'r'], by decide⟩, .clear,
      ascii ['C', 'l', 'e', 'a', 'r', ' ', 't', 'h', 'e', ' ', 's', 'c', 'r', 'e', 'e', 'n']⟩,
   ⟨⟨ascii ['v', 'e', 'r', 's', 'i', 'o', 'n'], by decide⟩, .version,
      ascii ['S', 'h', 'o', 'w', ' ', 'v', 'e', 'r', 's', 'i', 'o', 'n', ' ', 'i', 'n', 'f',
        'o', 'r', 'm', 'a', 't', 'i', 'o', 'n']⟩,
   ⟨⟨ascii ['a', 'i'], by decide⟩, .ai,
      ascii ['A', 's', 'k', ' ', 'A', 'I', ' ', 'a', ' ', 'q', 'u', 'e', 's', 't', 'i', 'o',
        'n', ' ', '(', 'v', 'i', 'a', ' ', 's', 'e', 'r', 'i', 'a', 'l', ' ', 'p', 'o', 'r',
        't', ')']⟩,
   ⟨⟨ascii ['p', 's'], by decide⟩, .ps,
      ascii ['S', 'h', 'o', 'w', ' ', 'p', 'r', 'o', 'c', 'e', 's', 's', ' ', 'l', 'i', 's',
        't']⟩,
   ⟨⟨ascii ['f', 'r', 'e', 'e'], by decide⟩, .free,
      ascii ['S', 'h', 'o', 'w', ' ', 'm', 'e', 'm', 'o', 'r', 'y', ' ', 'u', 's', 'a', 'g',
        'e']⟩,
   ⟨⟨ascii ['t', 'o', 'p'], by decide⟩, .top,
      ascii ['S', 'h', 'o', 'w', ' ', 'r', 'u', 'n', 'n', 'i', 'n', 'g', ' ', 'p', 'r', 'o',
        'c', 'e', 's', 's', 'e', 's']⟩]

def VGA_COLOR_LIGHT_GREEN : UInt8 := 10

/-- One call of `kprint` after the other. -/
def Shell.kprints (s : Shell) (strs : List (List UInt8)) : Shell := strs.foldl Shell.kprint s

def KERNEL_VERSION : List UInt8 := ascii ['0', '.', '1']

/-- The rounds of `vga_puts` and of `serial_write_string` with their argument in memory; `none`
if they go on. -/
def eachCharFrom {σ : Type} (write : σ → UInt8 → σ) (m : Mem) : Nat → σ → Nat → Option σ
  | 0, _, _ => none
  | fuel + 1, s, str =>
    if char m str = 0 then some s
    else eachCharFrom write m fuel (write s (char m str)) (str + 1)

def eachChar {σ : Type} (write : σ → UInt8 → σ) (m : Mem) (s : σ) (str : Nat) : Option σ :=
  eachCharFrom write m loopFuel s str

/-- `kprint` with its argument in memory. -/
def kprintAt (s : Shell) (str : Nat) : Option Shell := eachChar Shell.putc s.strtok.mem s str

def shellCmdHelp (s : Shell) : Shell :=
  shellCommands.foldl (fun s command =>
      s.kprints [ascii [' ', ' '], command.name.bytes, ascii [' ', '-', ' '], command.description,
        [byteOf '\n']])
    (s.kprint (ascii ['\n', 'A', 'v', 'a', 'i', 'l', 'a', 'b', 'l', 'e', ' ', 'c', 'o', 'm', 'm',
      'a', 'n', 'd', 's', ':', '\n']))

/-- `n` rounds of the loop over the arguments in `shell_cmd_echo` and `shell_cmd_ai`. -/
def eachArgFrom {σ : Type} (write : σ → UInt8 → σ) (m : Mem) (argc : Nat) (argv : List Nat) :
    Nat → Nat → σ → Option σ
  | 0, _, s => some s
  | n + 1, i, s =>
    (eachChar write m s (argv.getD i NULL)).bind fun s =>
      eachArgFrom write m argc argv n (i + 1) (if i < argc - 1 then write s space else s)

def shellCmdEcho (s : Shell) (argc : Nat) (argv : List Nat) : Option Shell :=
  if argc < 2 then some (s.kprint [byteOf '\n'])
  else
    (eachArgFrom Shell.putc s.strtok.mem argc argv (argc - 1) 1 (s.kprint [byteOf '\n'])).map
      (·.kprint [byteOf '\n'])

def shellCmdClear (s : Shell) : Shell := { s with vga := vgaClear s.vga }

/-- `built` is the date and the time. -/
def shellCmdVersion (built : List UInt8) (s : Shell) : Shell :=
  s.kprints [ascii ['\n', 'S', 'y', 'n', 'a', 'p', 's', 'e', ' ', 'O', 'S', ' ', 'v'],
    KERNEL_VERSION, [byteOf '\n'],
    ascii ['A', 'I', '-', 'N', 'a', 't', 'i', 'v', 'e', ' ', 'O', 'p', 'e', 'r', 'a', 't', 'i',
      'n', 'g', ' ', 'S', 'y', 's', 't', 'e', 'm', '\n'],
    ascii ['B', 'u', 'i', 'l', 't', ':', ' '] ++ built ++ [byteOf '\n']]

/-- What the rest of the kernel does for the shell: the commands that are not here, and what
becomes of `int $0x80` with a number in `eax`, with its result. -/
structure ShellEnv where
  built : List UInt8
  run : Command → Shell → Nat → List Nat → Option Shell
  int80 : Shell → Nat → Option (Shell × Int)

def SYS_execve : Nat := 11

/-- `syscall` of kernel/syscall.c: the other arguments of the call go into no register. -/
def ShellEnv.syscall (env : ShellEnv) (s : Shell) (num _path : Nat) (_argv : List Nat)
    (_envp : Nat) : Option (Shell × Int) := env.int80 s num

def runCommand (env : ShellEnv) (s : Shell) (argc : Nat) (argv : List Nat) :
    Command → Option Shell
  | .help => some (shellCmdHelp s)
  | .echo => shellCmdEcho s argc argv
  | .clear => some (shellCmdClear s)
  | .version => some (shellCmdVersion env.built s)
  | command => env.run command s argc argv

/-- The search of `shell_run`. -/
def findCommand (m : Mem) (argv0 : Nat) : Option Command :=
  (shellCommands.find? fun command => strcmpAt m argv0 command.name = 0).map (·.func)

def EXECUTING : List UInt8 := ascii ['E', 'x', 'e', 'c', 'u', 't', 'i', 'n', 'g', ':', ' ']

/-- What follows the call of `syscall`. -/
def fileReturned (argv0 : Nat) (s : Shell) (ret : Int) : Option Shell :=
  if ret < 0 then
    (kprintAt (s.kprint (ascii ['F', 'a', 'i', 'l', 'e', 'd', ' ', 't', 'o', ' ', 'e', 'x', 'e',
      'c', 'u', 't', 'e', ':', ' '])) argv0).map
      (·.kprint [byteOf '\n'])
  else some s

def runFile (env : ShellEnv) (s : Shell) (argv : List Nat) : Option Shell :=
  let argv0 := argv.getD 0 NULL
  (kprintAt (s.kprint EXECUTING) argv0).bind fun s =>
    (env.syscall (s.kprint [byteOf '\n']) SYS_execve argv0 argv NULL).bind fun (s, ret) =>
      fileReturned argv0 s ret

def shellExecute (env : ShellEnv) (s : Shell) (argc : Nat) (argv : List Nat) : Option Shell :=
  match findCommand s.strtok.mem (argv.getD 0 NULL) with
  | some command => runCommand env s argc argv command
  | none => runFile env s argv

def shellPrompt (s : Shell) : Shell :=
  let s := { s with vga := vgaSetColor s.vga VGA_COLOR_LIGHT_GREEN VGA_COLOR_BLACK }
  let s := s.kprint (ascii ['s', 'y', 'n', 'a', 'p', 's', 'e', '>', ' '])
  { s with vga := vgaSetColor s.vga VGA_COLOR_LIGHT_GREY VGA_COLOR_BLACK }

/-- A round of `shell_run`, with the scancodes that come in and those that are left. -/
def shellRound (env : ShellEnv) (shellBuffer : Nat) (s : Shell) (codes : List UInt8) :
    Option (Shell × List UInt8) :=
  (readLine shellBuffer (shellPrompt s) codes).bind fun (s, codes) =>
    if s.pos = 0 then some (s, codes)
    else
      (shellParseCommand s.strtok shellBuffer).bind fun (st, argc, argv) =>
        let s := { s with strtok := st }
        if 0 < argc then (shellExecute env s argc argv).map (·, codes) else some (s, codes)

/-! ## The arguments -/

variable {env : ShellEnv} {shellBuffer p i : Nat} {s s' : Shell} {m : Mem} {argv ps : List Nat}
  {w text line echo before : List UInt8} {ws : List (List UInt8)} {scancode : UInt8}

/-- The command of a name. -/
def commandNamed (name : List UInt8) : Option Command :=
  (shellCommands.find? fun command => command.name.bytes = name).map (·.func)

theorem findCommand_eq (h : Holds m p w) (h0 : 0 ∉ w) : findCommand m p = commandNamed w := by
  have hname : (fun command : ShellCommand => decide (strcmpAt m p command.name = 0)) =
      fun command => decide (command.name.bytes = w) := by
    funext command
    refine decide_eq_decide.mpr (strcmpAt_eq_zero.trans ⟨fun hc => ?_, fun he => he ▸ h⟩)
    exact hc.unique h command.name.noNul h0
  rw [findCommand, commandNamed, hname]

theorem eachCharFrom_eq {σ : Type} {write : σ → UInt8 → σ} {fuel : Nat} (s : σ)
    (h : Holds m p w) (h0 : 0 ∉ w) (hfuel : w.length < fuel) :
    eachCharFrom write m fuel s p = some (w.foldl write s) := by
  induction fuel generalizing s p w with
  | zero => exact absurd hfuel (Nat.not_lt_zero _)
  | succ fuel ih =>
    rw [eachCharFrom]
    cases w with
    | nil => exact if_pos h
    | cons c w =>
      obtain ⟨hc, h0⟩ := cons_notMem_nul h0
      rw [h.1, if_neg hc]
      exact ih (write s c) h.2 h0 (Nat.lt_of_succ_lt_succ hfuel)

theorem eachChar_eq {σ : Type} (write : σ → UInt8 → σ) (s : σ) (h : Holds m p w) (h0 : 0 ∉ w)
    (hlen : w.length < loopFuel) : eachChar write m s p = some (w.foldl write s) :=
  eachCharFrom_eq s h h0 hlen

/-- The rest of the arguments is written, with a space between two of them. -/
theorem eachArgFrom_eq {σ : Type} (write : σ → UInt8 → σ) (s : σ) (pre : List Nat)
    (h : List.Forall₂ (Holds m) ps ws) (h0 : ∀ w ∈ ws, 0 ∉ w)
    (hlen : ∀ w ∈ ws, w.length < loopFuel) :
    eachArgFrom write m (pre ++ ps).length (pre ++ ps) ps.length pre.length s =
      some (([space].intercalate ws).foldl write s) := by
  induction h generalizing pre s with
  | nil => rfl
  | @cons q v ps ws hv hrest ih =>
    obtain ⟨hv0, h0⟩ := List.forall_mem_cons.mp h0
    obtain ⟨hvlen, hlen⟩ := List.forall_mem_cons.mp hlen
    have hget : (pre ++ q :: ps).getD pre.length NULL = q := by
      rw [List.getD_eq_getElem?_getD, List.getElem?_append_right (Nat.le_refl _), Nat.sub_self]
      rfl
    have hpre : (pre ++ [q]).length = pre.length + 1 := List.length_append
    have hrun := fun s => ih s (pre ++ [q]) h0 hlen
    rw [List.append_assoc, List.singleton_append, hpre] at hrun
    rw [List.length_cons, eachArgFrom, hget, eachChar_eq write s hv hv0 hvlen, Option.bind_some]
    cases hrest with
    | nil =>
      rw [if_neg (by simp), List.intercalate_singleton]
      rfl
    | cons hv' hrest =>
      rw [if_pos (by simp), hrun, List.intercalate_cons_cons, List.append_assoc,
        List.foldl_append, List.foldl_append]
      rfl

theorem foldl_putc (s : Shell) (str : List UInt8) : str.foldl Shell.putc s = s.kprint str := by
  induction str generalizing s with
  | nil => rfl
  | cons c str ih => exact ih (s.putc c)

theorem kprint_kprint (s : Shell) (str str' : List UInt8) :
    (s.kprint str).kprint str' = s.kprint (str ++ str') := by
  rw [Shell.kprint, Shell.kprint, Shell.kprint, vgaPutsFrom_append]

theorem shellParseCommand_fields {st : StrtokState} (hm : Holds st.mem p line) (h0 : 0 ∉ line)
    (hp : p ≠ NULL) (hend : p + line.length < 2 ^ 32) :
    ∃ st' argc argv, shellParseCommand st p = some (st', argc, argv) ∧ argc = argv.length ∧
      List.Forall₂ (Holds st'.mem) argv ((fields space line).take SHELL_MAX_ARGS) := by
  have hcommand : shellParseCommand st p =
      parseNext (SHELL_MAX_ARGS + 1) { st with saveptr := p } 0 [] := by
    rw [shellParseCommand, strtok_start hp, parseNext]
  obtain ⟨st', argc, argv, hparse, hstored⟩ :=
    @parseNext_fields { st with saveptr := p } line (SHELL_MAX_ARGS + 1) 0 [] hp hm h0 hend
      (by decide) (by decide)
  obtain ⟨tokens, rfl, htokens⟩ := hstored.argv
  refine ⟨st', argc, argv, hcommand.trans hparse, ?_, htokens⟩
  rw [hstored.argc, htokens.length_eq, Nat.zero_add, Nat.sub_zero]

/-! ## A round -/

theorem shellPrompt_keys (s : Shell) : (shellPrompt s).keys = s.keys := by
  simp only [shellPrompt, Shell.kprint]

/-- The command of a name is run with the arguments. For any other name `SYS_execve` is
called, and neither the name nor an argument comes with the call. -/
def runNamed (env : ShellEnv) (s : Shell) (argv : List Nat) (name : List UInt8) : Option Shell :=
  match commandNamed name with
  | some command => runCommand env s argv.length argv command
  | none =>
    (env.int80 (s.kprint (EXECUTING ++ name ++ [byteOf '\n'])) SYS_execve).bind
      fun (s, ret) => fileReturned (argv.getD 0 NULL) s ret

theorem runFile_eq {q : Nat} (h : Holds s.strtok.mem q w) (h0 : 0 ∉ w)
    (hlen : w.length < loopFuel) :
    runFile env s (q :: ps) =
      (env.int80 (s.kprint (EXECUTING ++ w ++ [byteOf '\n'])) SYS_execve).bind
        fun (s, ret) => fileReturned q s ret := by
  have hname : Holds (s.kprint EXECUTING).strtok.mem q w := h
  have hprint : kprintAt (s.kprint EXECUTING) q = some (s.kprint (EXECUTING ++ w)) := by
    rw [kprintAt, eachChar_eq Shell.putc _ hname h0 hlen, foldl_putc, kprint_kprint]
  rw [runFile]
  simp only [List.getD_cons_zero, hprint, Option.bind_some, kprint_kprint]
  rfl

theorem ReadLine.zero_notMem {start : Shell} (h : ReadLine shellBuffer start s line echo) :
    0 ∉ line := fun hin => absurd (h.printable 0 hin).1 (by decide)

/-- A line that is not empty is run with its fields as the arguments. -/
theorem ReadLine.executes {start : Shell} (h : ReadLine shellBuffer start s line echo)
    (hbuf0 : shellBuffer ≠ NULL) (hbuf : shellBuffer + SHELL_BUFFER_SIZE ≤ 2 ^ 32)
    (hline : line ≠ []) :
    ∃ st argc argv, shellParseCommand s.strtok shellBuffer = some (st, argc, argv) ∧ 0 < argc ∧
      List.Forall₂ (Holds st.mem) argv ((fields space line).take SHELL_MAX_ARGS) ∧
      shellExecute env { s with strtok := st } argc argv =
        runNamed env { s with strtok := st } argv ((fields space line).headD []) := by
  have hlt := h.length_lt
  obtain ⟨st, argc, argv, hparse, hargc, hfields⟩ := @shellParseCommand_fields shellBuffer line
    s.strtok h.holds h.zero_notMem hbuf0 (by omega)
  obtain ⟨v, ws, hws⟩ := List.exists_cons_of_ne_nil (mt (fields_eq_nil_iff space line).mp hline)
  have hall := hfields
  rw [hws, List.take_succ_cons] at hall
  cases hall with
  | @cons q _ ps _ hq _ =>
    have hv : 0 ∉ v := fun hin => h.zero_notMem
      (mem_of_mem_fields (hws ▸ List.mem_cons_self) hin)
    have hvlen := length_le_of_mem_fields (hws ▸ List.mem_cons_self : v ∈ fields space line)
    have hfile := @runFile_eq env { s with strtok := st } ps v q hq hv
      (by unfold loopFuel; unfold SHELL_BUFFER_SIZE at hlt; omega)
    refine ⟨st, argc, q :: ps, hparse, hargc ▸ Nat.succ_pos _, hfields, ?_⟩
    rw [hws, List.headD_cons, shellExecute, runNamed, List.getD_cons_zero, ← hargc,
      findCommand_eq hq hv, hfile]

/-- A round goes on with the line that was read. -/
theorem shellRound_line {start : Shell} {input codes : List UInt8}
    (hread : readLine shellBuffer (shellPrompt s) input = some (s', codes))
    (h : ReadLine shellBuffer start s' line echo) (hbuf0 : shellBuffer ≠ NULL)
    (hbuf : shellBuffer + SHELL_BUFFER_SIZE ≤ 2 ^ 32) (hline : line ≠ []) :
    ∃ st argv, List.Forall₂ (Holds st.mem) argv ((fields space line).take SHELL_MAX_ARGS) ∧
      shellRound env shellBuffer s input =
        (runNamed env { s' with strtok := st } argv ((fields space line).headD [])).map
          (·, codes) := by
  obtain ⟨st, argc, argv, hparse, hargc, hfields, hrun⟩ :=
    @ReadLine.executes env _ _ _ _ _ h hbuf0 hbuf hline
  refine ⟨st, argv, hfields, ?_⟩
  have hpos : s'.pos ≠ 0 := by
    rw [h.pos]
    exact mt List.length_eq_zero_iff.mp hline
  rw [shellRound, hread, Option.bind_some]
  simp only [if_neg hpos, hparse, Option.bind_some, if_pos hargc, hrun]

/-- **A round of the shell.** Whatever is typed before Enter, nothing is run for an empty line,
and for any other one the command that its first field names, with the first fields of the
line as the arguments; where no command has the name, `SYS_execve` is called, without it. -/
theorem shellRound_runs (hbuf0 : shellBuffer ≠ NULL)
    (hbuf : shellBuffer + SHELL_BUFFER_SIZE ≤ 2 ^ 32)
    (hbefore : byteOf '\n' ∉ charsOf s.keys before)
    (henter : (scancodeToAscii (keysAfter s.keys before) scancode).2 = byteOf '\n')
    (codes : List UInt8) :
    ∃ s' argv,
      s'.vga = vgaPutsFrom (shellPrompt s).vga (typedEcho s.keys before ++ [byteOf '\n']) ∧
      List.Forall₂ (Holds s'.strtok.mem) argv
        ((fields space (typedLine s.keys before)).take SHELL_MAX_ARGS) ∧
      shellRound env shellBuffer s (before ++ scancode :: codes) =
        if typedLine s.keys before = [] then some (s', codes)
        else (runNamed env s' argv ((fields space (typedLine s.keys before)).headD [])).map
          (·, codes) := by
  have hkeys := shellPrompt_keys s
  rw [← hkeys] at hbefore henter
  obtain ⟨s', hread, hline⟩ := readLine_typed hbuf hbefore henter codes
  rw [hkeys] at hline
  by_cases hempty : typedLine s.keys before = []
  · refine ⟨s', [], hline.vga, ?_, ?_⟩
    · rw [hempty]
      exact .nil
    · have hpos := hline.pos
      rw [hempty, List.length_nil] at hpos
      rw [if_pos hempty, shellRound, hread, Option.bind_some]
      simp only [if_pos hpos]
  · obtain ⟨st, argv, hfields, hround⟩ :=
      @shellRound_line env _ _ _ _ _ _ _ _ hread hline hbuf0 hbuf hempty
    refine ⟨{ s' with strtok := st }, argv, hline.vga, hfields, ?_⟩
    rw [if_neg hempty]
    exact hround

/-- Nothing else answers. -/
def silentEnv : ShellEnv := ⟨[], fun _ s _ _ => some s, fun s _ => some (s, 0)⟩

/-- `top`, and `a`, which is no command. -/
theorem shellRound_runs_top :
    (∃ s' argv, List.Forall₂ (Holds s'.strtok.mem) argv [ascii ['t', 'o', 'p']] ∧
      shellRound silentEnv 0x1000 freshShell ([0x14, 0x18, 0x19] ++ 0x1C :: []) =
        some (s', [])) ∧
    ∃ (s' : Shell) (argv : List Nat), List.Forall₂ (Holds s'.strtok.mem) argv [ascii ['a']] ∧
      shellRound silentEnv 0x1000 freshShell ([0x1E] ++ 0x1C :: []) =
        some (s'.kprint (EXECUTING ++ ascii ['a', '\n']), []) := by
  constructor
  · obtain ⟨s', argv, -, hargs, hround⟩ := @shellRound_runs silentEnv 0x1000 freshShell
      [0x14, 0x18, 0x19] 0x1C (by decide) (by decide) (by decide) (by decide) []
    exact ⟨s', argv, hargs, hround⟩
  · obtain ⟨s', argv, -, hargs, hround⟩ := @shellRound_runs silentEnv 0x1000 freshShell
      [0x1E] 0x1C (by decide) (by decide) (by decide) (by decide) []
    exact ⟨s', argv, hargs, hround⟩

/-! ## echo -/

/-- The arguments behind the name are printed. -/
theorem shellCmdEcho_eq {q : Nat} (h : List.Forall₂ (Holds s.strtok.mem) ps ws)
    (h0 : ∀ w ∈ ws, 0 ∉ w) (hlen : ∀ w ∈ ws, w.length < loopFuel) :
    shellCmdEcho s (q :: ps).length (q :: ps) = some (s.kprint
      (if ws = [] then [byteOf '\n']
      else byteOf '\n' :: ([space].intercalate ws ++ [byteOf '\n']))) := by
  rw [shellCmdEcho]
  cases h with
  | nil => exact if_pos Nat.one_lt_two
  | @cons r v ps ws hv hrest =>
    have hloop := eachArgFrom_eq Shell.putc (s.kprint [byteOf '\n']) [q] (.cons hv hrest) h0 hlen
    rw [List.singleton_append, List.length_singleton, foldl_putc] at hloop
    have hrounds : (q :: r :: ps).length - 1 = (r :: ps).length := rfl
    rw [if_neg (by simp), if_neg (List.cons_ne_nil _ _), hrounds, hloop, Option.map_some,
      kprint_kprint, kprint_kprint]
    rfl

def echoName : List UInt8 := ascii ['e', 'c', 'h', 'o']

/-- What `echo` prints of the rest of its line. -/
def echoOutput (text : List UInt8) : List UInt8 :=
  if text = [] then [byteOf '\n']
  else byteOf '\n' ::
    ([space].intercalate ((fields space text).take (SHELL_MAX_ARGS - 1)) ++ [byteOf '\n'])

/-- **`echo` from the keyboard to the console.** For every line that begins with `echo` and a
space, what is printed below it is the rest of the line if and only if this is not empty, does
not end in a space and has fewer spaces than there is room for arguments. -/
theorem echo_prints_iff (hbuf0 : shellBuffer ≠ NULL)
    (hbuf : shellBuffer + SHELL_BUFFER_SIZE ≤ 2 ^ 32)
    (hbefore : byteOf '\n' ∉ charsOf s.keys before)
    (henter : (scancodeToAscii (keysAfter s.keys before) scancode).2 = byteOf '\n')
    (htyped : typedLine s.keys before = echoName ++ space :: text) (codes : List UInt8) :
    (∃ s', shellRound env shellBuffer s (before ++ scancode :: codes) = some (s', codes) ∧
      s'.vga = vgaPutsFrom (shellPrompt s).vga
        (typedEcho s.keys before ++ byteOf '\n' :: echoOutput text)) ∧
    (echoOutput text = byteOf '\n' :: (text ++ [byteOf '\n']) ↔
      text ≠ [] ∧ text.getLast? ≠ some space ∧ text.count space < SHELL_MAX_ARGS - 1) := by
  constructor
  · have hkeys := shellPrompt_keys s
    have hprint := typedLine_printable s.keys before
    have hlt := length_typedLine_lt s.keys before
    rw [← hkeys] at hbefore henter
    obtain ⟨s', hread, hline⟩ := readLine_typed hbuf hbefore henter codes
    rw [hkeys] at hline
    have hvga := hline.vga
    rw [htyped] at hline hprint hlt
    obtain ⟨st, argv, hargs, hround⟩ :=
      @shellRound_line env _ _ _ _ _ _ _ _ hread hline hbuf0 hbuf (by simp)
    have hfields : fields space (echoName ++ space :: text) = echoName :: fields space text :=
      fields_field (by decide) text
    have hecho : commandNamed echoName = some .echo := by decide
    rw [hfields] at hargs hround
    rw [List.take_succ_cons] at hargs
    cases hargs with
    | @cons q _ ps _ _ hargs =>
    have hempty : (fields space text).take 15 = [] ↔ text = [] := by
      rw [List.take_eq_nil_iff, fields_eq_nil_iff]
      simp
    have h0 : ∀ w ∈ (fields space text).take 15, 0 ∉ w := fun w hw hin => by
      have hmem := mem_of_mem_fields (List.mem_of_mem_take hw) hin
      exact absurd (hprint 0 (List.mem_append_right _ (List.mem_cons_of_mem _ hmem))).1 (by decide)
    have hlen : ∀ w ∈ (fields space text).take 15, w.length < loopFuel := fun w hw => by
      have hle := length_le_of_mem_fields (List.mem_of_mem_take hw)
      rw [List.length_append, List.length_cons] at hlt
      unfold SHELL_BUFFER_SIZE at hlt
      unfold loopFuel
      omega
    have hcmd := @shellCmdEcho_eq { s' with strtok := st } _ _ q hargs h0 hlen
    rw [List.headD_cons, runNamed, hecho] at hround
    simp only [runCommand, hcmd, Option.map_some] at hround
    refine ⟨_, hround, ?_⟩
    rw [Shell.kprint]
    simp only [hvga, hempty]
    rw [← vgaPutsFrom_append, List.append_assoc, List.singleton_append]
    rfl
  · rw [echoOutput]
    by_cases htext : text = []
    · rw [if_pos htext, htext]
      exact iff_of_false (by decide) fun h => h.1 rfl
    · have hroom : SHELL_MAX_ARGS - 1 = 14 + 1 := rfl
      rw [if_neg htext, List.cons_inj_right, List.append_cancel_right_eq, hroom,
        intercalate_take_fields_iff, and_iff_right htext, Nat.lt_succ_iff]

/-- `echo a`. -/
theorem echo_prints_iff_letter :
    ∃ s', shellRound silentEnv 0x1000 freshShell
        ([0x12, 0x2E, 0x23, 0x18, 0x39, 0x1E] ++ 0x1C :: []) = some (s', []) ∧
      s'.vga = vgaPutsFrom (shellPrompt freshShell).vga
        (ascii ['e', 'c', 'h', 'o', ' ', 'a', '\n', '\n', 'a', '\n']) :=
  (@echo_prints_iff silentEnv 0x1000 freshShell (ascii ['a'])
    [0x12, 0x2E, 0x23, 0x18, 0x39, 0x1E] 0x1C (by decide) (by decide) (by decide) (by decide)
    (by decide) []).1

end SynapseKernel.Console
