import SynapseKernel.Lib.Words
import SynapseKernel.Str.Strtok

/-! # The words of a command line (lib/shell.c)

`shell_parse_command` takes from `strtok` one field of the line after the other until there
is none left or `argv` is full. Its arguments are the words of the line if and only if no
space that it passes is at the front of the line or behind another one (`parsesWords_iff`). -/
namespace SynapseKernel.Console
open SynapseKernel.Word SynapseKernel.ByteMemory SynapseKernel.Words SynapseKernel.Str

abbrev SHELL_MAX_ARGS : Nat := 16

def space : UInt8 := byteOf ' '

/-- The loop of `shell_parse_command`: what `strtok` leaves, `*argc` and the entries of `argv`
that are stored; `none` if a loop goes on after its rounds. -/
def shellParseFrom :
    Nat → StrtokState → Nat → Nat → List Nat → Option (StrtokState × Nat × List Nat)
  | 0, _, _, _, _ => none
  | fuel + 1, st, token, argc, argv =>
    if token ≠ NULL ∧ argc < SHELL_MAX_ARGS then
      (strtok st NULL [space]).bind fun (st, next) =>
        shellParseFrom fuel st next (argc + 1) (argv ++ [token])
    else some (st, argc, argv)

def shellParseCommand (st : StrtokState) (input : Nat) :
    Option (StrtokState × Nat × List Nat) :=
  (strtok st input [space]).bind fun (st, token) =>
    shellParseFrom (SHELL_MAX_ARGS + 1) st token 0 []

/-- The arguments are the first words of the line. -/
def ParsesWords (st : StrtokState) (input : Nat) (line : List UInt8) : Prop :=
  ∃ st' argc argv, shellParseCommand st input = some (st', argc, argv) ∧
    argc = ((words space line).take SHELL_MAX_ARGS).length ∧
    List.Forall₂ (Holds st'.mem) argv ((words space line).take SHELL_MAX_ARGS)

variable {m : Mem} {st : StrtokState} {line w l : List UInt8} {input p fuel argc : Nat}
  {argv : List Nat}

theorem field_clean (h0 : 0 ∉ w) (hw : space ∉ w) : ∀ b ∈ w, b ≠ 0 ∧ b ∉ [space] := by
  intro b hb
  refine ⟨fun he => h0 (he ▸ hb), fun hin => hw ?_⟩
  exact List.mem_singleton.mp hin ▸ hb

/-- A call of `strtok` and what the loop makes of it. -/
def parseNext (fuel : Nat) (st : StrtokState) (argc : Nat) (argv : List Nat) :
    Option (StrtokState × Nat × List Nat) :=
  (strtok st NULL [space]).bind fun (st, token) => shellParseFrom fuel st token argc argv

theorem parseNext_eq {st' : StrtokState} {token : Nat}
    (h : strtok st NULL [space] = some (st', token)) :
    parseNext fuel st argc argv = shellParseFrom fuel st' token argc argv := by
  rw [parseNext, h, Option.bind_some]

/-- Where there is no field, or no room for it, the loop ends. -/
theorem shellParseFrom_done {token : Nat} (h : token = NULL ∨ SHELL_MAX_ARGS ≤ argc) :
    shellParseFrom (fuel + 1) st token argc argv = some (st, argc, argv) := by
  rw [shellParseFrom, if_neg]
  rintro ⟨htoken, hargc⟩
  rcases h with h | h
  · exact htoken h
  · exact absurd hargc (Nat.not_lt.mpr h)

theorem shellParseFrom_token {token : Nat} (h : token ≠ NULL) (hargc : argc < SHELL_MAX_ARGS) :
    shellParseFrom (fuel + 1) st token argc argv =
      parseNext fuel st (argc + 1) (argv ++ [token]) := by
  rw [shellParseFrom, if_pos ⟨h, hargc⟩, parseNext]

/-- What the calls store for the rest of a line: its first fields as far as there is room.
Nothing in front of the rest is written. -/
structure Parses (st st' : StrtokState) (argc argc' : Nat) (argv argv' : List Nat)
    (ws : List (List UInt8)) : Prop where
  argc : argc' = argc + ws.length
  argv : ∃ tokens, argv' = argv ++ tokens ∧ List.Forall₂ (Holds st'.mem) tokens ws
  frame : ∀ a < st.saveptr, st'.mem a = st.mem a

theorem Parses.nil (hframe : ∀ a < st.saveptr, m a = st.mem a) (q : Nat) :
    Parses st ⟨m, q⟩ argc argc argv argv [] :=
  ⟨rfl, ⟨[], (List.append_nil argv).symm, .nil⟩, hframe⟩

/-- A field in front of what the calls behind it store. -/
theorem Parses.cons {st' : StrtokState} {argc' : Nat} {argv' : List Nat} {ws : List (List UInt8)}
    (h : Parses ⟨m, st.saveptr + w.length + 1⟩ st' (argc + 1) argc' (argv ++ [st.saveptr]) argv' ws)
    (hcut : Holds m st.saveptr w) (hend : st.saveptr + w.length < 2 ^ 32)
    (hframe : ∀ a < st.saveptr + w.length, m a = st.mem a) :
    Parses st st' argc argc' argv argv' (w :: ws) := by
  obtain ⟨tokens, hargv, htokens⟩ := h.argv
  have hbehind : ∀ a ≤ st.saveptr + w.length, st'.mem a = m a :=
    fun a ha => h.frame a (Nat.lt_succ_of_le ha)
  refine ⟨?_, ⟨st.saveptr :: tokens, ?_, ?_⟩, fun a ha => ?_⟩
  · rw [h.argc, List.length_cons, Nat.add_assoc, Nat.add_comm 1]
  · rw [hargv, List.append_assoc, List.singleton_append]
  · exact .cons (hcut.congr hend fun a _ ha => hbehind a ha) htokens
  · have hbefore : a < st.saveptr + w.length := Nat.lt_of_lt_of_le ha (Nat.le_add_right _ _)
    rw [hbehind a (Nat.le_of_lt hbefore), hframe a hbefore]

theorem take_room_cons {ws : List (List UInt8)} (hargc : argc < SHELL_MAX_ARGS) :
    (w :: ws).take (SHELL_MAX_ARGS - argc) = w :: ws.take (SHELL_MAX_ARGS - (argc + 1)) := by
  obtain ⟨k, hk⟩ := Nat.exists_eq_add_of_lt hargc
  rw [show SHELL_MAX_ARGS - argc = SHELL_MAX_ARGS - (argc + 1) + 1 by omega,
    List.take_succ_cons]

theorem take_room_full {ws : List (List UInt8)} (hargc : SHELL_MAX_ARGS ≤ argc) :
    ws.take (SHELL_MAX_ARGS - argc) = [] := by
  rw [Nat.sub_eq_zero_of_le hargc, List.take_zero]

/-- **The arguments are fields.** From anywhere in a line on, the calls store the fields of
the rest. -/
theorem parseNext_fields (hp : st.saveptr ≠ NULL) (hm : Holds st.mem st.saveptr line)
    (h0 : 0 ∉ line) (hend : st.saveptr + line.length < 2 ^ 32) (hfuel0 : 0 < fuel)
    (hfuel : SHELL_MAX_ARGS < fuel + argc) :
    ∃ st' argc' argv', parseNext fuel st argc argv = some (st', argc', argv') ∧
      Parses st st' argc argc' argv argv'
        ((fields space line).take (SHELL_MAX_ARGS - argc)) := by
  obtain ⟨fuel, rfl⟩ := Nat.exists_eq_succ_of_ne_zero (Nat.ne_of_gt hfuel0)
  induction line using fields_induction space generalizing st argc argv fuel with
  | last w hw =>
    by_cases hne : w = []
    · subst hne
      refine ⟨st, argc, argv, ?_, ?_⟩
      · rw [parseNext_eq (strtok_nil hp hm), shellParseFrom_done (.inl rfl)]
      · rw [fields_nil, List.take_nil]
        exact Parses.nil (fun _ _ => rfl) _
    rw [parseNext_eq (strtok_last hp hm hne (field_clean h0 hw) hend), fields_single hw hne]
    by_cases hargc : argc < SHELL_MAX_ARGS
    · obtain ⟨fuel, rfl⟩ := Nat.exists_eq_succ_of_ne_zero (show fuel ≠ 0 by omega)
      refine ⟨{ st with saveptr := NULL }, argc + 1, argv ++ [st.saveptr], ?_, ?_⟩
      · rw [shellParseFrom_token hp hargc, parseNext_eq (strtok_done rfl),
          shellParseFrom_done (.inl rfl)]
      · rw [take_room_cons hargc, List.take_nil]
        exact ⟨rfl, ⟨[st.saveptr], rfl, .cons hm .nil⟩, fun _ _ => rfl⟩
    · have hfull := Nat.le_of_not_lt hargc
      refine ⟨_, _, _, shellParseFrom_done (.inr hfull), ?_⟩
      rw [take_room_full hfull]
      exact Parses.nil (fun _ _ => rfl) _
  | field w l hw ih =>
    obtain ⟨hw0, hl0⟩ := not_or.mp (mt List.mem_append.mpr h0)
    obtain ⟨hsep0, hl0⟩ := not_or.mp (mt List.mem_cons.mpr hl0)
    obtain ⟨m', hcall, hcut, hrest, hframe⟩ := strtok_field hp hm (field_clean hw0 hw)
      (List.mem_singleton.mpr rfl) (Ne.symm hsep0) hend
    rw [List.length_append, List.length_cons] at hend
    rw [parseNext_eq hcall, fields_field hw]
    by_cases hargc : argc < SHELL_MAX_ARGS
    · obtain ⟨fuel, rfl⟩ := Nat.exists_eq_succ_of_ne_zero (show fuel ≠ 0 by omega)
      obtain ⟨st', argc', argv', hparse, hstored⟩ :=
        @ih ⟨m', st.saveptr + w.length + 1⟩ (argc + 1) (argv ++ [st.saveptr])
          (Nat.succ_ne_zero _) hrest hl0 (show st.saveptr + w.length + 1 + l.length < _ by omega)
          fuel (Nat.succ_pos _) (by omega)
      refine ⟨st', argc', argv', ?_, ?_⟩
      · rw [shellParseFrom_token hp hargc, hparse]
      · rw [take_room_cons hargc]
        exact hstored.cons hcut (by omega) hframe
    · have hfull := Nat.le_of_not_lt hargc
      refine ⟨_, _, _, shellParseFrom_done (.inr hfull), ?_⟩
      rw [take_room_full hfull]
      exact Parses.nil (fun a ha => hframe a (Nat.lt_of_lt_of_le ha (Nat.le_add_right _ _))) _

/-- Pointers have one list of texts. -/
theorem forall₂_holds_unique {ps : List Nat} {ws ws' : List (List UInt8)}
    (h : List.Forall₂ (Holds m) ps ws) (h' : List.Forall₂ (Holds m) ps ws')
    (h0 : ∀ w ∈ ws, 0 ∉ w) (h0' : ∀ w ∈ ws', 0 ∉ w) : ws = ws' := by
  induction h generalizing ws' with
  | nil =>
    cases h'
    rfl
  | cons hw hrest ih =>
    cases h' with
    | cons hw' hrest' =>
      obtain ⟨hw0, h0⟩ := List.forall_mem_cons.mp h0
      obtain ⟨hw0', h0'⟩ := List.forall_mem_cons.mp h0'
      rw [hw.unique hw' hw0 hw0', ih hrest' h0 h0']

/-- The arguments are the first fields of the line, which may be its words or not. -/
theorem parsesWords_iff_take (hm : Holds st.mem input line) (h0 : 0 ∉ line)
    (hinput : input ≠ NULL) (hend : input + line.length < 2 ^ 32) :
    ParsesWords st input line ↔ (words space line).take SHELL_MAX_ARGS =
      (fields space line).take SHELL_MAX_ARGS := by
  have hcommand : shellParseCommand st input =
      parseNext (SHELL_MAX_ARGS + 1) { st with saveptr := input } 0 [] := by
    rw [shellParseCommand, strtok_start hinput, parseNext]
  obtain ⟨st', argc', argv', hparse, hstored⟩ :=
    @parseNext_fields { st with saveptr := input } line (SHELL_MAX_ARGS + 1) 0 [] hinput hm h0
      hend (by decide) (by decide)
  obtain ⟨tokens, hargv, htokens⟩ := hstored.argv
  rw [List.nil_append] at hargv
  rw [Nat.sub_zero] at htokens
  have hargc := hstored.argc
  rw [Nat.zero_add, Nat.sub_zero] at hargc
  have hclean : ∀ w ∈ (fields space line).take SHELL_MAX_ARGS, 0 ∉ w :=
    fun w hw hin => h0 (mem_of_mem_fields (List.mem_of_mem_take hw) hin)
  rw [ParsesWords, hcommand, hparse]
  constructor
  · rintro ⟨_, _, _, he, -, hwords⟩
    obtain ⟨rfl, rfl, rfl⟩ := Prod.mk.inj (Option.some.inj he)
    refine forall₂_holds_unique hwords (hargv ▸ htokens) (fun w hw hin => ?_) hclean
    have hmem := List.mem_of_mem_take hw
    rw [words_eq] at hmem
    exact h0 (mem_of_mem_fields (List.mem_of_mem_filter hmem) hin)
  · intro he
    rw [he]
    exact ⟨_, _, _, rfl, hargc, hargv ▸ htokens⟩

/-- **When a line is split into its words.** For every string, `shell_parse_command` stores
the first words in order and their number if and only if none of the first `SHELL_MAX_ARGS`
spaces of the line is at its front or right behind another space. -/
theorem parsesWords_iff (hm : Holds st.mem input line) (h0 : 0 ∉ line)
    (hinput : input ≠ NULL) (hend : input + line.length < 2 ^ 32) :
    ParsesWords st input line ↔ SeparatesWords space SHELL_MAX_ARGS line := by
  rw [parsesWords_iff_take hm h0 hinput hend, take_fields_eq_take_words_iff]

/-- A line at address 1. -/
def typed (line : List UInt8) : StrtokState := ⟨place (0 :: line), NULL⟩

theorem holds_typed (hlen : line.length + 1 < 2 ^ 32) : Holds (typed line).mem 1 line :=
  holds_place_after [0] (by rwa [List.singleton_append, List.length_cons])

/-- `echo a `. -/
theorem parsesWords_iff_echo :
    ParsesWords (typed (ascii ['e', 'c', 'h', 'o', ' ', 'a', ' '])) 1
      (ascii ['e', 'c', 'h', 'o', ' ', 'a', ' ']) := by
  refine (parsesWords_iff (holds_typed (by decide)) (by decide) (by decide) (by decide)).mpr ?_
  exact (nil_notMem_take_fields_iff _ _ _).mp (by decide)

/-- `echo  a`. -/
theorem not_parsesWords_spaces :
    Holds (typed (ascii ['e', 'c', 'h', 'o', ' ', ' ', 'a'])).mem 1
      (ascii ['e', 'c', 'h', 'o', ' ', ' ', 'a']) ∧
    0 ∉ ascii ['e', 'c', 'h', 'o', ' ', ' ', 'a'] ∧
    ¬ ParsesWords (typed (ascii ['e', 'c', 'h', 'o', ' ', ' ', 'a'])) 1
      (ascii ['e', 'c', 'h', 'o', ' ', ' ', 'a']) := by
  have hm : Holds (typed (ascii ['e', 'c', 'h', 'o', ' ', ' ', 'a'])).mem 1
      (ascii ['e', 'c', 'h', 'o', ' ', ' ', 'a']) := holds_typed (by decide)
  refine ⟨hm, by decide, ?_⟩
  rw [parsesWords_iff_take hm (by decide) (by decide) (by decide)]
  decide

end SynapseKernel.Console
