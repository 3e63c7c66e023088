import Mathlib.Data.List.ReduceOption
import SynapseKernel.Console.Commands

/-! # Asking over the serial line (lib/serial.c, lib/shell.c)

`shell_cmd_ai` sends its arguments as a question and prints the line that comes back. Polls that
find nothing are counted over the whole answer, not between two characters: the answer is
printed to its end if and only if fewer than `max_timeout` of them come before that
(`ai_answered_iff`), however they are spread. -/
namespace SynapseKernel.Console
open SynapseKernel.Word SynapseKernel.ByteMemory SynapseKernel.Str

/-- What was sent, and what comes in: a character that is there until it is read, or `none` for
a poll that finds nothing. Behind the last of them nothing comes in any more: a line end that
never comes in an endless input would keep `shell_cmd_ai` reading. -/
structure SerialLine where
  sent : List UInt8
  incoming : List (Option UInt8)

/-- `serial_write_char`, once the transmitter is empty. -/
def serialWriteChar (l : SerialLine) (c : UInt8) : SerialLine := { l with sent := l.sent ++ [c] }

def serialWriteString (l : SerialLine) (str : List UInt8) : SerialLine :=
  str.foldl serialWriteChar l

def serialCanRead (l : SerialLine) : Bool × SerialLine :=
  match l.incoming with
  | [] => (false, l)
  | none :: rest => (false, { l with incoming := rest })
  | some _ :: _ => (true, l)

/-- `serial_read_char`; `none` if it waits for ever. -/
def serialReadCharFrom : List (Option UInt8) → Option (UInt8 × List (Option UInt8))
  | [] => none
  | none :: rest => serialReadCharFrom rest
  | some c :: rest => some (c, rest)

def serialReadChar (l : SerialLine) : Option (UInt8 × SerialLine) :=
  (serialReadCharFrom l.incoming).map fun (c, rest) => (c, { l with incoming := rest })

abbrev maxTimeout : Nat := 100000

def aiUsage : List (List UInt8) :=
  [ascii ['\n', 'U', 's', 'a', 'g', 'e', ':', ' ', 'a', 'i', ' ', '<', 'q', 'u', 'e', 's', 't',
      'i', 'o', 'n', '>', '\n'],
    ascii ['A', 's', 'k', ' ', 'A', 'I', ' ', 'a', ' ', 'q', 'u', 'e', 's', 't', 'i', 'o', 'n',
      ' ', 'v', 'i', 'a', ' ', 's', 'e', 'r', 'i', 'a', 'l', ' ', 'p', 'o', 'r', 't', '.', '\n'],
    ascii ['N', 'o', 't', 'e', ':', ' ', 'M', 'a', 'k', 'e', ' ', 's', 'u', 'r', 'e', ' ', 't',
      'h', 'e', ' ', 'A', 'I', ' ', 'p', 'r', 'o', 'x', 'y', ' ', 's', 'c', 'r', 'i', 'p', 't',
      ' ', 'i', 's', ' ', 'r', 'u', 'n', 'n', 'i', 'n', 'g', ' ', 'o', 'n', ' ', 't', 'h', 'e',
      ' ', 'h', 'o', 's', 't', '.', '\n']]

def aiSending : List UInt8 :=
  ascii ['S', 'e', 'n', 'd', 'i', 'n', 'g', ' ', 'q', 'u', 'e', 's', 't', 'i', 'o', 'n', ' ', 't',
    'o', ' ', 'A', 'I', '.', '.', '.', '\n']

def aiQuestion : List UInt8 := ascii ['A', 'I', '_', 'Q', 'U', 'E', 'S', 'T', 'I', 'O', 'N', ':']

def aiWaiting : List UInt8 :=
  ascii ['W', 'a', 'i', 't', 'i', 'n', 'g', ' ', 'f', 'o', 'r', ' ', 'A', 'I', ' ', 'r', 'e', 's',
    'p', 'o', 'n', 's', 'e', '.', '.', '.', '\n']

def aiResponse : List UInt8 :=
  ascii ['\n', 'A', 'I', ' ', 'R', 'e', 's', 'p', 'o', 'n', 's', 'e', ':', '\n']

def aiNoResponse : List UInt8 :=
  ascii ['T', 'i', 'm', 'e', 'o', 'u', 't', ':', ' ', 'N', 'o', ' ', 'r', 'e', 's', 'p', 'o', 'n',
    's', 'e', ' ', 'f', 'r', 'o', 'm', ' ', 'A', 'I', '.', '\n']

/-- A character that ends the answer. -/
def EndsLine (c : UInt8) : Prop := c = byteOf '\n' ∨ c = byteOf '\r'

instance (c : UInt8) : Decidable (EndsLine c) := inferInstanceAs (Decidable (_ ∨ _))

/-- The inner loop of `shell_cmd_ai`; `none` if it goes on after its rounds. -/
def responseFrom : Nat → Nat → Shell → SerialLine → Option (Shell × SerialLine)
  | 0, _, _, _ => none
  | fuel + 1, timeout, s, l =>
    match serialCanRead l with
    | (true, l) =>
      (serialReadChar l).bind fun (c, l) =>
        if EndsLine c then some (s.kprint [byteOf '\n'], l)
        else responseFrom fuel timeout (s.putc c) l
    | (false, l) =>
      if maxTimeout ≤ timeout + 1 then some (s.kprint [byteOf '\n'], l)
      else responseFrom fuel (timeout + 1) s l

/-- The outer loop. -/
def awaitFrom : Nat → Nat → Shell → SerialLine → Option (Shell × SerialLine)
  | 0, _, _, _ => none
  | fuel + 1, timeout, s, l =>
    if timeout < maxTimeout then
      match serialCanRead l with
      | (true, l) => responseFrom fuel timeout (s.kprint aiResponse) l
      | (false, l) => awaitFrom fuel (timeout + 1) s l
    else some (s.kprint aiNoResponse, l)

/-- Each round of the loops takes something that comes in or counts a poll. -/
def shellCmdAi (s : Shell) (l : SerialLine) (argc : Nat) (argv : List Nat) :
    Option (Shell × SerialLine) :=
  if argc < 2 then some (s.kprints aiUsage, l)
  else
    let s := s.kprints [[byteOf '\n'], aiSending]
    (eachArgFrom serialWriteChar s.strtok.mem argc argv (argc - 1) 1
      (serialWriteString l aiQuestion)).bind fun l =>
        let l := serialWriteChar l (byteOf '\n')
        awaitFrom (maxTimeout + l.incoming.length + 1) 0 (s.kprint aiWaiting) l

variable {s : Shell} {l : SerialLine} {sent : List UInt8} {pre rest : List (Option UInt8)}
  {c : UInt8} {fuel timeout : Nat} {m : Mem} {ps : List Nat} {ws : List (List UInt8)}

/-! ## One round -/

theorem responseFrom_char (c : UInt8) : responseFrom (fuel + 1) timeout s ⟨sent, some c :: rest⟩ =
    if EndsLine c then some (s.kprint [byteOf '\n'], ⟨sent, rest⟩)
    else responseFrom fuel timeout (s.putc c) ⟨sent, rest⟩ := rfl

theorem responseFrom_idle : responseFrom (fuel + 1) timeout s ⟨sent, none :: rest⟩ =
    if maxTimeout ≤ timeout + 1 then some (s.kprint [byteOf '\n'], ⟨sent, rest⟩)
    else responseFrom fuel (timeout + 1) s ⟨sent, rest⟩ := rfl

theorem responseFrom_silent : responseFrom (fuel + 1) timeout s ⟨sent, []⟩ =
    if maxTimeout ≤ timeout + 1 then some (s.kprint [byteOf '\n'], ⟨sent, []⟩)
    else responseFrom fuel (timeout + 1) s ⟨sent, []⟩ := rfl

theorem awaitFrom_char (h : timeout < maxTimeout) (c : UInt8) :
    awaitFrom (fuel + 1) timeout s ⟨sent, some c :: rest⟩ =
      responseFrom fuel timeout (s.kprint aiResponse) ⟨sent, some c :: rest⟩ := if_pos h

theorem awaitFrom_idle (h : timeout < maxTimeout) :
    awaitFrom (fuel + 1) timeout s ⟨sent, none :: rest⟩ =
      awaitFrom fuel (timeout + 1) s ⟨sent, rest⟩ := if_pos h

theorem awaitFrom_silent (h : timeout < maxTimeout) :
    awaitFrom (fuel + 1) timeout s ⟨sent, []⟩ = awaitFrom fuel (timeout + 1) s ⟨sent, []⟩ :=
  if_pos h

theorem awaitFrom_late (h : maxTimeout ≤ timeout) :
    awaitFrom (fuel + 1) timeout s l = some (s.kprint aiNoResponse, l) :=
  if_neg (Nat.not_lt.mpr h)

/-! ## The answer -/

/-- What comes in before the end of the answer. -/
def NoLineEnd (pre : List (Option UInt8)) : Prop := ∀ c, some c ∈ pre → ¬ EndsLine c

theorem NoLineEnd.tail {o : Option UInt8} (h : NoLineEnd (o :: pre)) : NoLineEnd pre :=
  fun c hc => h c (List.mem_cons_of_mem _ hc)

/-- In time, the answer is printed to its end. -/
theorem responseFrom_intime (hpre : NoLineEnd pre) (hc : EndsLine c)
    (htime : timeout + pre.count none < maxTimeout) (hfuel : pre.length < fuel) :
    responseFrom fuel timeout s ⟨sent, pre ++ some c :: rest⟩ =
      some (s.kprint (pre.reduceOption ++ [byteOf '\n']), ⟨sent, rest⟩) := by
  obtain ⟨fuel, rfl⟩ := Nat.exists_eq_succ_of_ne_zero (Nat.ne_zero_of_lt hfuel)
  induction pre generalizing fuel timeout s with
  | nil => rw [List.nil_append, responseFrom_char, if_pos hc, List.reduceOption_nil, List.nil_append]
  | cons o pre ih =>
    obtain ⟨fuel, rfl⟩ := Nat.exists_eq_succ_of_ne_zero
      (Nat.ne_zero_of_lt (Nat.lt_of_succ_lt_succ hfuel))
    have hlt : pre.length < fuel + 1 := Nat.lt_of_succ_lt_succ hfuel
    cases o with
    | none =>
      rw [List.count_cons_self] at htime
      rw [List.cons_append, responseFrom_idle, if_neg (by omega), List.reduceOption_cons_of_none]
      exact ih hpre.tail (by omega) fuel hlt
    | some b =>
      rw [List.count_cons_of_ne (by simp)] at htime
      rw [List.cons_append, responseFrom_char, if_neg (hpre b List.mem_cons_self),
        List.reduceOption_cons_of_some]
      exact ih hpre.tail htime fuel hlt

/-- Too late, some of it is left. -/
theorem responseFrom_late (hpre : NoLineEnd pre) (htime : timeout < maxTimeout)
    (hlate : maxTimeout ≤ timeout + pre.count none) (hfuel : pre.length < fuel) :
    ∃ s' left, responseFrom fuel timeout s ⟨sent, pre ++ some c :: rest⟩ =
      some (s', ⟨sent, left ++ some c :: rest⟩) := by
  obtain ⟨fuel, rfl⟩ := Nat.exists_eq_succ_of_ne_zero (Nat.ne_zero_of_lt hfuel)
  induction pre generalizing fuel timeout s with
  | nil =>
    rw [List.count_nil] at hlate
    omega
  | cons o pre ih =>
    obtain ⟨fuel, rfl⟩ := Nat.exists_eq_succ_of_ne_zero
      (Nat.ne_zero_of_lt (Nat.lt_of_succ_lt_succ hfuel))
    have hlt : pre.length < fuel + 1 := Nat.lt_of_succ_lt_succ hfuel
    cases o with
    | none =>
      rw [List.count_cons_self] at hlate
      rw [List.cons_append, responseFrom_idle]
      by_cases hnow : maxTimeout ≤ timeout + 1
      · exact ⟨_, pre, if_pos hnow⟩
      · rw [if_neg hnow]
        exact ih hpre.tail (by omega) (by omega) fuel hlt
    | some b =>
      rw [List.count_cons_of_ne (by simp)] at hlate
      rw [List.cons_append, responseFrom_char, if_neg (hpre b List.mem_cons_self)]
      exact ih hpre.tail htime hlate fuel hlt

/-- The same before the first character has come. -/
theorem awaitFrom_intime (hpre : NoLineEnd pre) (hc : EndsLine c)
    (htime : timeout + pre.count none < maxTimeout) (hfuel : pre.length + 1 < fuel) :
    awaitFrom fuel timeout s ⟨sent, pre ++ some c :: rest⟩ =
      some (s.kprint (aiResponse ++ (pre.reduceOption ++ [byteOf '\n'])), ⟨sent, rest⟩) := by
  obtain ⟨fuel, rfl⟩ := Nat.exists_eq_succ_of_ne_zero (Nat.ne_zero_of_lt hfuel)
  have hroom : pre.length < fuel := Nat.lt_of_succ_lt_succ hfuel
  induction pre generalizing fuel timeout with
  | nil =>
    have hlt : timeout < maxTimeout := Nat.lt_of_le_of_lt (Nat.le_add_right ..) htime
    have hresponse := @responseFrom_intime (s.kprint aiResponse) sent [] rest c fuel timeout hpre hc
      htime hroom
    rw [List.nil_append] at hresponse ⊢
    rw [awaitFrom_char hlt, hresponse, kprint_kprint]
  | cons o pre ih =>
    have hlt : timeout < maxTimeout := Nat.lt_of_le_of_lt (Nat.le_add_right ..) htime
    cases o with
    | none =>
      obtain ⟨fuel, rfl⟩ := Nat.exists_eq_succ_of_ne_zero (Nat.ne_zero_of_lt hroom)
      rw [List.count_cons_self] at htime
      rw [List.cons_append, awaitFrom_idle hlt, List.reduceOption_cons_of_none]
      exact ih hpre.tail (by omega) fuel (Nat.lt_of_succ_lt_succ hfuel)
        (Nat.lt_of_succ_lt_succ hroom)
    | some b =>
      have hresponse := @responseFrom_intime (s.kprint aiResponse) sent _ rest c fuel timeout hpre
        hc htime hroom
      rw [List.cons_append] at hresponse ⊢
      rw [awaitFrom_char hlt, hresponse, kprint_kprint]

theorem awaitFrom_notAll (hpre : NoLineEnd pre) (htime : timeout < maxTimeout)
    (hlate : maxTimeout ≤ timeout + pre.count none) (hfuel : pre.length + 1 < fuel) :
    ∃ s' left, awaitFrom fuel timeout s ⟨sent, pre ++ some c :: rest⟩ =
      some (s', ⟨sent, left ++ some c :: rest⟩) := by
  obtain ⟨fuel, rfl⟩ := Nat.exists_eq_succ_of_ne_zero (Nat.ne_zero_of_lt hfuel)
  have hroom : pre.length < fuel := Nat.lt_of_succ_lt_succ hfuel
  induction pre generalizing fuel timeout with
  | nil =>
    rw [List.count_nil] at hlate
    omega
  | cons o pre ih =>
    cases o with
    | none =>
      obtain ⟨fuel, rfl⟩ := Nat.exists_eq_succ_of_ne_zero (Nat.ne_zero_of_lt hroom)
      rw [List.count_cons_self] at hlate
      rw [List.cons_append, awaitFrom_idle htime]
      by_cases hnow : maxTimeout ≤ timeout + 1
      · exact ⟨_, pre, awaitFrom_late hnow⟩
      · exact ih hpre.tail (by omega) (by omega) fuel (Nat.lt_of_succ_lt_succ hfuel)
          (Nat.lt_of_succ_lt_succ hroom)
    | some b =>
      rw [List.cons_append, awaitFrom_char htime, ← List.cons_append]
      exact responseFrom_late hpre htime hlate hroom

/-! ## The command always ends -/

theorem responseFrom_ends {incoming : List (Option UInt8)} (htime : timeout < maxTimeout)
    (hfuel : maxTimeout - timeout + incoming.length ≤ fuel) :
    ∃ s' left, responseFrom fuel timeout s ⟨sent, incoming⟩ = some (s', ⟨sent, left⟩) := by
  induction fuel generalizing timeout s incoming with
  | zero => omega
  | succ fuel ih =>
    cases incoming with
    | nil =>
      rw [responseFrom_silent]
      by_cases hnow : maxTimeout ≤ timeout + 1
      · exact ⟨_, _, if_pos hnow⟩
      · rw [if_neg hnow]
        exact ih (by omega) (by omega)
    | cons o rest =>
      rw [List.length_cons] at hfuel
      cases o with
      | none =>
        rw [responseFrom_idle]
        by_cases hnow : maxTimeout ≤ timeout + 1
        · exact ⟨_, _, if_pos hnow⟩
        · rw [if_neg hnow]
          exact ih (by omega) (by omega)
      | some b =>
        rw [responseFrom_char]
        by_cases hb : EndsLine b
        · exact ⟨_, _, if_pos hb⟩
        · rw [if_neg hb]
          exact ih htime (by omega)

theorem awaitFrom_ends {incoming : List (Option UInt8)}
    (hfuel : maxTimeout - timeout + incoming.length < fuel) :
    ∃ s' left, awaitFrom fuel timeout s ⟨sent, incoming⟩ = some (s', ⟨sent, left⟩) := by
  induction fuel generalizing timeout incoming with
  | zero => omega
  | succ fuel ih =>
    by_cases htime : timeout < maxTimeout
    · cases incoming with
      | nil =>
        rw [awaitFrom_silent htime]
        exact ih (by rw [List.length_nil] at hfuel ⊢; omega)
      | cons o rest =>
        cases o with
        | none =>
          rw [awaitFrom_idle htime]
          exact ih (by rw [List.length_cons] at hfuel; omega)
        | some b =>
          rw [awaitFrom_char htime]
          exact responseFrom_ends htime (Nat.le_of_lt_succ hfuel)
    · exact ⟨_, _, awaitFrom_late (Nat.le_of_not_lt htime)⟩

/-! ## Question and answer -/

theorem foldl_serialWriteChar (l : SerialLine) (str : List UInt8) :
    str.foldl serialWriteChar l = { l with sent := l.sent ++ str } := by
  induction str generalizing l with
  | nil => exact congrArg (fun sent => { l with sent := sent }) (List.append_nil l.sent).symm
  | cons c str ih =>
    rw [List.foldl_cons, ih, serialWriteChar, List.append_assoc, List.singleton_append]

/-- The line that is sent. -/
def question (ws : List (List UInt8)) : List UInt8 :=
  aiQuestion ++ [space].intercalate ws ++ [byteOf '\n']

theorem shellCmdAi_eq (hargs : List.Forall₂ (Holds s.strtok.mem) ps ws)
    (h0 : ∀ w ∈ ws, 0 ∉ w) (hlen : ∀ w ∈ ws, w.length < loopFuel) (hws : ws ≠ []) (q : Nat) :
    shellCmdAi s ⟨sent, rest⟩ (q :: ps).length (q :: ps) =
      awaitFrom (maxTimeout + rest.length + 1) 0
        (s.kprint (byteOf '\n' :: (aiSending ++ aiWaiting))) ⟨sent ++ question ws, rest⟩ := by
  have hloop := eachArgFrom_eq serialWriteChar ⟨sent ++ aiQuestion, rest⟩ [q] hargs h0 hlen
  have hone : ¬ (q :: ps).length < 2 := by
    have hpos := List.length_pos_iff.mpr hws
    rw [← hargs.length_eq] at hpos
    rw [List.length_cons]
    omega
  have hrounds : (q :: ps).length - 1 = ps.length := rfl
  have hprints : (s.kprints [[byteOf '\n'], aiSending]).kprint aiWaiting =
      s.kprint (byteOf '\n' :: (aiSending ++ aiWaiting)) := by
    rw [Shell.kprints, List.foldl_cons, List.foldl_cons, List.foldl_nil, kprint_kprint,
      kprint_kprint, List.singleton_append]
  rw [List.singleton_append, List.length_singleton] at hloop
  rw [shellCmdAi, if_neg hone, hrounds, serialWriteString, foldl_serialWriteChar]
  simp only
  rw [hprints, show (s.kprints [[byteOf '\n'], aiSending]).strtok.mem = s.strtok.mem from rfl,
    hloop, Option.bind_some, foldl_serialWriteChar]
  simp only [serialWriteChar, question, List.append_assoc]

/-- **Question and answer.** The command sends its arguments as one line and, whatever finite
input comes in, ends. Where a line comes in, it is printed up to its end, and no more is read,
if and only if fewer than `max_timeout` polls in all find nothing before that. -/
theorem ai_answered_iff (hargs : List.Forall₂ (Holds s.strtok.mem) ps ws)
    (h0 : ∀ w ∈ ws, 0 ∉ w) (hlen : ∀ w ∈ ws, w.length < loopFuel) (hws : ws ≠ []) (q : Nat)
    (sent : List UInt8) (incoming : List (Option UInt8)) :
    ∃ s' left, shellCmdAi s ⟨sent, incoming⟩ (q :: ps).length (q :: ps) =
        some (s', ⟨sent ++ question ws, left⟩) ∧
      ∀ pre c rest, incoming = pre ++ some c :: rest → NoLineEnd pre → EndsLine c →
        (s' = s.kprint (byteOf '\n' :: (aiSending ++ aiWaiting) ++
            (aiResponse ++ (pre.reduceOption ++ [byteOf '\n']))) ∧ left = rest ↔
          pre.count none < maxTimeout) := by
  obtain ⟨s', left, hends⟩ := @awaitFrom_ends (s.kprint (byteOf '\n' :: (aiSending ++ aiWaiting)))
    (sent ++ question ws) (maxTimeout + incoming.length + 1) 0 incoming (Nat.lt_succ_self _)
  refine ⟨s', left, (shellCmdAi_eq hargs h0 hlen hws q).trans hends, ?_⟩
  rintro pre c rest rfl hpre hc
  have hfuel : pre.length + 1 < maxTimeout + (pre ++ some c :: rest).length + 1 := by
    rw [List.length_append, List.length_cons]
    omega
  by_cases htime : pre.count none < maxTimeout
  · refine iff_of_true ?_ htime
    rw [awaitFrom_intime hpre hc (by rwa [Nat.zero_add]) hfuel, kprint_kprint] at hends
    obtain ⟨rfl, hline⟩ := Prod.mk.inj (Option.some.inj hends)
    exact ⟨rfl, (SerialLine.mk.inj hline).2.symm⟩
  · refine iff_of_false (fun h => ?_) htime
    obtain ⟨_, left', hlate⟩ := awaitFrom_notAll hpre (show 0 < maxTimeout by decide)
      (by rw [Nat.zero_add]; exact Nat.le_of_not_lt htime) hfuel
    rw [hlate] at hends
    have hleft := (SerialLine.mk.inj (Prod.mk.inj (Option.some.inj hends)).2).2
    have hlength := congrArg List.length (hleft.trans h.2)
    rw [List.length_append, List.length_cons] at hlength
    omega

/-- `hi` at address 1. -/
def askShell : Shell := { freshShell with strtok := typed (ascii ['h', 'i']) }

theorem ai_answered_iff_hi :
    ∃ s', shellCmdAi askShell ⟨[], [none, some (byteOf 'o'), none, some (byteOf '\n'), none]⟩ 2
        [0x1000, 1] = some (s', ⟨ascii ['A', 'I', '_', 'Q', 'U', 'E', 'S', 'T', 'I', 'O', 'N', ':',
          'h', 'i', '\n'], [none]⟩) ∧
      s' = askShell.kprint (byteOf '\n' :: (aiSending ++ aiWaiting) ++
        (aiResponse ++ ascii ['o', '\n'])) := by
  obtain ⟨s', left, hrun, hanswer⟩ := @ai_answered_iff askShell [1] [ascii ['h', 'i']]
    (.cons (holds_typed (by decide)) .nil) (by decide) (List.forall_mem_singleton.mpr (by decide))
    (by decide) 0x1000 [] [none, some (byteOf 'o'), none, some (byteOf '\n'), none]
  obtain ⟨hs, rfl⟩ := (hanswer [none, some (byteOf 'o'), none] (byteOf '\n') [none] rfl
    (fun c hc => by
      obtain rfl : c = byteOf 'o' := by simpa using hc
      decide) (.inl rfl)).mpr (by decide)
  exact ⟨s', hrun, hs⟩

end SynapseKernel.Console
