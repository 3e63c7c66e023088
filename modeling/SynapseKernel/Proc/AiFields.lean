import SynapseKernel.Proc.AiMessage
import SynapseKernel.Str.Atoi

/-! # The fields of a message

`parse_ai_action` goes on from a key by one byte more than the key has. Behind the colon
of `"pid":` that byte is the first digit unless white space comes first, and a message
without the key stands for the pid that `memset` left (`pid_named_iff`). In front of a
text the loop skips blanks and quotes, so that blanks at its beginning are lost and an
empty text is taken for what follows its closing quote (`text_stored_iff`). -/
namespace SynapseKernel.Proc
open SynapseKernel.Word SynapseKernel.ByteMemory SynapseKernel.Str SynapseKernel.Numeral

def pidKey : List UInt8 := ascii ['"', 'p', 'i', 'd', '"', ':']

/-- The key of the text that is taken from a message. -/
def textKey : AiActionType → List UInt8
  | .alert => messageKey
  | .kill => reasonKey
  | .pause => reasonKey
  | .resume => reasonKey

/-- The text that is taken from a message. -/
def storedText (action : AiAction) : List UInt8 :=
  match action.type with
  | .alert => action.message
  | .kill => action.reason
  | .pause => action.reason
  | .resume => action.reason

/-- The white space of JSON. -/
def jsonSpaces : List UInt8 := [32, 9, 10, 13]

/-- What follows a value in an object: white space and a comma or the closing brace. -/
def ValueEnds (post : List UInt8) : Prop :=
  ∃ blanks c rest, post = blanks ++ c :: rest ∧ (∀ b ∈ blanks, b ∈ jsonSpaces) ∧
    (c = byteOf ',' ∨ c = byteOf '}')

/-- The first `"pid":` of a text is followed by white space and a number, or there is none. -/
inductive NamesPid (text : List UInt8) : Option (List UInt8 × Nat) → Prop
  | absent : ¬ pidKey <:+: text → NamesPid text none
  | number {pre blanks post : List UInt8} {n : Nat} :
      FirstAt pidKey text pre (blanks ++ (numeralOf n ++ post)) →
      (∀ b ∈ blanks, b ∈ jsonSpaces) → ValueEnds post → n < 2 ^ 31 →
      NamesPid text (some (blanks, n))

/-- The parser fails, or it returns an action for the process that is named. -/
def ActsOnNamed (atoi : Mem → Nat → Nat) (m : Mem) (json : Nat) (named : Option Nat) : Prop :=
  ∀ action, parseAiAction atoi m json = some (some action) → named = some action.pid

/-- The first text field that an action of this type reads is written with one blank and `s`. -/
structure WritesText (text : List UInt8) (type : AiActionType) (s : List UInt8) : Prop where
  written : ∃ pre post,
    FirstAt (textKey type) text pre (32 :: byteOf '"' :: (s ++ byteOf '"' :: post)) ∧ ValueEnds post
  noQuote : byteOf '"' ∉ s
  noBackslash : byteOf '\\' ∉ s

variable {m : Mem} {json : Nat} {text pre rest s key skipped : List UInt8} {b : UInt8}
  {atoi : Mem → Nat → Nat} {type : AiActionType}

/-! ## Where a field's value is looked for -/

theorem fieldValue_absent (hm : Holds m json text) (h0 : 0 ∉ text) (hkey : 0 ∉ key) (hne : key ≠ [])
    (hno : ¬ key <:+: text) (distance : Nat) (skipped : List UInt8) :
    fieldValue m json key distance skipped = some none := by
  rw [fieldValue, (hm.strstr_eq_none_iff h0 hkey hne).mpr hno]

/-- One byte is left out behind the key. -/
theorem fieldValue_found (hm : Holds m json text) (h0 : 0 ∉ text) (hkey : 0 ∉ key) (hne : key ≠ [])
    (hf : FirstAt key text pre (b :: rest)) (hskipped : 0 ∉ skipped) :
    ∃ q, fieldValue m json key (key.length + 1) skipped = some (some q) ∧
      0 ∉ rest.dropWhile (· ∈ skipped) ∧ Holds m q (rest.dropWhile (· ∈ skipped)) := by
  obtain ⟨hsplit, hlen⟩ := hf.behind
  have hrest0 : 0 ∉ rest := fun hr => h0 (hsplit ▸ List.mem_append_right _ hr)
  have hrest : Holds m (json + pre.length + (key.length + 1)) rest := by
    have hright := (hsplit ▸ hm).append_right
    rwa [hlen, ← Nat.add_assoc] at hright
  obtain ⟨q, hq, -, hq'⟩ := hrest.skip_eq hrest0 hskipped
  refine ⟨q, ?_, fun hz => hrest0 ((List.dropWhile_sublist _).mem hz), hq'⟩
  rw [fieldValue, hm.strstr_first h0 hkey hne hf]
  simp only [hq, Option.map_some]

/-- A message whose type is tested for gives an action of that type. -/
theorem parseAiAction_found (hm : Holds m json text)
    (htype : firstType m json typeTests = some (some type)) (atoi : Mem → Nat → Nat) :
    ∃ action, parseAiAction atoi m json = some (some action) ∧
      (type ≠ .alert → parsePid atoi m json = some action.pid) ∧
      parseText m json (textKey type) ((textKey type).length + 1) = some (storedText action) := by
  obtain ⟨message, hmessage⟩ := parseText_isSome hm messageKey 11
  obtain ⟨pid, hpid⟩ := parsePid_isSome hm atoi
  obtain ⟨reason, hreason⟩ := parseText_isSome hm reasonKey 10
  rw [parseAiAction, htype]
  cases type with
  | alert =>
    refine ⟨⟨.alert, 0, [], message⟩, ?_, fun hne => absurd rfl hne, hmessage⟩
    simp only [hmessage, Option.map_some]
  | kill =>
    refine ⟨⟨.kill, pid, reason, []⟩, ?_, fun _ => hpid, hreason⟩
    simp only [hpid, hreason, Option.map_some, Option.bind_some]
  | pause =>
    refine ⟨⟨.pause, pid, reason, []⟩, ?_, fun _ => hpid, hreason⟩
    simp only [hpid, hreason, Option.map_some, Option.bind_some]
  | resume =>
    refine ⟨⟨.resume, pid, reason, []⟩, ?_, fun _ => hpid, hreason⟩
    simp only [hpid, hreason, Option.map_some, Option.bind_some]

/-! ## The pid -/

/-- The bytes that are skipped in front of the number. -/
def pidSkipped : List UInt8 := ascii [' ', '\t', ':']

theorem ValueEnds.head_stops {post : List UInt8} (h : ValueEnds post) :
    ∀ b ∈ post.head?, ¬ IsDigit b := by
  obtain ⟨blanks, c, rest, rfl, hblanks, hc⟩ := h
  have hspace : ∀ b ∈ jsonSpaces, ¬ IsDigit b := forall_of_all (by decide)
  intro b hb
  cases blanks with
  | nil =>
    obtain rfl := Option.some.inj hb
    rcases hc with rfl | rfl <;> decide
  | cons d blanks =>
    obtain rfl := Option.some.inj hb
    exact hspace _ (hblanks _ List.mem_cons_self)

/-- Behind what is skipped there are blanks and then the digits, if there are any. -/
theorem beginsWith_skipped {blanks ds post : List UInt8} (hblanks : ∀ b ∈ blanks, b ∈ jsonSpaces)
    (hds : ∀ b ∈ ds, IsDigit b) (hpost : ValueEnds post) :
    BeginsWith ((blanks ++ (ds ++ post)).dropWhile (· ∈ pidSkipped)) ds := by
  have hjson : ∀ b ∈ jsonSpaces, b ∈ spaces := forall_of_all (by decide)
  have hkept : ∀ {l : List UInt8}, (∀ b ∈ l, b ∈ jsonSpaces) →
      ∀ b ∈ l.dropWhile (· ∈ pidSkipped), b ∈ spaces :=
    fun hl b hb => hjson b (hl b ((List.dropWhile_sublist _).mem hb))
  cases ds with
  | nil =>
    obtain ⟨blanks', c, rest, rfl, hblanks', hc⟩ := hpost
    have hstop : c ∉ pidSkipped ∧ ¬ IsDigit c ∧ c ∉ spaces ∧ c ≠ byteOf '-' ∧ c ≠ byteOf '+' := by
      rcases hc with rfl | rfl <;> decide
    have hall : ∀ b ∈ blanks ++ blanks', b ∈ jsonSpaces :=
      List.forall_mem_append.mpr ⟨hblanks, hblanks'⟩
    refine ⟨⟨(blanks ++ blanks').dropWhile (· ∈ pidSkipped), c :: rest, ?_, hkept hall, ?_, ?_⟩,
      hds⟩
    · rw [List.nil_append, ← List.append_assoc, List.nil_append]
      refine dropWhile_append_head fun b hb => ?_
      obtain rfl := Option.some.inj hb
      exact decide_eq_false hstop.1
    · intro b hb
      obtain rfl := Option.some.inj hb
      exact hstop.2.1
    · intro _ b hb
      obtain rfl := Option.some.inj hb
      exact hstop.2.2
  | cons d ds =>
    refine ⟨⟨blanks.dropWhile (· ∈ pidSkipped), post, ?_, hkept hblanks, hpost.head_stops, ?_⟩,
      hds⟩
    · refine dropWhile_append_head fun b hb => decide_eq_false fun hin => ?_
      obtain rfl := Option.some.inj hb
      have hnot : ∀ b ∈ pidSkipped, ¬ IsDigit b := forall_of_all (by decide)
      exact hnot _ hin (hds _ List.mem_cons_self)
    · intro hnil
      cases hnil

/-- The key is left by one byte more than it has. -/
theorem parsePid_eq (atoi : Mem → Nat → Nat) (m : Mem) (json : Nat) : parsePid atoi m json =
    (fieldValue m json pidKey (pidKey.length + 1) pidSkipped).map fun p =>
      match p with
      | none => 0
      | some p => u32 (atoi m p) := rfl

theorem parsePid_absent (hm : Holds m json text) (h0 : 0 ∉ text) (hno : ¬ pidKey <:+: text)
    (atoi : Mem → Nat → Nat) : parsePid atoi m json = some 0 := by
  rw [parsePid_eq, fieldValue_absent hm h0 (by decide) (by decide) hno]
  rfl

/-- What is read where white space and digits follow the byte behind the key. -/
theorem parsePid_found {blanks ds post : List UInt8} (hatoi : StandardAtoi atoi)
    (hm : Holds m json text) (h0 : 0 ∉ text)
    (hf : FirstAt pidKey text pre (b :: (blanks ++ (ds ++ post))))
    (hblanks : ∀ b ∈ blanks, b ∈ jsonSpaces) (hds : ∀ b ∈ ds, IsDigit b) (hpost : ValueEnds post)
    (hv : value ds < 2 ^ 31) : parsePid atoi m json = some (value ds) := by
  have hkey : 0 ∉ pidKey := by decide
  have hskipped : 0 ∉ pidSkipped := by decide
  obtain ⟨q, hq, hq0, hheld⟩ := fieldValue_found hm h0 hkey (by decide) hf hskipped
  rw [parsePid_eq, hq]
  simp only [Option.map_some,
    hatoi m q _ ds hheld hq0 (beginsWith_skipped hblanks hds hpost) hv, Option.some.injEq]
  exact u32_of_lt (Nat.lt_trans hv (by decide))

/-- Of a number right behind the colon the first digit is lost. -/
theorem parsePid_adjacent {post : List UInt8} {n : Nat} (hatoi : StandardAtoi atoi)
    (hm : Holds m json text) (h0 : 0 ∉ text) (hf : FirstAt pidKey text pre (numeralOf n ++ post))
    (hpost : ValueEnds post) (hlt : n < 2 ^ 31) : parsePid atoi m json = some n ↔ n = 0 := by
  obtain ⟨b, ds, hnum⟩ := List.exists_cons_of_ne_nil (numeralOf_ne_nil n)
  have hdigits := isDigit_of_mem n
  rw [hnum] at hdigits hf
  have hle : value ds ≤ n := by
    have hvalue := value_numeralOf n
    have hcons : b :: ds = [b] ++ ds := rfl
    rw [hnum, hcons, value_append] at hvalue
    omega
  have hds : ∀ c ∈ ds, IsDigit c := fun c hc => hdigits c (List.mem_cons_of_mem _ hc)
  have hfirst : FirstAt pidKey text pre (b :: ([] ++ (ds ++ post))) := hf
  have hnone : ∀ c ∈ ([] : List UInt8), c ∈ jsonSpaces := fun c hc => absurd hc List.not_mem_nil
  rw [parsePid_found hatoi hm h0 hfirst hnone hds hpost (Nat.lt_of_le_of_lt hle hlt),
    Option.some.injEq]
  exact value_tail hnum

/-- The action of a message that is not an alert is for the pid that is parsed. -/
theorem actsOnNamed_iff (hm : Holds m json text)
    (htype : firstType m json typeTests = some (some type)) (hne : type ≠ .alert)
    (atoi : Mem → Nat → Nat) (named : Option Nat) :
    ActsOnNamed atoi m json named ↔ named = parsePid atoi m json := by
  obtain ⟨action, haction, hpid, -⟩ := parseAiAction_found hm htype atoi
  rw [hpid hne]
  refine ⟨fun h => h action haction, fun he a ha => ?_⟩
  obtain rfl := Option.some.inj (Option.some.inj (haction.symm.trans ha))
  exact he

/-- **The pid of an action.** For every message whose type is kill, pause or resume, in which
`"pid":` does not stand or its first place has white space and a number below `2 ^ 31` behind it,
the action is for the process that is named if and only if there is such a number and it has
white space in front or is `0`. -/
theorem pid_named_iff {named : Option (List UInt8 × Nat)} (hatoi : StandardAtoi atoi)
    (hm : Holds m json text) (h0 : 0 ∉ text)
    (htype : firstType m json typeTests = some (some type)) (hne : type ≠ .alert)
    (hn : NamesPid text named) :
    ActsOnNamed atoi m json (named.map Prod.snd) ↔
      ∃ blanks n, named = some (blanks, n) ∧ (blanks ≠ [] ∨ n = 0) := by
  rw [actsOnNamed_iff hm htype hne]
  cases hn with
  | absent hno =>
    rw [parsePid_absent hm h0 hno]
    refine iff_of_false (fun he => by cases he) ?_
    rintro ⟨blanks, n, he, -⟩
    cases he
  | @number pre blanks post n hfirst hblanks hpost hlt =>
    have hright : (∃ blanks' n', some (blanks, n) = some (blanks', n') ∧ (blanks' ≠ [] ∨ n' = 0)) ↔
        blanks ≠ [] ∨ n = 0 := by
      refine ⟨?_, fun h => ⟨blanks, n, rfl, h⟩⟩
      rintro ⟨blanks', n', he, h⟩
      obtain ⟨rfl, rfl⟩ := Prod.mk.inj (Option.some.inj he)
      exact h
    rw [hright, Option.map_some]
    cases blanks with
    | nil =>
      rw [eq_comm, parsePid_adjacent hatoi hm h0 hfirst hpost hlt]
      exact ⟨.inr, fun h => h.resolve_left fun hb => hb rfl⟩
    | cons c blanks =>
      have hrest : ∀ d ∈ blanks, d ∈ jsonSpaces := fun d hd => hblanks d (List.mem_cons_of_mem _ hd)
      rw [parsePid_found hatoi hm h0 hfirst hrest (isDigit_of_mem n) hpost
        (by rwa [value_numeralOf]), value_numeralOf]
      exact iff_of_true rfl (.inl (List.cons_ne_nil _ _))

/-- `{"type": "kill", "pid":` and what follows. -/
def killMessage (rest : List UInt8) : List UInt8 :=
  byteOf '{' :: (typePattern .kill ++ (ascii [',', ' '] ++ (pidKey ++ rest)))

/-- The first of the tests. -/
theorem firstType_kill (hm : Holds m json text) (h0 : 0 ∉ text)
    (h : typePattern .kill <:+: text) : firstType m json typeTests = some (some .kill) := by
  obtain ⟨r, hr⟩ := hm.strstr_isSome (typePattern .kill) json
  have hclean : 0 ∉ typePattern .kill := by decide
  have hnone := hm.strstr_eq_none_iff h0 hclean (by decide)
  cases r with
  | none => exact absurd h (hnone.mp hr)
  | some p => rw [typeTests, firstType, hr]

theorem firstType_killMessage (hm : Holds m json (killMessage rest)) (h0 : 0 ∉ killMessage rest) :
    firstType m json typeTests = some (some .kill) := by
  refine firstType_kill hm h0 ⟨[byteOf '{'], ascii [',', ' '] ++ (pidKey ++ rest), ?_⟩
  rw [killMessage, List.append_assoc, List.singleton_append]

/-- `{"type": "kill", "pid": 5}`. -/
theorem pid_named_iff_blank :
    ActsOnNamed Str.atoi (place (killMessage (ascii [' ', '5', '}']))) 0 (some 5) := by
  have hm : Holds (place (killMessage (ascii [' ', '5', '}']))) 0
      (killMessage (ascii [' ', '5', '}'])) := holds_place (by decide)
  have hnumeral : numeralOf 5 = ascii ['5'] := numeralOf_of_lt (by decide)
  have hfirst : FirstAt pidKey (killMessage (ascii [' ', '5', '}']))
      (byteOf '{' :: (typePattern .kill ++ ascii [',', ' ']))
      (ascii [' '] ++ (numeralOf 5 ++ ascii ['}'])) := by
    rw [hnumeral]
    exact firstAt_of_forall (by decide) (by decide)
  have hends : ValueEnds (ascii ['}']) :=
    ⟨[], byteOf '}', [], rfl, fun b hb => absurd hb List.not_mem_nil, .inr rfl⟩
  exact (pid_named_iff standardAtoi_atoi hm (by decide) (firstType_killMessage hm (by decide))
    (by decide) (.number hfirst (forall_of_all (by decide)) hends (by decide))).mpr
      ⟨_, 5, rfl, .inl (by decide)⟩

/-- `{"type": "kill", "pid":5}` asks for pid 0. -/
theorem not_actsOnNamed_close :
    NamesPid (killMessage (ascii ['5', '}'])) (some ([], 5)) ∧
      ¬ ActsOnNamed Str.atoi (place (killMessage (ascii ['5', '}']))) 0 (some 5) := by
  have hm : Holds (place (killMessage (ascii ['5', '}']))) 0 (killMessage (ascii ['5', '}'])) :=
    holds_place (by decide)
  have hnumeral : numeralOf 5 = ascii ['5'] := numeralOf_of_lt (by decide)
  have hfirst : FirstAt pidKey (killMessage (ascii ['5', '}']))
      (byteOf '{' :: (typePattern .kill ++ ascii [',', ' ']))
      ([] ++ (numeralOf 5 ++ ascii ['}'])) := by
    rw [hnumeral]
    exact firstAt_of_forall (by decide) (by decide)
  have hends : ValueEnds (ascii ['}']) :=
    ⟨[], byteOf '}', [], rfl, fun b hb => absurd hb List.not_mem_nil, .inr rfl⟩
  have hnone : ∀ b ∈ ([] : List UInt8), b ∈ jsonSpaces := fun b hb => absurd hb List.not_mem_nil
  refine ⟨.number hfirst hnone hends (by decide), fun hacts => ?_⟩
  rw [actsOnNamed_iff hm (firstType_killMessage hm (by decide)) (by decide), eq_comm,
    parsePid_adjacent standardAtoi_atoi hm (by decide) hfirst hends (by decide)] at hacts
  exact absurd hacts (by decide)

/-! ## The text -/

/-- The bytes that are skipped in front of a text. -/
def textSkipped : List UInt8 := ascii [' ', '\t', '"']

/-- The text has a first byte, and it is not skipped. -/
def BeginsPlain (s : List UInt8) : Prop := ∃ b ∈ s.head?, b ≠ 32 ∧ b ≠ 9

theorem textKey_clean (type : AiActionType) : 0 ∉ textKey type ∧ textKey type ≠ [] := by
  cases type <;> exact ⟨by decide, by decide⟩

/-- What is dropped of a list that holds something else ends before that. -/
theorem dropWhile_eq_cons {α : Type} {keep : α → Bool} {l : List α} {c : α} (hc : c ∈ l)
    (hkeep : keep c = false) : ∃ b r, l.dropWhile keep = b :: r ∧ keep b = false := by
  induction l with
  | nil => exact absurd hc List.not_mem_nil
  | cons a l ih =>
    rw [List.dropWhile_cons]
    cases ha : keep a with
    | false => exact ⟨a, l, if_neg Bool.false_ne_true, ha⟩
    | true =>
      rw [if_pos rfl]
      refine ih ((List.mem_cons.mp hc).resolve_left fun he => ?_)
      rw [he, ha] at hkeep
      cases hkeep

/-- What is stored of a text in quotes and what follows it. -/
theorem parseText_found {post : List UInt8} (hm : Holds m json text) (h0 : 0 ∉ text)
    (hf : FirstAt (textKey type) text pre (32 :: byteOf '"' :: (s ++ byteOf '"' :: post))) :
    parseText m json (textKey type) ((textKey type).length + 1) =
      some ((((s ++ byteOf '"' :: post).dropWhile (· ∈ textSkipped)).takeWhile
        (· ≠ byteOf '"')).take 255) := by
  obtain ⟨hkey, hne⟩ := textKey_clean type
  have hskipped : 0 ∉ textSkipped := by decide
  obtain ⟨q, hq, hq0, hheld⟩ := fieldValue_found hm h0 hkey hne hf hskipped
  have hquote : byteOf '"' ∈ textSkipped := by decide
  rw [List.dropWhile_cons, if_pos (decide_eq_true hquote)] at hq0 hheld
  have htext : parseText m json (textKey type) ((textKey type).length + 1) =
      (fieldValue m json (textKey type) ((textKey type).length + 1) textSkipped).map fun p =>
        match p with
        | none => []
        | some p => copyUntil m (byteOf '"') 255 p := rfl
  rw [htext, hq]
  simp only [Option.map_some, hheld.copyUntil_eq hq0]

/-- A text that begins plainly is stored as far as there is room. -/
theorem take_of_beginsPlain {post : List UInt8} (hquote : byteOf '"' ∉ s) (h : BeginsPlain s) :
    (((s ++ byteOf '"' :: post).dropWhile (· ∈ textSkipped)).takeWhile
      (· ≠ byteOf '"')).take 255 = s.take 255 := by
  obtain ⟨b, hb, hblank, htab⟩ := h
  have hsplit : ∀ d ∈ textSkipped, d = 32 ∨ d = 9 ∨ d = byteOf '"' :=
    forall_of_all (by decide)
  have hplain : b ∉ textSkipped := by
    intro hin
    rcases hsplit b hin with he | he | he
    · exact hblank he
    · exact htab he
    · exact hquote (he ▸ List.mem_of_head? hb)
  have hdrop : (s ++ byteOf '"' :: post).dropWhile (· ∈ textSkipped) = s ++ byteOf '"' :: post := by
    refine dropWhile_of_head fun c hc => ?_
    rw [List.head?_append_of_ne_nil _ (List.ne_nil_of_mem (List.mem_of_head? hb))] at hc
    obtain rfl := Option.some.inj (hb.symm.trans hc)
    exact decide_eq_false hplain
  have hinside : ∀ c ∈ s, c ≠ byteOf '"' := fun c hc he => hquote (he ▸ hc)
  have htake : (s ++ byteOf '"' :: post).takeWhile (· ≠ byteOf '"') = s := by
    rw [List.takeWhile_append_of_pos fun c hc => decide_eq_true (hinside c hc),
      List.takeWhile_cons, if_neg (by decide), List.append_nil]
  rw [hdrop, htake]

/-- What is stored begins with a byte that is not skipped. -/
theorem beginsPlain_of_take {post : List UInt8} (hpost : ValueEnds post)
    (h : (((s ++ byteOf '"' :: post).dropWhile (· ∈ textSkipped)).takeWhile
      (· ≠ byteOf '"')).take 255 = s.take 255) : BeginsPlain s := by
  obtain ⟨blanks, c, rest, rfl, -, hc⟩ := hpost
  have hcs : c ∉ textSkipped := by
    rcases hc with rfl | rfl <;> decide
  have hmem : c ∈ s ++ byteOf '"' :: (blanks ++ c :: rest) :=
    List.mem_append_right _ (List.mem_cons_of_mem _ (List.mem_append_right _ List.mem_cons_self))
  obtain ⟨b, r, hdrop, hb⟩ :=
    @dropWhile_eq_cons _ (fun d => decide (d ∈ textSkipped)) _ _ hmem (decide_eq_false hcs)
  have hbs : b ∉ textSkipped := of_decide_eq_false hb
  have hbq : b ≠ byteOf '"' := fun he => hbs (he ▸ by decide)
  rw [hdrop, List.takeWhile_cons, if_pos (decide_eq_true hbq), List.take_succ_cons] at h
  refine ⟨b, ?_, fun he => hbs (he ▸ by decide), fun he => hbs (he ▸ by decide)⟩
  cases s with
  | nil => cases h
  | cons d s =>
    rw [List.take_succ_cons] at h
    rw [(List.cons.inj h).1]
    exact rfl

/-- **The text of an action.** For every message in which the reason, for an alert the message,
is first written as a string `s` behind one blank, the first 255 bytes of `s` are stored if and
only if `s` has a first byte and that is no blank and no tab. -/
theorem text_stored_iff (hm : Holds m json text) (h0 : 0 ∉ text)
    (htype : firstType m json typeTests = some (some type)) (hw : WritesText text type s)
    (atoi : Mem → Nat → Nat) :
    (∃ action, parseAiAction atoi m json = some (some action) ∧ storedText action = s.take 255) ↔
      BeginsPlain s := by
  obtain ⟨action, haction, -, hstored⟩ := parseAiAction_found hm htype atoi
  obtain ⟨pre, post, hfirst, hpost⟩ := hw.written
  rw [parseText_found hm h0 hfirst, Option.some.injEq] at hstored
  constructor
  · rintro ⟨action', haction', hs⟩
    obtain rfl := Option.some.inj (Option.some.inj (haction.symm.trans haction'))
    exact beginsPlain_of_take hpost (hstored.trans hs)
  · intro hplain
    exact ⟨action, haction, hstored.symm.trans (take_of_beginsPlain hw.noQuote hplain)⟩

/-- `{"type": "kill", "reason": "` and what follows. -/
def reasonMessage (rest : List UInt8) : List UInt8 :=
  byteOf '{' ::
    (typePattern .kill ++ (ascii [',', ' '] ++ (reasonKey ++ (ascii [' ', '"'] ++ rest))))

theorem firstType_reasonMessage (hm : Holds m json (reasonMessage rest))
    (h0 : 0 ∉ reasonMessage rest) : firstType m json typeTests = some (some .kill) := by
  refine firstType_kill hm h0 ?_
  refine ⟨[byteOf '{'], ascii [',', ' '] ++ (reasonKey ++ (ascii [' ', '"'] ++ rest)), ?_⟩
  rw [reasonMessage, List.append_assoc, List.singleton_append]

/-- The reason `ab`. -/
theorem text_stored_iff_plain :
    ∃ action, parseAiAction Str.atoi (place (reasonMessage (ascii ['a', 'b', '"', '}']))) 0 =
      some (some action) ∧ storedText action = ascii ['a', 'b'] := by
  have hm : Holds (place (reasonMessage (ascii ['a', 'b', '"', '}']))) 0
      (reasonMessage (ascii ['a', 'b', '"', '}'])) := holds_place (by decide)
  have hfirst : FirstAt (textKey .kill) (reasonMessage (ascii ['a', 'b', '"', '}']))
      (byteOf '{' :: (typePattern .kill ++ ascii [',', ' ']))
      (32 :: byteOf '"' :: (ascii ['a', 'b'] ++ byteOf '"' :: ascii ['}'])) :=
    firstAt_of_forall (by decide) (by decide)
  have hends : ValueEnds (ascii ['}']) :=
    ⟨[], byteOf '}', [], rfl, fun b hb => absurd hb List.not_mem_nil, .inr rfl⟩
  have hw : WritesText (reasonMessage (ascii ['a', 'b', '"', '}'])) .kill (ascii ['a', 'b']) :=
    ⟨⟨_, _, hfirst, hends⟩, by decide, by decide⟩
  exact (text_stored_iff hm (by decide) (firstType_reasonMessage hm (by decide)) hw Str.atoi).mpr
    ⟨byteOf 'a', rfl, by decide, by decide⟩

/-- Of an empty reason the closing brace is stored. -/
theorem text_stored_empty :
    WritesText (reasonMessage (ascii ['"', '}'])) .kill [] ∧
      ∃ action, parseAiAction Str.atoi (place (reasonMessage (ascii ['"', '}']))) 0 =
        some (some action) ∧ storedText action = ascii ['}'] := by
  have hm : Holds (place (reasonMessage (ascii ['"', '}']))) 0 (reasonMessage (ascii ['"', '}'])) :=
    holds_place (by decide)
  have hfirst : FirstAt (textKey .kill) (reasonMessage (ascii ['"', '}']))
      (byteOf '{' :: (typePattern .kill ++ ascii [',', ' ']))
      (32 :: byteOf '"' :: ([] ++ byteOf '"' :: ascii ['}'])) :=
    firstAt_of_forall (by decide) (by decide)
  obtain ⟨action, haction, -, hstored⟩ :=
    parseAiAction_found hm (firstType_reasonMessage hm (by decide)) Str.atoi
  have hends : ValueEnds (ascii ['}']) :=
    ⟨[], byteOf '}', [], rfl, fun b hb => absurd hb List.not_mem_nil, .inr rfl⟩
  rw [parseText_found hm (by decide) hfirst, Option.some.injEq] at hstored
  exact ⟨⟨⟨_, _, hfirst, hends⟩, List.not_mem_nil, List.not_mem_nil⟩, action, haction, hstored.symm⟩

end SynapseKernel.Proc
