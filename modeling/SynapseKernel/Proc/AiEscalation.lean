import SynapseKernel.Lib.Json
import SynapseKernel.Proc.AiMessage

/-! # Which action a JSON message asks for

`parse_ai_action` takes a message for the first of kill, pause, resume and alert
whose pattern stands anywhere in it. In a JSON text that is the first one that
some member, at any depth, gives as its type with one space after the colon
(`parsedType_iff`), whatever the object's own `type` says. -/
namespace SynapseKernel.Proc
open SynapseKernel.ByteMemory SynapseKernel.Str SynapseKernel.Json

variable {m : Mem} {json : Nat} {text : Text} {atoi : Mem → Nat → Nat}

def typeKey : List UInt8 := ascii ['t', 'y', 'p', 'e']

def typeName : AiActionType → List UInt8
  | .alert => ascii ['a', 'l', 'e', 'r', 't']
  | .kill => ascii ['k', 'i', 'l', 'l']
  | .pause => ascii ['p', 'a', 'u', 's', 'e']
  | .resume => ascii ['r', 'e', 's', 'u', 'm', 'e']

/-- The member says that the type is `type`, however it is written. -/
def MemberNames (type : AiActionType) : Member → Prop
  | .mk _ key _ _ value _ => Spells key typeKey ∧ ∃ s, value = .string s ∧ Spells s (typeName type)

/-- The `type` member of the object itself names the action `type`. -/
def NamesType (text : Text) (type : AiActionType) : Prop :=
  ∃ member ∈ text.value.topMembers, MemberNames type member

/-- Some member, at any depth, is written `"type": ".."` with the name of `type`,
one space and no escapes; its key may also end so after an escaped quote. -/
def WritesType (text : Text) (type : AiActionType) : Prop :=
  AnyWritten (fun key => quote :: typeKey <:+ quote :: rawBytes key)
    (fun s => rawBytes s = typeName type) text.value.allMembers

/-- `earlier` is tested for before `type`. -/
def TestedBefore (earlier type : AiActionType) : Prop :=
  typeTests.idxOf earlier < typeTests.idxOf type

/-! ## The patterns in a JSON text -/

theorem typePattern_eq (type : AiActionType) :
    typePattern type = memberPattern typeKey (typeName type) := by
  cases type <;> rfl

theorem typePattern_clean (type : AiActionType) : 0 ∉ typePattern type ∧ typePattern type ≠ [] := by
  cases type <;> exact ⟨by decide, by decide⟩

/-- `true` is the only token that begins like `type`, and it goes on differently. -/
theorem noTokenStarts_typeKey : NoTokenStarts typeKey := by
  intro t R h
  rcases Token.prefix_cases h with ⟨w, -, hb, -⟩ | ⟨p, -, hb, -⟩ | ⟨s, rfl, -⟩ | ⟨s, -, hb, -⟩
  · exact absurd hb (by cases w <;> decide)
  · exact absurd hb (by cases p <;> decide)
  · cases s with
    | null => exact absurd (List.cons_prefix_cons.mp h).1 (by decide)
    | true =>
      have hsecond := (List.cons_prefix_cons.mp h).2
      exact absurd (List.cons_prefix_cons.mp hsecond).1 (by decide)
    | false => exact absurd (List.cons_prefix_cons.mp h).1 (by decide)
    | number text hnum =>
      obtain ⟨b, rest, rfl, hb⟩ := hnum.starts
      have hfirst : byteOf 't' = b := (List.cons_prefix_cons.mp h).1
      exact absurd (hfirst ▸ hb) (by decide)
  · exact absurd hb (by decide)

theorem typePattern_infix_iff (type : AiActionType) :
    typePattern type <:+: text.bytes ↔ WritesType text type := by
  have hname : ∀ b ∈ typeName type, IsPlain b := by
    cases type <;> exact forall_of_all (by decide)
  rw [typePattern_eq]
  exact text.infix_iff (forall_of_all (by decide)) hname noTokenStarts_typeKey

/-! ## The type that is parsed -/

/-- The tests find the first type that is written. -/
theorem firstType_cases (hm : Holds m json text.bytes) (tests : List AiActionType) :
    (firstType m json tests = some none ∧ ∀ type ∈ tests, ¬ WritesType text type) ∨
    ∃ type ∈ tests, firstType m json tests = some (some type) ∧ WritesType text type ∧
      ∀ earlier, tests.idxOf earlier < tests.idxOf type → ¬ WritesType text earlier := by
  induction tests with
  | nil => exact .inl ⟨rfl, fun type ht => absurd ht List.not_mem_nil⟩
  | cons type tests ih =>
    obtain ⟨h0, hne⟩ := typePattern_clean type
    have hnone := hm.strstr_eq_none_iff text.zero_not_mem h0 hne
    rw [typePattern_infix_iff] at hnone
    obtain ⟨r, hr⟩ := hm.strstr_isSome (typePattern type) json
    cases r with
    | some p =>
      have hwrites : WritesType text type := by
        by_contra hno
        rw [hnone.mpr hno] at hr
        cases hr
      refine .inr ⟨type, List.mem_cons_self, by rw [firstType, hr], hwrites, fun earlier hlt => ?_⟩
      rw [List.idxOf_cons_self] at hlt
      exact absurd hlt (Nat.not_lt_zero _)
    | none =>
      have hno := hnone.mp hr
      have hskip : firstType m json (type :: tests) = firstType m json tests := by
        rw [firstType, hr]
      rw [hskip]
      rcases ih with ⟨he, hall⟩ | ⟨found, hmem, he, hw, hfirst⟩
      · exact .inl ⟨he, List.forall_mem_cons.mpr ⟨hno, hall⟩⟩
      · refine .inr ⟨found, List.mem_cons_of_mem _ hmem, he, hw, fun earlier hlt hearlier => ?_⟩
        have hfound : found ≠ type := fun h => hno (h ▸ hw)
        have hother : earlier ≠ type := fun h => hno (h ▸ hearlier)
        rw [List.idxOf_cons_ne _ hother.symm, List.idxOf_cons_ne _ hfound.symm] at hlt
        exact hfirst earlier (Nat.lt_of_succ_lt_succ hlt) hearlier

/-- **The type of a JSON message.** Parsing succeeds if and only if some member of
the text writes one of the four types. The result is a type, the one that the object's
own `type` member names or any other, if and only if that type is written and no type
tested for earlier is. -/
theorem parsedType_iff (hm : Holds m json text.bytes) (atoi : Mem → Nat → Nat) :
    ∃ parsed, parseAiAction atoi m json = some parsed ∧
      (parsed = none ↔ ∀ type, ¬ WritesType text type) ∧
      ∀ action, parsed = some action → ∀ type, action.type = type ↔
        WritesType text type ∧ ∀ earlier, TestedBefore earlier type → ¬ WritesType text earlier := by
  have hall : ∀ type, type ∈ typeTests := fun type => by cases type <;> decide
  rcases parseAiAction_cases hm atoi with ⟨hnone, hp⟩ | ⟨found, action, hfound, htype, hp⟩
  · refine ⟨none, hp, ⟨fun _ => ?_, fun _ => rfl⟩, fun action he => by cases he⟩
    rcases firstType_cases hm typeTests with ⟨-, hno⟩ | ⟨_, -, he, -⟩
    · exact fun type => hno type (hall type)
    · rw [hnone] at he
      cases he
  · rcases firstType_cases hm typeTests with ⟨he, -⟩ | ⟨first, -, he, hw, hfirst⟩
    · rw [hfound] at he
      cases he
    · obtain rfl : found = first := Option.some.inj (Option.some.inj (hfound.symm.trans he))
      refine ⟨some action, hp, ⟨fun he => (by cases he), fun hno => absurd hw (hno found)⟩, ?_⟩
      intro a ha type
      obtain rfl := Option.some.inj ha
      rw [htype]
      constructor
      · rintro rfl
        exact ⟨hw, hfirst⟩
      · rintro ⟨hwrites, hnone⟩
        rcases Nat.lt_trichotomy (typeTests.idxOf found) (typeTests.idxOf type) with hlt | heq | hlt
        · exact absurd hw (hnone found hlt)
        · exact (List.idxOf_inj (hall found)).mp heq
        · exact absurd hwrites (hfirst type hlt)

/-! ## An escalated alert -/

/-- A string of plain bytes. -/
def plainString (word : List UInt8) (h : ∀ b ∈ word, IsPlain b) : List StringChar :=
  word.pmap StringChar.plain h

/-- The object `{"type": "alert", "x": {"type": "kill"}}`. -/
def alertWithKill : Text :=
  let typed (type : AiActionType) (h : ∀ b ∈ typeName type, IsPlain b) : Member :=
    .mk [] (plainString typeKey (forall_of_all (by decide))) [] [.space]
      (.string (plainString (typeName type) h)) []
  let nested : Member :=
    .mk [.space] (plainString (ascii ['x']) (forall_of_all (by decide))) [] [.space]
      (.object (.one (typed .kill (forall_of_all (by decide))))) []
  ⟨[], .object (.more (typed .alert (forall_of_all (by decide))) (.one nested)), []⟩

theorem firstType_alertWithKill :
    firstType (place alertWithKill.bytes) 0 typeTests = some (some .kill) := by
  have hm : Holds (place alertWithKill.bytes) 0 alertWithKill.bytes := holds_place (by decide)
  have hwrites : WritesType alertWithKill .kill := (typePattern_infix_iff .kill).mp (by decide)
  rcases firstType_cases hm typeTests with ⟨-, hno⟩ | ⟨type, -, he, -, hfirst⟩
  · exact absurd hwrites (hno .kill (by decide))
  · by_cases hkill : type = .kill
    · rw [he, hkill]
    · exact absurd hwrites (hfirst .kill (by cases type <;> first | exact absurd rfl hkill | decide))

theorem parsedType_iff_alertWithKill :
    ∃ parsed, parseAiAction (fun _ _ => 0) (place alertWithKill.bytes) 0 = some parsed ∧
      (parsed = none ↔ ∀ type, ¬ WritesType alertWithKill type) ∧
      ∀ action, parsed = some action → ∀ type, action.type = type ↔
        WritesType alertWithKill type ∧
          ∀ earlier, TestedBefore earlier type → ¬ WritesType alertWithKill earlier :=
  parsedType_iff (holds_place (by decide)) fun _ _ => 0

/-- The object's own type is `alert`, and the message is taken for a kill. -/
theorem parsedType_alertWithKill :
    NamesType alertWithKill .alert ∧
      ∃ action, parseAiAction (fun _ _ => 0) (place alertWithKill.bytes) 0 = some (some action) ∧
        action.type = .kill := by
  refine ⟨⟨_, List.mem_cons_self, by decide, _, rfl, by decide⟩, ?_⟩
  have hm : Holds (place alertWithKill.bytes) 0 alertWithKill.bytes := holds_place (by decide)
  have hkill := firstType_alertWithKill
  rcases parseAiAction_cases hm fun _ _ => 0 with ⟨hnone, -⟩ | ⟨type, action, he, htype, hp⟩
  · rw [hkill] at hnone
    cases hnone
  · rw [hkill] at he
    exact ⟨action, hp, htype.trans (Option.some.inj (Option.some.inj he)).symm⟩

end SynapseKernel.Proc
