import SynapseKernel.Proc.AiFields

/-! # What the parser reads

Beside each loop of `parse_ai_action` stands the list of the cursors it reads at. The
cursor behind a key is one byte further than the key is long, so where a message ends
right after one of them the parser goes on behind its NUL, and nowhere else
(`memorySafe_iff`). What it stores fits into its buffers in any case. -/
namespace SynapseKernel.Proc
open SynapseKernel.Word SynapseKernel.ByteMemory SynapseKernel.Str SynapseKernel.Numeral

/-! ## The reads of each loop -/

/-- The inner loop of `strstr`. -/
def startsWithReads (m : Mem) : Nat → List UInt8 → List Nat
  | _, [] => []
  | h, b :: needle => h :: if char m h = b then startsWithReads m (h + 1) needle else []

/-- The outer loop. -/
def strstrReadsFrom (m : Mem) (needle : List UInt8) : Nat → Nat → List Nat
  | 0, _ => []
  | fuel + 1, h =>
    h ::
      if char m h = 0 then []
      else
        startsWithReads m h needle ++
          if startsWith m h needle then [] else strstrReadsFrom m needle fuel (h + 1)

def strstrReads (m : Mem) (haystack : Nat) (needle : List UInt8) : List Nat :=
  if needle = [] then [] else strstrReadsFrom m needle loopFuel haystack

def skipReadsFrom (m : Mem) (skipped : List UInt8) : Nat → Nat → List Nat
  | 0, _ => []
  | fuel + 1, p => p :: if char m p ∈ skipped then skipReadsFrom m skipped fuel (p + 1) else []

def skipReads (m : Mem) (skipped : List UInt8) (p : Nat) : List Nat :=
  skipReadsFrom m skipped loopFuel p

/-- The bytes are tested before the room is. -/
def copyReads (m : Mem) (stop : UInt8) : Nat → Nat → List Nat
  | 0, p => [p]
  | room + 1, p =>
    p :: if char m p = 0 ∨ char m p = stop then [] else copyReads m stop room (p + 1)

/-- The digits and the byte behind them. -/
def digitsReads (m : Mem) : Nat → Nat → List Nat
  | 0, _ => []
  | fuel + 1, p => p :: if IsDigit (char m p) then digitsReads m fuel (p + 1) else []

/-- What is skipped, and then what `use` reads. -/
def skipThenReads (skipped : List UInt8) (use : Mem → Nat → List Nat) (m : Mem) (p : Nat) :
    List Nat :=
  skipReads m skipped p ++
    match skip m skipped p with
    | none => []
    | some q => use m q

/-- A sign, and the digits behind it. -/
def signedReads (m : Mem) (p : Nat) : List Nat :=
  if char m p = byteOf '-' ∨ char m p = byteOf '+' then p :: digitsReads m loopFuel (p + 1)
  else digitsReads m loopFuel p

def atoiReads : Mem → Nat → List Nat := skipThenReads spaces signedReads

/-- A string function reads up to the NUL of its string. -/
def ReadsString (reads : Mem → Nat → List Nat) : Prop :=
  ∀ m p text, Holds m p text → 0 ∉ text → ∀ a ∈ reads m p, p ≤ a ∧ a ≤ p + text.length

/-! ## The reads of the parser -/

def firstTypeReads (m : Mem) (json : Nat) : List AiActionType → List Nat
  | [] => []
  | type :: tests =>
    strstrReads m json (typePattern type) ++
      match strstr m json (typePattern type) with
      | none => []
      | some (some _) => []
      | some none => firstTypeReads m json tests

/-- `use` is what is read at the value of the field. -/
def fieldReads (m : Mem) (json : Nat) (key : List UInt8) (distance : Nat) (skipped : List UInt8)
    (use : Mem → Nat → List Nat) : List Nat :=
  strstrReads m json key ++
    match strstr m json key with
    | none => []
    | some none => []
    | some (some p) => skipThenReads skipped use m (p + distance)

/-- The text of either buffer. -/
def textReads (m : Mem) (json : Nat) (key : List UInt8) (distance : Nat) : List Nat :=
  fieldReads m json key distance textSkipped fun m p => copyReads m (byteOf '"') 255 p

/-- `atoiReads` is what `atoi` reads. An alert looks for the pid, too, and leaves it. -/
def parseReads (atoiReads : Mem → Nat → List Nat) (m : Mem) (json : Nat) : List Nat :=
  firstTypeReads m json typeTests ++
    match firstType m json typeTests with
    | none => []
    | some none => []
    | some (some .alert) => strstrReads m json pidKey ++ textReads m json messageKey 11
    | some (some _) =>
      fieldReads m json pidKey 7 pidSkipped atoiReads ++ textReads m json reasonKey 10

/-- The string at `json` is read up to its NUL, and each text is stored with its NUL in its
256 bytes. -/
def MemorySafe (atoiReads : Mem → Nat → List Nat) (atoi : Mem → Nat → Nat) (m : Mem) (json : Nat)
    (text : List UInt8) : Prop :=
  (∀ a ∈ parseReads atoiReads m json, json ≤ a ∧ a ≤ json + text.length) ∧
    ∀ action, parseAiAction atoi m json = some (some action) →
      (action.reason ++ [0]).length ≤ 256 ∧ (action.message ++ [0]).length ≤ 256

/-- The text ends right after the first occurrence of the key. -/
def CutAt (key text : List UInt8) : Prop := ∃ pre, FirstAt key text pre []

variable {m : Mem} {json p a : Nat} {text needle key skipped : List UInt8}
  {use : Mem → Nat → List Nat} {type : AiActionType} {atoi : Mem → Nat → Nat}
  {reads : Mem → Nat → List Nat}

/-! ## Each loop stays in the string it starts in -/

theorem startsWithReads_le (hm : Holds m p text) (hn : 0 ∉ needle)
    (ha : a ∈ startsWithReads m p needle) : p ≤ a ∧ a ≤ p + text.length := by
  induction needle generalizing p text with
  | nil => exact absurd ha List.not_mem_nil
  | cons b needle ih =>
    obtain ⟨hb, hn⟩ := not_or.mp (mt List.mem_cons.mpr hn)
    rw [startsWithReads] at ha
    rcases List.mem_cons.mp ha with rfl | ha
    · omega
    · by_cases hc : char m p = b
      · rw [if_pos hc] at ha
        cases text with
        | nil =>
          have hnul : char m p = 0 := hm
          exact absurd (hnul.symm.trans hc) hb
        | cons c text =>
          have hrest := ih hm.2 hn ha
          rw [List.length_cons]
          omega
      · rw [if_neg hc] at ha
        exact absurd ha List.not_mem_nil

theorem strstrReadsFrom_le (hm : Holds m p text) (hn : 0 ∉ needle) {fuel : Nat}
    (ha : a ∈ strstrReadsFrom m needle fuel p) : p ≤ a ∧ a ≤ p + text.length := by
  induction fuel generalizing p text with
  | zero => exact absurd ha List.not_mem_nil
  | succ fuel ih =>
    rw [strstrReadsFrom] at ha
    rcases List.mem_cons.mp ha with rfl | ha
    · omega
    · by_cases hnul : char m p = 0
      · rw [if_pos hnul] at ha
        exact absurd ha List.not_mem_nil
      · rw [if_neg hnul] at ha
        cases text with
        | nil => exact absurd hm hnul
        | cons c text =>
          rcases List.mem_append.mp ha with ha | ha
          · exact startsWithReads_le hm hn ha
          · by_cases hstart : startsWith m p needle
            · rw [if_pos hstart] at ha
              exact absurd ha List.not_mem_nil
            · rw [if_neg hstart] at ha
              have hrest := ih hm.2 ha
              rw [List.length_cons]
              omega

theorem readsString_strstrReads (hn : 0 ∉ needle) :
    ReadsString fun m p => strstrReads m p needle := by
  intro m p text hm _ a ha
  have hread : a ∈ strstrReads m p needle := ha
  rw [strstrReads] at hread
  by_cases hnil : needle = []
  · rw [if_pos hnil] at hread
    exact absurd hread List.not_mem_nil
  · rw [if_neg hnil] at hread
    exact strstrReadsFrom_le hm hn hread

/-- A loop that goes on at bytes with a property the NUL does not have. -/
theorem scan_le {reads : Nat → Nat → List Nat} {go : UInt8 → Prop} [DecidablePred go]
    (hgo : ¬ go 0) (hzero : ∀ p, reads 0 p = [] ∨ reads 0 p = [p])
    (hsucc : ∀ n p, reads (n + 1) p = p :: if go (char m p) then reads n (p + 1) else [])
    (hm : Holds m p text) {n : Nat} (ha : a ∈ reads n p) : p ≤ a ∧ a ≤ p + text.length := by
  induction n generalizing p text with
  | zero =>
    rcases hzero p with he | he
    · rw [he] at ha
      exact absurd ha List.not_mem_nil
    · rw [he] at ha
      have hap := List.mem_singleton.mp ha
      omega
  | succ n ih =>
    rw [hsucc] at ha
    rcases List.mem_cons.mp ha with rfl | ha
    · omega
    · by_cases hc : go (char m p)
      · rw [if_pos hc] at ha
        cases text with
        | nil =>
          have hnul : char m p = 0 := hm
          exact absurd (hnul ▸ hc) hgo
        | cons c text =>
          have hrest := ih hm.2 ha
          rw [List.length_cons]
          omega
      · rw [if_neg hc] at ha
        exact absurd ha List.not_mem_nil

theorem readsString_skipReads (h0 : 0 ∉ skipped) :
    ReadsString fun m p => skipReads m skipped p :=
  fun _ _ _ hm _ _ ha => scan_le h0 (fun _ => .inl rfl) (fun _ _ => rfl) hm ha

theorem readsString_digitsReads : ReadsString fun m p => digitsReads m loopFuel p :=
  fun m p text hm _ a ha =>
    @scan_le m p a text (digitsReads m) IsDigit inferInstance (by decide) (fun _ => .inl rfl)
      (fun _ _ => rfl) hm loopFuel ha

theorem readsString_copyReads (stop : UInt8) (room : Nat) :
    ReadsString fun m p => copyReads m stop room p := by
  intro m p text hm _ a ha
  refine @scan_le m p a text (fun n p => copyReads m stop n p) (fun c => ¬ (c = 0 ∨ c = stop))
    inferInstance (not_not.mpr (.inl rfl)) (fun _ => .inr rfl) (fun n p => ?_) hm room ha
  rw [copyReads, ite_not]

/-- Reading on from inside the string. -/
theorem ReadsString.tail {pre rest : List UInt8} (hr : ReadsString reads)
    (hm : Holds m p (pre ++ rest)) (h0 : 0 ∉ pre ++ rest) (ha : a ∈ reads m (p + pre.length)) :
    p ≤ a ∧ a ≤ p + (pre ++ rest).length := by
  have hrest := hr m _ rest hm.append_right (fun hz => h0 (List.mem_append_right _ hz)) a ha
  rw [List.length_append]
  omega

theorem readsString_skipThenReads (hskipped : 0 ∉ skipped) (huse : ReadsString use) :
    ReadsString (skipThenReads skipped use) := by
  intro m p text hm h0 a ha
  obtain ⟨q, hq, rfl, -⟩ := hm.skip_eq h0 hskipped
  simp only [skipThenReads, hq, List.mem_append] at ha
  rcases ha with ha | ha
  · exact readsString_skipReads hskipped m p text hm h0 a ha
  · have hsplit : text.takeWhile (· ∈ skipped) ++ text.dropWhile (· ∈ skipped) = text :=
      List.takeWhile_append_dropWhile
    rw [← hsplit] at hm h0
    have hin := huse.tail hm h0 ha
    rwa [hsplit] at hin

theorem readsString_signedReads : ReadsString signedReads := by
  intro m p text hm h0 a ha
  rw [signedReads] at ha
  by_cases hsign : char m p = byteOf '-' ∨ char m p = byteOf '+'
  · rw [if_pos hsign] at ha
    rcases List.mem_cons.mp ha with rfl | ha
    · omega
    · cases text with
      | nil =>
        have hnul : char m p = 0 := hm
        rw [hnul] at hsign
        rcases hsign with he | he <;> exact absurd he (by decide)
      | cons c s =>
        have hcs : Holds m p ([c] ++ s) := hm
        exact readsString_digitsReads.tail hcs h0 ha
  · rw [if_neg hsign] at ha
    exact readsString_digitsReads m p text hm h0 a ha

/-- So does the `atoi` of the standard. -/
theorem readsString_atoiReads : ReadsString atoiReads :=
  readsString_skipThenReads (by decide) readsString_signedReads

/-! ## A field -/

/-- A field is read within the string unless its key is the string's end. -/
theorem fieldReads_le_iff (hm : Holds m json text) (h0 : 0 ∉ text) (hkey : 0 ∉ key)
    (hne : key ≠ []) (hskipped : 0 ∉ skipped) (huse : ReadsString use) :
    (∀ a ∈ fieldReads m json key (key.length + 1) skipped use,
      json ≤ a ∧ a ≤ json + text.length) ↔ ¬ CutAt key text := by
  constructor
  · rintro hreads ⟨pre, hf⟩
    have hlen : json + pre.length + (key.length + 1) = json + text.length + 1 := by
      rw [hf.1, List.append_nil, List.length_append]
      omega
    have hfirst : json + text.length + 1 ∈
        fieldReads m json key (key.length + 1) skipped use := by
      rw [fieldReads, hm.strstr_first h0 hkey hne hf]
      refine List.mem_append_right _ (List.mem_append_left _ ?_)
      rw [hlen]
      exact List.mem_cons_self
    exact absurd (hreads _ hfirst).2 (by omega)
  · intro hcut a ha
    rw [fieldReads] at ha
    rcases List.mem_append.mp ha with ha | ha
    · exact readsString_strstrReads hkey m json text hm h0 a ha
    · by_cases hin : key <:+: text
      · obtain ⟨pre, rest, hf⟩ := exists_firstAt hin
        cases rest with
        | nil => exact absurd ⟨pre, hf⟩ hcut
        | cons b rest =>
          obtain ⟨hsplit, hlen⟩ := hf.behind
          rw [hm.strstr_first h0 hkey hne hf] at ha
          have hvalue : a ∈ skipThenReads skipped use m (json + pre.length + (key.length + 1)) := ha
          rw [Nat.add_assoc, ← hlen] at hvalue
          rw [hsplit] at hm h0 ⊢
          exact (readsString_skipThenReads hskipped huse).tail hm h0 hvalue
      · rw [(hm.strstr_eq_none_iff h0 hkey hne).mpr hin] at ha
        exact absurd ha List.not_mem_nil

/-! ## The parser -/

theorem typePattern_noNul (type : AiActionType) : 0 ∉ typePattern type := by
  cases type <;> decide

theorem firstTypeReads_le (hm : Holds m json text) (h0 : 0 ∉ text) {tests : List AiActionType}
    (ha : a ∈ firstTypeReads m json tests) : json ≤ a ∧ a ≤ json + text.length := by
  induction tests with
  | nil => exact absurd ha List.not_mem_nil
  | cons type tests ih =>
    rw [firstTypeReads] at ha
    rcases List.mem_append.mp ha with ha | ha
    · exact readsString_strstrReads (typePattern_noNul type) m json text hm h0 a ha
    · split at ha
      · exact absurd ha List.not_mem_nil
      · exact absurd ha List.not_mem_nil
      · exact ih ha

theorem length_copyUntil_le (stop : UInt8) (room p : Nat) :
    (copyUntil m stop room p).length ≤ room := by
  induction room generalizing p with
  | zero => exact Nat.le_refl 0
  | succ room ih =>
    rw [copyUntil]
    by_cases hc : char m p = 0 ∨ char m p = stop
    · rw [if_pos hc]
      exact Nat.zero_le _
    · rw [if_neg hc, List.length_cons]
      exact Nat.succ_le_succ (ih (p + 1))

theorem parseText_length_le {distance : Nat} {s : List UInt8}
    (h : parseText m json key distance = some s) : s.length ≤ 255 := by
  obtain ⟨q, -, rfl⟩ := Option.map_eq_some_iff.mp h
  cases q with
  | none => exact Nat.zero_le _
  | some q => exact length_copyUntil_le _ _ _

/-- Each text is stored with its NUL in its 256 bytes. -/
theorem parseAiAction_texts {action : AiAction}
    (h : parseAiAction atoi m json = some (some action)) :
    (action.reason ++ [0]).length ≤ 256 ∧ (action.message ++ [0]).length ≤ 256 := by
  have hfits : ∀ {s : List UInt8}, s.length ≤ 255 → (s ++ [0]).length ≤ 256 := by
    intro s hs
    rw [List.length_append]
    exact Nat.succ_le_succ hs
  have hnil : (([] : List UInt8) ++ [0]).length ≤ 256 := by decide
  rw [parseAiAction] at h
  split at h
  · cases h
  · cases h
  · obtain ⟨message, hmessage, he⟩ := Option.map_eq_some_iff.mp h
    obtain rfl := Option.some.inj he
    exact ⟨hnil, hfits (parseText_length_le hmessage)⟩
  · obtain ⟨pid, -, he⟩ := Option.bind_eq_some_iff.mp h
    obtain ⟨reason, hreason, he⟩ := Option.map_eq_some_iff.mp he
    obtain rfl := Option.some.inj he
    exact ⟨hfits (parseText_length_le hreason), hnil⟩

/-- What is read once the type is known. -/
theorem parseReads_typed (hm : Holds m json text) (h0 : 0 ∉ text)
    (htype : firstType m json typeTests = some (some type)) (hreads : ReadsString reads) :
    (∀ a ∈ parseReads reads m json, json ≤ a ∧ a ≤ json + text.length) ↔
      ¬ CutAt (textKey type) text ∧ (type ≠ .alert → ¬ CutAt pidKey text) := by
  have htests : ∀ a ∈ firstTypeReads m json typeTests, json ≤ a ∧ a ≤ json + text.length :=
    fun a ha => firstTypeReads_le hm h0 ha
  have hskipped : 0 ∉ textSkipped := by decide
  have hpidSkipped : 0 ∉ pidSkipped := by decide
  obtain ⟨hkey, hne⟩ := textKey_clean type
  have hpidKey : 0 ∉ pidKey := by decide
  have htext := fieldReads_le_iff hm h0 hkey hne hskipped (readsString_copyReads (byteOf '"') 255)
  have hpid := fieldReads_le_iff hm h0 hpidKey (by decide) hpidSkipped hreads
  have hsearch := readsString_strstrReads hpidKey m json text hm h0
  by_cases halert : type = .alert
  · subst halert
    rw [parseReads, htype, List.forall_mem_append, List.forall_mem_append]
    refine ⟨fun h => ⟨htext.mp h.2.2, fun hne => absurd rfl hne⟩, fun h => ?_⟩
    exact ⟨htests, hsearch, htext.mpr h.1⟩
  · have hparse : parseReads reads m json = firstTypeReads m json typeTests ++
        (fieldReads m json pidKey (pidKey.length + 1) pidSkipped reads ++
          textReads m json (textKey type) ((textKey type).length + 1)) := by
      rw [parseReads, htype]
      cases type with
      | alert => exact absurd rfl halert
      | kill => rfl
      | pause => rfl
      | resume => rfl
    rw [hparse, List.forall_mem_append, List.forall_mem_append]
    refine ⟨fun h => ⟨htext.mp h.2.2, fun _ => hpid.mp h.2.1⟩, fun h => ?_⟩
    exact ⟨htests, hpid.mpr (h.2 halert), htext.mpr h.1⟩

/-- **Where parsing is safe.** For every string in memory, `parse_ai_action` reads no byte
behind its NUL and stores each text with its NUL in 256 bytes if and only if no type is
found, or the string does not end right after the first occurrence of a key that is looked
for. -/
theorem memorySafe_iff (hreads : ReadsString reads) (hm : Holds m json text) (h0 : 0 ∉ text)
    (atoi : Mem → Nat → Nat) :
    MemorySafe reads atoi m json text ↔
      ∀ type, firstType m json typeTests = some (some type) →
        ¬ CutAt (textKey type) text ∧ (type ≠ .alert → ¬ CutAt pidKey text) := by
  have hsafe : MemorySafe reads atoi m json text ↔
      ∀ a ∈ parseReads reads m json, json ≤ a ∧ a ≤ json + text.length :=
    ⟨fun h => h.1, fun h => ⟨h, fun _ haction => parseAiAction_texts haction⟩⟩
  rw [hsafe]
  obtain ⟨r, hr⟩ := firstType_isSome hm typeTests
  cases r with
  | none =>
    have hparse : parseReads reads m json = firstTypeReads m json typeTests := by
      rw [parseReads, hr]
      exact List.append_nil _
    rw [hparse]
    refine iff_of_true (fun a ha => firstTypeReads_le hm h0 ha) fun type htype => ?_
    rw [hr] at htype
    cases htype
  | some type =>
    rw [parseReads_typed hm h0 hr hreads]
    refine ⟨fun h type' htype' => ?_, fun h => h type hr⟩
    obtain rfl := Option.some.inj (Option.some.inj (hr.symm.trans htype'))
    exact h

/-- `{"type": "kill", "pid": 5}`. -/
theorem memorySafe_iff_pid :
    MemorySafe atoiReads Str.atoi (place (killMessage (ascii [' ', '5', '}']))) 0
      (killMessage (ascii [' ', '5', '}'])) := by
  have hm : Holds (place (killMessage (ascii [' ', '5', '}']))) 0
      (killMessage (ascii [' ', '5', '}'])) := holds_place (by decide)
  refine (memorySafe_iff readsString_atoiReads hm (by decide) Str.atoi).mpr fun type htype => ?_
  obtain rfl := Option.some.inj (Option.some.inj
    ((firstType_killMessage hm (by decide)).symm.trans htype))
  have hcut : ∀ key : List UInt8, ¬ key <:+ killMessage (ascii [' ', '5', '}']) →
      ¬ CutAt key (killMessage (ascii [' ', '5', '}'])) := by
    rintro key hno ⟨pre, hf⟩
    refine hno ⟨pre, ?_⟩
    rw [hf.1, List.append_nil]
  exact ⟨hcut _ (by decide), fun _ => hcut _ (by decide)⟩

/-- `{"type": "kill", "pid":` is read on behind its NUL. -/
theorem not_memorySafe_cut :
    Holds (place (killMessage [])) 0 (killMessage []) ∧ 0 ∉ killMessage [] ∧
      ¬ MemorySafe atoiReads Str.atoi (place (killMessage [])) 0 (killMessage []) := by
  have hm : Holds (place (killMessage [])) 0 (killMessage []) := holds_place (by decide)
  have h0 : 0 ∉ killMessage [] := by decide
  refine ⟨hm, h0, fun hsafe => ?_⟩
  have hcut := (parseReads_typed hm h0 (firstType_killMessage hm h0)
    readsString_atoiReads).mp hsafe.1
  have hfirst : FirstAt pidKey (killMessage [])
      (byteOf '{' :: (typePattern .kill ++ ascii [',', ' '])) [] :=
    firstAt_of_forall (by decide) (by decide)
  exact hcut.2 (by decide) ⟨_, hfirst⟩

end SynapseKernel.Proc
