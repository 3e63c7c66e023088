import SynapseKernel.Lib.ByteMemory
import SynapseKernel.Lib.Runs

/-! # The modifier keys (lib/keyboard.c)

`scancode_to_ascii` keeps one flag for the two shift keys and one for CapsLock. The flags
follow the keys as long as no shift key is released while the other one is held and CapsLock
is not released (`modifiers_iff`): a release clears the flag of both shift keys, and that of
CapsLock turns the lock once more. -/
namespace SynapseKernel.Console
open SynapseKernel.ByteMemory SynapseKernel.Runs

/-- `shift_pressed` and `caps_lock`. -/
structure Modifiers where
  shiftPressed : Bool
  capsLock : Bool
deriving DecidableEq

/-- The entries behind the last one are 0. -/
def scancodeToAsciiTable : List UInt8 :=
  [0, 0] ++ ascii ['1', '2', '3', '4', '5', '6', '7', '8', '9', '0', '-', '='] ++ [8] ++
  ascii ['\t', 'q', 'w', 'e', 'r', 't', 'y', 'u', 'i', 'o', 'p', '[', ']', '\n'] ++
  [0] ++ ascii ['a', 's', 'd', 'f', 'g', 'h', 'j', 'k', 'l', ';'] ++ [39, 96] ++
  [0, 92] ++ ascii ['z', 'x', 'c', 'v', 'b', 'n', 'm', ',', '.', '/'] ++ [0] ++
  ascii ['*'] ++ [0] ++ ascii [' ']

def scancodeToAsciiTableShift : List UInt8 :=
  [0, 0] ++ ascii ['!', '@', '#', '$', '%', '^', '&', '*', '(', ')', '_', '+'] ++ [8] ++
  ascii ['\t', 'Q', 'W', 'E', 'R', 'T', 'Y', 'U', 'I', 'O', 'P', '{', '}', '\n'] ++
  [0] ++ ascii ['A', 'S', 'D', 'F', 'G', 'H', 'J', 'K', 'L', ':'] ++ [34, 126] ++
  [0] ++ ascii ['|', 'Z', 'X', 'C', 'V', 'B', 'N', 'M', '<', '>', '?'] ++ [0] ++
  ascii ['*'] ++ [0] ++ ascii [' ']

def leftShift : UInt8 := 0x2A
def rightShift : UInt8 := 0x36
def capsLockKey : UInt8 := 0x3A

/-- The key that a scancode is about. -/
def keyOf (scancode : UInt8) : UInt8 := scancode &&& 0x7F

/-- The scancode of a key that is released. -/
def IsBreak (scancode : UInt8) : Prop := scancode &&& 0x80 ≠ 0

instance (scancode : UInt8) : Decidable (IsBreak scancode) :=
  inferInstanceAs (Decidable (_ ≠ _))

/-- `scancode_to_ascii`: the flags it leaves and the character it returns. -/
def scancodeToAscii (s : Modifiers) (scancode : UInt8) : Modifiers × UInt8 :=
  if IsBreak scancode then
    let code := keyOf scancode
    if code = leftShift ∨ code = rightShift then ({ s with shiftPressed := false }, 0)
    else if code = capsLockKey then ({ s with capsLock := !s.capsLock }, 0)
    else (s, 0)
  else
    let code := scancode
    if code = leftShift ∨ code = rightShift then ({ s with shiftPressed := true }, 0)
    else if code = capsLockKey then ({ s with capsLock := !s.capsLock }, 0)
    else if code.toNat < 128 then
      if s.shiftPressed ^^ s.capsLock then
        (s, scancodeToAsciiTableShift.getD code.toNat 0)
      else (s, scancodeToAsciiTable.getD code.toNat 0)
    else (s, 0)

/-! ## The keys themselves -/

/-- Which keys are held, and how many times CapsLock was pressed. -/
structure Keys where
  held : UInt8 → Bool
  capsPresses : Nat

def Keys.next (keys : Keys) (scancode : UInt8) : Keys :=
  if IsBreak scancode then { keys with held := Function.update keys.held (keyOf scancode) false }
  else
    { held := Function.update keys.held scancode true
      capsPresses := if scancode = capsLockKey then keys.capsPresses + 1 else keys.capsPresses }

/-- The flags and the keys, when a scancode is read. -/
def typeStep (s : Modifiers × Keys) (scancode : UInt8) : Modifiers × Keys :=
  ((scancodeToAscii s.1 scancode).1, s.2.next scancode)

/-- Nothing is held or was pressed yet. -/
def untouched : Modifiers × Keys := (⟨false, false⟩, ⟨fun _ => false, 0⟩)

/-- The flags say what the keys are. -/
def FollowsKeys (s : Modifiers × Keys) : Prop :=
  (s.1.shiftPressed = true ↔ s.2.held leftShift = true ∨ s.2.held rightShift = true) ∧
    (s.1.capsLock = true ↔ s.2.capsPresses % 2 = 1)

instance (s : Modifiers × Keys) : Decidable (FollowsKeys s) :=
  inferInstanceAs (Decidable (_ ∧ _))

/-- A key is released only while it is held. -/
def ReleasesHeld (s : Modifiers × Keys) (scancode : UInt8) : Prop :=
  IsBreak scancode → s.2.held (keyOf scancode) = true

/-- No shift key is released while the other one is held, and CapsLock is not released. -/
def ReleasesApart (s : Modifiers × Keys) (scancode : UInt8) : Prop :=
  IsBreak scancode →
    (keyOf scancode = leftShift → s.2.held rightShift = false) ∧
    (keyOf scancode = rightShift → s.2.held leftShift = false) ∧ keyOf scancode ≠ capsLockKey

variable {s : Modifiers × Keys} {scancode : UInt8}

theorem leftShift_ne_rightShift : leftShift ≠ rightShift := by decide
theorem leftShift_ne_capsLockKey : leftShift ≠ capsLockKey := by decide
theorem rightShift_ne_capsLockKey : rightShift ≠ capsLockKey := by decide

/-! ## One scancode -/

/-- Any other key that is pressed only gives its character. -/
theorem scancodeToAscii_other (m : Modifiers) (hmake : ¬ IsBreak scancode)
    (hshift : ¬ (scancode = leftShift ∨ scancode = rightShift)) (hlock : scancode ≠ capsLockKey) :
    (scancodeToAscii m scancode).1 = m := by
  rw [scancodeToAscii, if_neg hmake]
  simp only [if_neg hshift, if_neg hlock]
  split
  · split
    · rfl
    · rfl
  · rfl

/-- What happens to another key does not change whether a key is held. -/
theorem held_other {held : UInt8 → Bool} {code : UInt8} {b : Bool}
    (h : ¬ (code = leftShift ∨ code = rightShift)) :
    Function.update held code b leftShift = held leftShift ∧
      Function.update held code b rightShift = held rightShift := by
  obtain ⟨hleft, hright⟩ := not_or.mp h
  exact ⟨Function.update_of_ne (Ne.symm hleft) .., Function.update_of_ne (Ne.symm hright) ..⟩

/-- One more press, or one more turn of the lock. -/
theorem caps_turned {lock : Bool} {n : Nat} (h : lock = true ↔ n % 2 = 1) :
    ((!lock) = true ↔ (n + 1) % 2 = 1) ∧ ¬ ((!lock) = true ↔ n % 2 = 1) := by
  rw [Bool.not_eq_true', ← Bool.not_eq_true, h]
  omega

/-- A pressed key never leads the flags astray. -/
theorem FollowsKeys.press (h : FollowsKeys s) (hmake : ¬ IsBreak scancode) :
    FollowsKeys (typeStep s scancode) := by
  obtain ⟨hshift, hcaps⟩ := h
  by_cases hkey : scancode = leftShift ∨ scancode = rightShift
  · have hne : scancode ≠ capsLockKey := by
      rcases hkey with rfl | rfl
      · exact leftShift_ne_capsLockKey
      · exact rightShift_ne_capsLockKey
    have hself : Function.update s.2.held scancode true scancode = true :=
      Function.update_self ..
    rw [typeStep, scancodeToAscii, if_neg hmake, Keys.next, if_neg hmake]
    simp only [if_pos hkey, if_neg hne]
    refine ⟨iff_of_true rfl ?_, hcaps⟩
    rcases hkey with rfl | rfl
    · exact .inl hself
    · exact .inr hself
  obtain ⟨hleft, hright⟩ := @held_other s.2.held scancode true hkey
  rw [← hleft, ← hright] at hshift
  by_cases hlock : scancode = capsLockKey
  · rw [typeStep, scancodeToAscii, if_neg hmake, Keys.next, if_neg hmake]
    simp only [if_neg hkey, if_pos hlock]
    exact ⟨hshift, (caps_turned hcaps).1⟩
  · rw [typeStep, scancodeToAscii_other _ hmake hkey hlock, Keys.next, if_neg hmake]
    simp only [if_neg hlock]
    exact ⟨hshift, hcaps⟩

/-- A shift key that is released clears the flag, whatever the other one is. -/
theorem released_shift_iff {held : UInt8 → Bool} {code other : UInt8} (hne : other ≠ code) :
    (false = true ↔ Function.update held code false code = true ∨
      Function.update held code false other = true) ↔ held other = false := by
  rw [Function.update_self, Function.update_of_ne hne]
  cases held other
  · decide
  · decide

/-- A released key leads them astray exactly where it is a shift key beside a held one, or
CapsLock. -/
theorem FollowsKeys.release_iff (h : FollowsKeys s) (hbreak : IsBreak scancode) :
    FollowsKeys (typeStep s scancode) ↔ ReleasesApart s scancode := by
  obtain ⟨hshift, hcaps⟩ := h
  rw [typeStep, scancodeToAscii, if_pos hbreak, Keys.next, if_pos hbreak, ReleasesApart,
    forall_prop_of_true hbreak]
  by_cases hleft : keyOf scancode = leftShift
  · have hflag := @released_shift_iff s.2.held _ _ (Ne.symm leftShift_ne_rightShift)
    rw [hleft]
    simp only [true_or, if_true]
    refine ⟨fun hf => ⟨fun _ => hflag.mp hf.1, ?_, leftShift_ne_capsLockKey⟩,
      fun ha => ⟨hflag.mpr (ha.1 trivial), hcaps⟩⟩
    exact fun he => absurd he leftShift_ne_rightShift
  by_cases hright : keyOf scancode = rightShift
  · have hflag := @released_shift_iff s.2.held _ _ leftShift_ne_rightShift
    rw [or_comm] at hflag
    rw [hright]
    simp only [or_true, if_true]
    refine ⟨fun hf => ⟨?_, fun _ => hflag.mp hf.1, rightShift_ne_capsLockKey⟩,
      fun ha => ⟨hflag.mpr (ha.2.1 trivial), hcaps⟩⟩
    exact fun he => absurd he.symm leftShift_ne_rightShift
  have hkey := not_or.mpr ⟨hleft, hright⟩
  obtain ⟨hleft', hright'⟩ := @held_other s.2.held (keyOf scancode) false hkey
  rw [← hleft', ← hright'] at hshift
  by_cases hlock : keyOf scancode = capsLockKey
  · simp only [if_neg hkey, if_pos hlock]
    exact iff_of_false (fun hf => (caps_turned hcaps).2 hf.2) fun ha => ha.2.2 hlock
  · simp only [if_neg hkey, if_neg hlock]
    exact iff_of_true ⟨hshift, hcaps⟩
      ⟨fun he => absurd he hleft, fun he => absurd he hright, hlock⟩

/-! ## Runs -/

/-- **When the modifiers follow the keys.** In every state of every run, the flags say which
keys are held and how often CapsLock was pressed, if and only if no shift key is ever released
while the other one is held and CapsLock is never released. -/
theorem modifiers_iff (scancodes : List UInt8) :
    Always typeStep FollowsKeys untouched scancodes ↔
      Guarded typeStep ReleasesApart untouched scancodes := by
  refine always_iff_guarded FollowsKeys (fun _ h => h) (fun s scancode h hok => ?_)
    (fun s scancode h hbad => ?_) (by decide) scancodes
  · by_cases hbreak : IsBreak scancode
    · exact (h.release_iff hbreak).mpr hok
    · exact h.press hbreak
  · by_cases hbreak : IsBreak scancode
    · exact fun hf => hbad ((h.release_iff hbreak).mp hf)
    · exact absurd (fun hb => absurd hb hbreak) hbad

/-- CapsLock is pressed and released; both shift keys are pressed and one is released. -/
theorem not_followsKeys_release :
    Guarded typeStep ReleasesHeld untouched [0x3A, 0xBA] ∧
      ¬ Always typeStep FollowsKeys untouched [0x3A, 0xBA] ∧
    Guarded typeStep ReleasesHeld untouched [0x2A, 0x36, 0xAA] ∧
      ¬ Always typeStep FollowsKeys untouched [0x2A, 0x36, 0xAA] := by
  have hmake : ∀ s scancode, ¬ IsBreak scancode → ReleasesHeld s scancode :=
    fun _ _ hmake hbreak => absurd hbreak hmake
  refine ⟨⟨hmake _ _ (by decide), fun _ => by decide, trivial⟩, ?_, ?_, ?_⟩
  · intro h
    exact absurd h.2.2.head (by decide)
  · exact ⟨hmake _ _ (by decide), hmake _ _ (by decide), fun _ => by decide, trivial⟩
  · intro h
    exact absurd h.2.2.2.head (by decide)

end SynapseKernel.Console
