import Mathlib.Data.List.Infix
import SynapseKernel.Lib.ByteMemory

/-! # JSON texts

The grammar of JSON as trees that keep every byte: white space, the escapes of
a string and the order of members. A text is written as a list of tokens
(`Value.tokens`), each of which is a few bytes. `Text.infix_iff` says where in
the bytes of a text a member written in one fixed way can be found: nowhere but
at a member of the tree. -/
namespace SynapseKernel.Json
open SynapseKernel.ByteMemory

/-! ## Tokens -/

inductive Blank
  | space
  | tab
  | newline
  | ret
deriving DecidableEq, Repr

def Blank.byte : Blank → UInt8
  | .space => 32
  | .tab => 9
  | .newline => 10
  | .ret => 13

inductive Punct
  | openBrace
  | closeBrace
  | openBracket
  | closeBracket
  | colon
  | comma
deriving DecidableEq, Repr

def Punct.byte : Punct → UInt8
  | .openBrace => 123
  | .closeBrace => 125
  | .openBracket => 91
  | .closeBracket => 93
  | .colon => 58
  | .comma => 44

def digits : List UInt8 := ascii ['0', '1', '2', '3', '4', '5', '6', '7', '8', '9']

def hexDigits : List UInt8 :=
  digits ++ ascii ['a', 'b', 'c', 'd', 'e', 'f', 'A', 'B', 'C', 'D', 'E', 'F']

/-- One digit or more. -/
def IsDigits (ds : List UInt8) : Prop := ds ≠ [] ∧ ∀ b ∈ ds, b ∈ digits

/-- `-`? int frac? exp?, where an int of several digits does not begin with 0. -/
def IsNumber (text : List UInt8) : Prop :=
  ∃ sign int frac exp : List UInt8, text = sign ++ (int ++ (frac ++ exp)) ∧
    (sign = [] ∨ sign = ascii ['-']) ∧
    (IsDigits int ∧ (int.head? = some 48 → int = [48])) ∧
    (frac = [] ∨ ∃ ds, frac = ascii ['.'] ++ ds ∧ IsDigits ds) ∧
    (exp = [] ∨ ∃ e s ds, exp = e :: (s ++ ds) ∧ e ∈ ascii ['e', 'E'] ∧
      (s = [] ∨ s = ascii ['+'] ∨ s = ascii ['-']) ∧ IsDigits ds)

inductive Scalar
  | null
  | true
  | false
  | number (text : List UInt8) (h : IsNumber text)

def Scalar.bytes : Scalar → List UInt8
  | .null => ascii ['n', 'u', 'l', 'l']
  | .true => ascii ['t', 'r', 'u', 'e']
  | .false => ascii ['f', 'a', 'l', 's', 'e']
  | .number text _ => text

abbrev quote : UInt8 := 34
abbrev backslash : UInt8 := 92

/-- A byte that stands for itself in a string. -/
def IsPlain (b : UInt8) : Prop := 32 ≤ b ∧ b ≠ quote ∧ b ≠ backslash

instance (b : UInt8) : Decidable (IsPlain b) := inferInstanceAs (Decidable (_ ∧ _ ∧ _))

inductive Escape
  | quote
  | backslash
  | slash
  | backspace
  | formFeed
  | newline
  | ret
  | tab
deriving DecidableEq, Repr

/-- The byte after the backslash. -/
def Escape.letter : Escape → UInt8
  | .quote => 34
  | .backslash => 92
  | .slash => 47
  | .backspace => 98
  | .formFeed => 102
  | .newline => 110
  | .ret => 114
  | .tab => 116

/-- The character meant. -/
def Escape.code : Escape → Nat
  | .quote => 34
  | .backslash => 92
  | .slash => 47
  | .backspace => 8
  | .formFeed => 12
  | .newline => 10
  | .ret => 13
  | .tab => 9

def hexValue (b : UInt8) : Nat :=
  if b.toNat < 65 then b.toNat - 48 else if b.toNat < 97 then b.toNat - 55 else b.toNat - 87

abbrev HexDigit : Type := { b : UInt8 // b ∈ hexDigits }

inductive StringChar
  | plain (b : UInt8) (h : IsPlain b)
  | escape (e : Escape)
  | unicode (a b c d : HexDigit)

def StringChar.bytes : StringChar → List UInt8
  | .plain b _ => [b]
  | .escape e => [backslash, e.letter]
  | .unicode a b c d => [backslash, 117, a, b, c, d]

def StringChar.code : StringChar → Nat
  | .plain b _ => b.toNat
  | .escape e => e.code
  | .unicode a b c d => ((hexValue a * 16 + hexValue b) * 16 + hexValue c) * 16 + hexValue d

/-- The bytes between the quotes of a string. -/
def rawBytes (s : List StringChar) : List UInt8 := s.flatMap StringChar.bytes

/-- The string means the given ASCII text, however it is written. -/
def Spells (s : List StringChar) (text : List UInt8) : Prop :=
  s.map StringChar.code = text.map UInt8.toNat

instance (s : List StringChar) (text : List UInt8) : Decidable (Spells s text) :=
  inferInstanceAs (Decidable (_ = _))

inductive Token
  | blank (b : Blank)
  | punct (p : Punct)
  | scalar (s : Scalar)
  | str (s : List StringChar)

def Token.bytes : Token → List UInt8
  | .blank b => [b.byte]
  | .punct p => [p.byte]
  | .scalar s => s.bytes
  | .str s => quote :: (rawBytes s ++ [quote])

def tokenBytes (ts : List Token) : List UInt8 := ts.flatMap Token.bytes

/-! ## Values -/

mutual

inductive Value
  | scalar (s : Scalar)
  | string (s : List StringChar)
  | emptyArray (inside : List Blank)
  | array (items : Items)
  | emptyObject (inside : List Blank)
  | object (members : Members)

inductive Items
  | one (before : List Blank) (value : Value) (after : List Blank)
  | more (before : List Blank) (value : Value) (after : List Blank) (rest : Items)

inductive Member
  | mk (before : List Blank) (key : List StringChar) (afterKey beforeValue : List Blank)
    (value : Value) (after : List Blank)

inductive Members
  | one (member : Member)
  | more (member : Member) (rest : Members)

end

def blanks (bs : List Blank) : List Token := bs.map .blank

mutual

def Value.tokens : Value → List Token
  | .scalar s => [.scalar s]
  | .string s => [.str s]
  | .emptyArray inside => .punct .openBracket :: (blanks inside ++ [.punct .closeBracket])
  | .array items => .punct .openBracket :: (items.tokens ++ [.punct .closeBracket])
  | .emptyObject inside => .punct .openBrace :: (blanks inside ++ [.punct .closeBrace])
  | .object members => .punct .openBrace :: (members.tokens ++ [.punct .closeBrace])

def Items.tokens : Items → List Token
  | .one before value after => blanks before ++ (value.tokens ++ blanks after)
  | .more before value after rest =>
    blanks before ++ (value.tokens ++ (blanks after ++ .punct .comma :: rest.tokens))

def Member.tokens : Member → List Token
  | .mk before key afterKey beforeValue value after =>
    blanks before ++ .str key :: (blanks afterKey ++ .punct .colon ::
      (blanks beforeValue ++ (value.tokens ++ blanks after)))

def Members.tokens : Members → List Token
  | .one member => member.tokens
  | .more member rest => member.tokens ++ .punct .comma :: rest.tokens

end

mutual

/-- The members of all objects in the value, at any depth. -/
def Value.allMembers : Value → List Member
  | .scalar _ => []
  | .string _ => []
  | .emptyArray _ => []
  | .array items => items.allMembers
  | .emptyObject _ => []
  | .object members => members.allMembers

def Items.allMembers : Items → List Member
  | .one _ value _ => value.allMembers
  | .more _ value _ rest => value.allMembers ++ rest.allMembers

def Member.allMembers : Member → List Member
  | .mk before key afterKey beforeValue value after =>
    .mk before key afterKey beforeValue value after :: value.allMembers

def Members.allMembers : Members → List Member
  | .one member => member.allMembers
  | .more member rest => member.allMembers ++ rest.allMembers

end

def Members.toList : Members → List Member
  | .one member => [member]
  | .more member rest => member :: rest.toList

/-- The members of the object itself. -/
def Value.topMembers : Value → List Member
  | .object members => members.toList
  | _ => []

/-- A value with the white space around it. -/
structure Text where
  before : List Blank
  value : Value
  after : List Blank

def Text.tokens (t : Text) : List Token := blanks t.before ++ (t.value.tokens ++ blanks t.after)

def Text.bytes (t : Text) : List UInt8 := tokenBytes t.tokens

/-! ## The bytes of a scalar -/

def numberBytes : List UInt8 := digits ++ ascii ['-', '+', '.', 'e', 'E']

theorem IsDigits.mem_numberBytes {ds : List UInt8} (h : IsDigits ds) {b : UInt8} (hb : b ∈ ds) :
    b ∈ numberBytes := List.mem_append_left _ (h.2 b hb)

theorem IsNumber.mem {text : List UInt8} (h : IsNumber text) : ∀ b ∈ text, b ∈ numberBytes := by
  obtain ⟨sign, int, frac, exp, rfl, hsign, ⟨hint, -⟩, hfrac, hexp⟩ := h
  have hminus : (45 : UInt8) ∈ numberBytes := by decide
  intro b hb
  simp only [List.mem_append] at hb
  rcases hb with hb | hb | hb | hb
  · rcases hsign with rfl | rfl
    · cases hb
    · rwa [List.mem_singleton.mp hb]
  · exact hint.mem_numberBytes hb
  · rcases hfrac with rfl | ⟨ds, rfl, hds⟩
    · cases hb
    · rcases List.mem_append.mp hb with hb | hb
      · rw [List.mem_singleton.mp hb]
        decide
      · exact hds.mem_numberBytes hb
  · rcases hexp with rfl | ⟨e, s, ds, rfl, he, hs, hds⟩
    · cases hb
    · rcases List.mem_cons.mp hb with rfl | hb
      · exact @forall_of_all (ascii ['e', 'E']) (· ∈ numberBytes) _ (by decide) b he
      · rcases List.mem_append.mp hb with hb | hb
        · rcases hs with rfl | rfl | rfl
          · cases hb
          · rw [List.mem_singleton.mp hb]
            decide
          · rwa [List.mem_singleton.mp hb]
        · exact hds.mem_numberBytes hb

theorem IsNumber.starts {text : List UInt8} (h : IsNumber text) :
    ∃ b rest, text = b :: rest ∧ b ∈ ascii ['-'] ++ digits := by
  obtain ⟨sign, int, frac, exp, rfl, hsign, ⟨⟨hne, hint⟩, -⟩, -, -⟩ := h
  rcases hsign with rfl | rfl
  · obtain ⟨b, int, rfl⟩ := List.exists_cons_of_ne_nil hne
    exact ⟨b, int ++ (frac ++ exp), rfl, List.mem_append_right _ (hint b List.mem_cons_self)⟩
  · exact ⟨45, int ++ (frac ++ exp), rfl, by decide⟩

def scalarStarts : List UInt8 := ascii ['n', 't', 'f'] ++ (ascii ['-'] ++ digits)

theorem Scalar.starts (s : Scalar) : ∃ b rest, s.bytes = b :: rest ∧ b ∈ scalarStarts := by
  cases s with
  | null => exact ⟨_, _, rfl, by decide⟩
  | true => exact ⟨_, _, rfl, by decide⟩
  | false => exact ⟨_, _, rfl, by decide⟩
  | number text h =>
    obtain ⟨b, rest, he, hb⟩ := h.starts
    exact ⟨b, rest, he, List.mem_append_right _ hb⟩

theorem Scalar.not_mem (s : Scalar) : quote ∉ s.bytes ∧ 0 ∉ s.bytes := by
  cases s with
  | null => decide
  | true => decide
  | false => decide
  | number text h =>
    exact ⟨fun hq => absurd (h.mem _ hq) (by decide), fun h0 => absurd (h.mem _ h0) (by decide)⟩

/-! ## No text contains a NUL -/

theorem StringChar.zero_not_mem (c : StringChar) : 0 ∉ c.bytes := by
  have hhex : ∀ d : HexDigit, (0 : UInt8) ≠ d := fun d hd =>
    absurd (hd ▸ d.2) (by decide : (0 : UInt8) ∉ hexDigits)
  cases c with
  | plain b h =>
    intro h0
    rw [← List.mem_singleton.mp h0] at h
    exact absurd h (by decide)
  | escape e => cases e <;> decide
  | unicode a b c d =>
    simp only [StringChar.bytes, List.mem_cons, List.not_mem_nil, or_false, not_or]
    exact ⟨by decide, by decide, hhex a, hhex b, hhex c, hhex d⟩

theorem Token.zero_not_mem (t : Token) : 0 ∉ t.bytes := by
  cases t with
  | blank b => cases b <;> decide
  | punct p => cases p <;> decide
  | scalar s => exact s.not_mem.2
  | str s =>
    intro h
    simp only [Token.bytes, rawBytes, List.mem_cons, List.mem_append, List.mem_flatMap,
      List.not_mem_nil, or_false] at h
    rcases h with h | ⟨c, -, h⟩ | h
    · exact absurd h (by decide)
    · exact c.zero_not_mem h
    · exact absurd h (by decide)

theorem Text.zero_not_mem (t : Text) : 0 ∉ t.bytes := by
  intro h
  obtain ⟨token, -, h⟩ := List.mem_flatMap.mp h
  exact token.zero_not_mem h

/-! ## Where a quote can stand -/

section Quotes
variable {a b : UInt8} {P Q R l : List UInt8} {s : List StringChar} {t : Token} {ts : List Token}

theorem infix_cons_of_ne (h : a ≠ b) : a :: P <:+: b :: l ↔ a :: P <:+: l := by
  rw [List.infix_cons_iff, List.cons_prefix_cons]
  exact or_iff_right fun hp => h hp.1

theorem infix_append_of_not_mem (h : a ∉ l) : a :: P <:+: l ++ R ↔ a :: P <:+: R := by
  induction l with
  | nil => exact Iff.rfl
  | cons b l ih =>
    obtain ⟨hb, hl⟩ := not_or.mp (mt List.mem_cons.mpr h)
    rw [List.cons_append, infix_cons_of_ne hb, ih hl]

/-- A word of plain bytes and the closing quote after it are read off the
string that begins with them. -/
theorem plain_prefix_iff {w : List UInt8} (hw : ∀ b ∈ w, IsPlain b) :
    w ++ quote :: P <+: rawBytes s ++ quote :: R ↔ rawBytes s = w ∧ P <+: R := by
  induction s generalizing w with
  | nil =>
    cases w with
    | nil => exact List.prefix_cons_inj quote |>.trans (and_iff_right rfl).symm
    | cons b w =>
      have hb := (hw b List.mem_cons_self).2.1
      exact ⟨fun h => absurd (List.cons_prefix_cons.mp h).1 hb, fun h => (by cases h.1)⟩
  | cons c s ih =>
    -- what stands first is a plain byte or a backslash, never the closing quote
    have hfirst : ∀ {x : UInt8} {l : List UInt8}, x ≠ quote → (∀ b ∈ w, b ≠ x) →
        (w ++ quote :: P <+: x :: l ++ quote :: R ↔ x :: l = w ∧ P <+: R) := by
      intro x l hx hne
      cases w with
      | nil =>
        exact ⟨fun h => absurd (List.cons_prefix_cons.mp h).1.symm hx, fun h => (by cases h.1)⟩
      | cons b w =>
        have hb := hne b List.mem_cons_self
        exact ⟨fun h => absurd (List.cons_prefix_cons.mp h).1 hb,
          fun h => absurd (List.cons.inj h.1).1.symm hb⟩
    have hslash : ∀ b ∈ w, b ≠ backslash := fun b hb => (hw b hb).2.2
    cases c with
    | plain x hx =>
      cases w with
      | nil =>
        exact ⟨fun h => absurd (List.cons_prefix_cons.mp h).1.symm hx.2.1,
          fun h => (by cases h.1)⟩
      | cons b w =>
        have hrest := ih fun b hb => hw b (List.mem_cons_of_mem _ hb)
        simp only [rawBytes, List.flatMap_cons, StringChar.bytes, List.cons_append, List.nil_append,
          List.cons_prefix_cons, List.cons.injEq] at hrest ⊢
        rw [hrest, eq_comm, and_assoc]
    | escape e => exact hfirst (by decide) hslash
    | unicode a b c d => exact hfirst (by decide) hslash

theorem quote_suffix_append_iff (h : quote ∉ l) : quote :: P <:+ l ++ Q ↔ quote :: P <:+ Q := by
  induction l with
  | nil => exact Iff.rfl
  | cons b l ih =>
    obtain ⟨hb, hl⟩ := not_or.mp (mt List.mem_cons.mpr h)
    rw [List.cons_append, List.suffix_cons_iff, ih hl]
    exact or_iff_right fun he => hb (List.cons.inj he).1

/-- A quote inside a string is an escaped one or the closing one. -/
theorem quote_infix_iff :
    quote :: P <:+: rawBytes s ++ quote :: R ↔
      (∃ s', quote :: rawBytes s' <:+ rawBytes s ∧ P <+: rawBytes s' ++ quote :: R) ∨
        P <+: R ∨ quote :: P <:+: R := by
  induction s with
  | nil =>
    rw [rawBytes, List.flatMap_nil, List.nil_append, List.infix_cons_iff, List.prefix_cons_inj]
    refine (or_iff_right fun h => ?_).symm
    obtain ⟨s', hs', -⟩ := h
    cases List.suffix_nil.mp hs'
  | cons c s ih =>
    have hcons : rawBytes (c :: s) = c.bytes ++ rawBytes s := List.flatMap_cons
    have hclean : quote ∉ c.bytes → (quote :: P <:+: rawBytes (c :: s) ++ quote :: R ↔
        (∃ s', quote :: rawBytes s' <:+ rawBytes (c :: s) ∧ P <+: rawBytes s' ++ quote :: R) ∨
          P <+: R ∨ quote :: P <:+: R) := fun hc => by
      rw [hcons, List.append_assoc, infix_append_of_not_mem hc, ih]
      simp only [quote_suffix_append_iff hc]
    have hhex : ∀ d : HexDigit, quote ≠ d := fun d hd =>
      absurd (hd ▸ d.2) (by decide : quote ∉ hexDigits)
    cases c with
    | plain b hb => exact hclean fun h => hb.2.1 (List.mem_singleton.mp h).symm
    | unicode a b c d =>
      refine hclean ?_
      simp only [StringChar.bytes, List.mem_cons, List.not_mem_nil, or_false, not_or]
      exact ⟨by decide, by decide, hhex a, hhex b, hhex c, hhex d⟩
    | escape e =>
      by_cases he : e = .quote
      · subst he
        have hbytes : rawBytes (.escape .quote :: s) = backslash :: quote :: rawBytes s := rfl
        rw [hbytes, List.cons_append, List.cons_append, infix_cons_of_ne (by decide),
          List.infix_cons_iff, List.prefix_cons_inj, ih, ← or_assoc]
        refine or_congr_left ⟨?_, ?_⟩
        · rintro (hp | ⟨s', hs', hp⟩)
          · exact ⟨s, List.suffix_cons _ _, hp⟩
          · exact ⟨s', hs'.trans ((List.suffix_cons _ _).trans (List.suffix_cons _ _)), hp⟩
        · rintro ⟨s', hs', hp⟩
          rcases List.suffix_cons_iff.mp hs' with h | hs'
          · cases (List.cons.inj h).1
          · rcases List.suffix_cons_iff.mp hs' with h | hs'
            · rw [(List.cons.inj h).2] at hp
              exact .inl hp
            · exact .inr ⟨s', hs', hp⟩
      · exact hclean (by cases e <;> first | exact absurd rfl he | decide)

end Quotes

/-! ## A member in the bytes of a token list -/

section Tokens
variable {b : UInt8} {Q R word name : List UInt8} {t : Token} {ts : List Token}

/-- The bytes of a member written with one space after the colon, from the last
quote before the end of its key on. -/
def memberPattern (word name : List UInt8) : List UInt8 :=
  quote :: (word ++ quote :: 58 :: 32 :: quote :: (name ++ [quote]))

theorem str_bytes_append (s : List StringChar) (R : List UInt8) :
    Token.bytes (.str s) ++ R = quote :: (rawBytes s ++ quote :: R) := by
  rw [Token.bytes, List.cons_append, List.append_assoc, List.singleton_append]

/-- What a token's first byte tells. -/
theorem Token.prefix_cases (h : b :: Q <+: t.bytes ++ R) :
    (∃ w, t = .blank w ∧ b = w.byte ∧ Q <+: R) ∨ (∃ p, t = .punct p ∧ b = p.byte ∧ Q <+: R) ∨
      (∃ s, t = .scalar s ∧ b ∈ scalarStarts) ∨
      ∃ s, t = .str s ∧ b = quote ∧ Q <+: rawBytes s ++ quote :: R := by
  cases t with
  | blank w => exact .inl ⟨w, rfl, List.cons_prefix_cons.mp h⟩
  | punct p => exact .inr (.inl ⟨p, rfl, List.cons_prefix_cons.mp h⟩)
  | scalar s =>
    obtain ⟨c, rest, he, hc⟩ := s.starts
    rw [Token.bytes, he] at h
    exact .inr (.inr (.inl ⟨s, rfl, (List.cons_prefix_cons.mp h).1 ▸ hc⟩))
  | str s =>
    rw [str_bytes_append] at h
    exact .inr (.inr (.inr ⟨s, rfl, List.cons_prefix_cons.mp h⟩))

/-- Some token begins a list whose bytes begin with something. -/
theorem tokenBytes_prefix (h : b :: Q <+: tokenBytes ts) :
    ∃ t rest, ts = t :: rest ∧ b :: Q <+: t.bytes ++ tokenBytes rest := by
  cases ts with
  | nil => cases List.prefix_nil.mp h
  | cons t rest => exact ⟨t, rest, rfl, h⟩

theorem colon_prefix_iff :
    58 :: Q <+: tokenBytes ts ↔ ∃ rest, ts = .punct .colon :: rest ∧ Q <+: tokenBytes rest := by
  constructor
  · intro h
    obtain ⟨t, rest, rfl, h⟩ := tokenBytes_prefix h
    rcases Token.prefix_cases h with ⟨w, rfl, hb, -⟩ | ⟨p, rfl, hb, hq⟩ | ⟨s, rfl, hb⟩ |
      ⟨s, rfl, hb, -⟩
    · exact absurd hb (by cases w <;> decide)
    · cases p with
      | colon => exact ⟨rest, rfl, hq⟩
      | _ => exact absurd hb (by decide)
    · exact absurd hb (by decide)
    · exact absurd hb (by decide)
  · rintro ⟨rest, rfl, hq⟩
    exact List.cons_prefix_cons.mpr ⟨rfl, hq⟩

theorem space_prefix_iff :
    32 :: Q <+: tokenBytes ts ↔ ∃ rest, ts = .blank .space :: rest ∧ Q <+: tokenBytes rest := by
  constructor
  · intro h
    obtain ⟨t, rest, rfl, h⟩ := tokenBytes_prefix h
    rcases Token.prefix_cases h with ⟨w, rfl, hb, hq⟩ | ⟨p, rfl, hb, -⟩ | ⟨s, rfl, hb⟩ |
      ⟨s, rfl, hb, -⟩
    · cases w with
      | space => exact ⟨rest, rfl, hq⟩
      | _ => exact absurd hb (by decide)
    · exact absurd hb (by cases p <;> decide)
    · exact absurd hb (by decide)
    · exact absurd hb (by decide)
  · rintro ⟨rest, rfl, hq⟩
    exact List.cons_prefix_cons.mpr ⟨rfl, hq⟩

theorem quote_prefix_iff :
    quote :: Q <+: tokenBytes ts ↔
      ∃ s rest, ts = .str s :: rest ∧ Q <+: rawBytes s ++ quote :: tokenBytes rest := by
  constructor
  · intro h
    obtain ⟨t, rest, rfl, h⟩ := tokenBytes_prefix h
    rcases Token.prefix_cases h with ⟨w, rfl, hb, -⟩ | ⟨p, rfl, hb, -⟩ | ⟨s, rfl, hb⟩ |
      ⟨s, rfl, -, hq⟩
    · exact absurd hb (by cases w <;> decide)
    · exact absurd hb (by cases p <;> decide)
    · exact absurd hb (by decide)
    · exact ⟨s, rest, rfl, hq⟩
  · rintro ⟨s, rest, rfl, hq⟩
    have hbytes : tokenBytes (.str s :: rest) = quote :: (rawBytes s ++ quote :: tokenBytes rest) :=
      str_bytes_append s _
    rw [hbytes]
    exact List.cons_prefix_cons.mpr ⟨rfl, hq⟩

/-- The value of such a member, read off the tokens. -/
theorem value_prefix_iff (hname : ∀ b ∈ name, IsPlain b) :
    58 :: 32 :: quote :: (name ++ [quote]) <+: tokenBytes ts ↔
      ∃ v, rawBytes v = name ∧ [.punct .colon, .blank .space, .str v] <+: ts := by
  rw [colon_prefix_iff]
  constructor
  · rintro ⟨_, rfl, hspace⟩
    obtain ⟨_, rfl, hquote⟩ := space_prefix_iff.mp hspace
    obtain ⟨v, rest, rfl, h⟩ := quote_prefix_iff.mp hquote
    exact ⟨v, ((plain_prefix_iff hname).mp h).1, List.prefix_append _ rest⟩
  · rintro ⟨v, hv, rest, rfl⟩
    refine ⟨_, rfl, space_prefix_iff.mpr ⟨_, rfl, quote_prefix_iff.mpr ⟨v, rest, rfl, ?_⟩⟩⟩
    exact (plain_prefix_iff hname).mpr ⟨hv, List.nil_prefix⟩

/-- The tokens of such a member, whose key and value have the properties `K`
and `V`, stand somewhere in the list. -/
def Window (K V : List StringChar → Prop) (ts : List Token) : Prop :=
  ∃ k v, K k ∧ V v ∧ [.str k, .punct .colon, .blank .space, .str v] <:+: ts

variable {K V : List StringChar → Prop}

theorem window_nil : ¬ Window K V [] := by
  rintro ⟨k, v, -, -, h⟩
  cases List.infix_nil.mp h

theorem window_cons_of_ne (h : ∀ k, t ≠ .str k) : Window K V (t :: ts) ↔ Window K V ts := by
  refine exists_congr fun k => exists_congr fun v => and_congr_right fun _ =>
    and_congr_right fun _ => ?_
  rw [List.infix_cons_iff, List.cons_prefix_cons]
  exact or_iff_right fun hp => h k hp.1.symm

theorem window_str {s : List StringChar} : Window K V (.str s :: ts) ↔
    (K s ∧ ∃ v, V v ∧ [.punct .colon, .blank .space, .str v] <+: ts) ∨ Window K V ts := by
  constructor
  · rintro ⟨k, v, hk, hv, h⟩
    rcases List.infix_cons_iff.mp h with h | h
    · obtain ⟨he, htail⟩ := List.cons_prefix_cons.mp h
      obtain rfl := Token.str.inj he
      exact .inl ⟨hk, v, hv, htail⟩
    · exact .inr ⟨k, v, hk, hv, h⟩
  · rintro (⟨hk, v, hv, h⟩ | ⟨k, v, hk, hv, h⟩)
    · exact ⟨s, v, hk, hv, List.infix_cons_iff.mpr (.inl (List.cons_prefix_cons.mpr ⟨rfl, h⟩))⟩
    · exact ⟨k, v, hk, hv, List.infix_cons_iff.mpr (.inr h)⟩

/-- No token begins with the word and a quote. -/
def NoTokenStarts (word : List UInt8) : Prop := ∀ t R, ¬ word ++ [quote] <+: Token.bytes t ++ R

theorem NoTokenStarts.tokenBytes (hstart : NoTokenStarts word) (P : List UInt8)
    (ts : List Token) : ¬ word ++ quote :: P <+: tokenBytes ts := by
  intro h
  have hword : word ++ [quote] <+: word ++ quote :: P :=
    (List.prefix_append_right_inj word).mpr (List.cons_prefix_cons.mpr ⟨rfl, List.nil_prefix⟩)
  cases ts with
  | nil => exact absurd (List.prefix_nil.mp h) (by simp)
  | cons t ts => exact hstart t _ (hword.trans h)

/-- Plain bytes are those of some string. -/
theorem exists_rawBytes (hword : ∀ b ∈ word, IsPlain b) : ∃ s, rawBytes s = word := by
  induction word with
  | nil => exact ⟨[], rfl⟩
  | cons b word ih =>
    obtain ⟨s, hs⟩ := ih fun c hc => hword c (List.mem_cons_of_mem _ hc)
    exact ⟨.plain b (hword b List.mem_cons_self) :: s, congrArg (b :: ·) hs⟩

/-- **The pattern stands only where the tokens of a member do.** -/
theorem memberPattern_infix_iff (hword : ∀ b ∈ word, IsPlain b) (hname : ∀ b ∈ name, IsPlain b)
    (hstart : NoTokenStarts word) : memberPattern word name <:+: tokenBytes ts ↔
      Window (fun k => quote :: word <:+ quote :: rawBytes k) (fun v => rawBytes v = name) ts := by
  induction ts with
  | nil => exact ⟨fun h => (by cases List.infix_nil.mp h), fun h => absurd h window_nil⟩
  | cons t ts ih =>
    have hcons : tokenBytes (t :: ts) = t.bytes ++ tokenBytes ts := List.flatMap_cons
    have hclean : quote ∉ t.bytes → (∀ k, t ≠ .str k) →
        (memberPattern word name <:+: tokenBytes (t :: ts) ↔
          Window (fun k => quote :: word <:+ quote :: rawBytes k) (fun v => rawBytes v = name)
            (t :: ts)) := by
      intro hq hne
      rw [hcons, window_cons_of_ne hne, ← ih]
      exact infix_append_of_not_mem hq
    cases t with
    | blank w => exact hclean (by cases w <;> decide) (fun k hk => by cases hk)
    | punct p => exact hclean (by cases p <;> decide) (fun k hk => by cases hk)
    | scalar s => exact hclean s.not_mem.1 (fun k hk => by cases hk)
    | str k =>
      have hbytes : tokenBytes (.str k :: ts) = quote :: (rawBytes k ++ quote :: tokenBytes ts) :=
        str_bytes_append k _
      rw [window_str, ← value_prefix_iff hname, ← ih, hbytes, memberPattern, List.infix_cons_iff,
        List.prefix_cons_inj, plain_prefix_iff hword, quote_infix_iff,
        or_iff_right (hstart.tokenBytes _ ts), ← or_assoc]
      simp only [plain_prefix_iff hword]
      refine or_congr_left ⟨?_, ?_⟩
      · rintro (⟨hk, hv⟩ | ⟨s, hs, hw, hv⟩)
        · exact ⟨hk ▸ List.suffix_rfl, hv⟩
        · exact ⟨hw ▸ hs.trans (List.suffix_cons _ _), hv⟩
      · rintro ⟨hk, hv⟩
        rcases List.suffix_cons_iff.mp hk with he | hk
        · exact .inl ⟨(List.cons.inj he).2.symm, hv⟩
        · obtain ⟨s, hs⟩ := exists_rawBytes hword
          exact .inr ⟨s, hs ▸ hk, hs, hv⟩

end Tokens

/-! ## A member of the tree -/

section Tree
variable {K V : List StringChar → Prop} {R : List Token}

/-- The member is written with one space after the colon and none before it, its
key has the property `K` and its value is a string that has the property `V`. -/
def Member.Written (K V : List StringChar → Prop) : Member → Prop
  | .mk _ key afterKey beforeValue value _ =>
    K key ∧ afterKey = [] ∧ beforeValue = [.space] ∧ ∃ s, value = .string s ∧ V s

def AnyWritten (K V : List StringChar → Prop) (ms : List Member) : Prop := ∃ m ∈ ms, m.Written K V

theorem anyWritten_nil : ¬ AnyWritten K V [] := by
  rintro ⟨m, hm, -⟩
  cases hm

theorem anyWritten_cons {m : Member} {ms : List Member} :
    AnyWritten K V (m :: ms) ↔ m.Written K V ∨ AnyWritten K V ms := by
  simp only [AnyWritten, List.mem_cons, or_and_right, exists_or, exists_eq_left]

theorem anyWritten_append {ms ns : List Member} :
    AnyWritten K V (ms ++ ns) ↔ AnyWritten K V ms ∨ AnyWritten K V ns := by
  simp only [AnyWritten, List.mem_append, or_and_right, exists_or]

/-- What can follow a value. -/
def NoColon (ts : List Token) : Prop := ∀ rest, ts ≠ .punct .colon :: rest

theorem noColon_blanks (bs : List Blank) (h : NoColon R) : NoColon (blanks bs ++ R) := by
  cases bs with
  | nil => exact h
  | cons b bs => exact fun rest he => by cases he

theorem window_blanks (bs : List Blank) : Window K V (blanks bs ++ R) ↔ Window K V R := by
  induction bs with
  | nil => exact Iff.rfl
  | cons b bs ih => exact (window_cons_of_ne fun k hk => by cases hk).trans ih

theorem str_prefix_value_iff {v : Value} {s : List StringChar} :
    [.str s] <+: v.tokens ++ R ↔ v = .string s := by
  cases v with
  | string s' =>
    refine List.cons_prefix_cons.trans ⟨fun h => ?_, fun h => ?_⟩
    · rw [Token.str.inj h.1]
    · exact ⟨congrArg Token.str (Value.string.inj h).symm, List.nil_prefix⟩
  | _ =>
    refine ⟨fun h => ?_, fun h => by cases h⟩
    cases (List.cons_prefix_cons.mp h).1

/-- How the tokens after a key begin. -/
theorem separator_prefix_iff {afterKey beforeValue : List Blank} {v : Value}
    {s : List StringChar} :
    [.punct .colon, .blank .space, .str s] <+:
        blanks afterKey ++ .punct .colon :: (blanks beforeValue ++ (v.tokens ++ R)) ↔
      afterKey = [] ∧ beforeValue = [.space] ∧ v = .string s := by
  cases afterKey with
  | cons b bs =>
    refine ⟨fun h => ?_, fun h => by cases h.1⟩
    cases (List.cons_prefix_cons.mp h).1
  | nil =>
    rw [blanks, List.map_nil, List.nil_append, List.prefix_cons_inj, and_iff_right rfl]
    cases beforeValue with
    | nil =>
      refine ⟨fun h => ?_, fun h => by cases h.1⟩
      cases v <;> cases (List.cons_prefix_cons.mp h).1
    | cons b bs =>
      rw [blanks, List.map_cons, List.cons_append, List.cons_prefix_cons, Token.blank.injEq,
        List.cons.injEq]
      cases bs with
      | nil =>
        rw [List.map_nil, List.nil_append, str_prefix_value_iff, and_iff_left rfl,
          eq_comm (a := b)]
      | cons c bs =>
        refine ⟨fun h => ?_, fun h => by cases h.1.2⟩
        cases (List.cons_prefix_cons.mp h.2).1

theorem window_punct {p : Punct} : Window K V (.punct p :: R) ↔ Window K V R :=
  window_cons_of_ne fun k hk => by cases hk

theorem noColon_punct {p : Punct} (hp : p ≠ .colon) : NoColon (.punct p :: R) := by
  intro rest he
  exact hp (Token.punct.inj (List.cons.inj he).1)

mutual

theorem Value.window_iff (v : Value) {R : List Token} (h : NoColon R) :
    Window K V (v.tokens ++ R) ↔ AnyWritten K V v.allMembers ∨ Window K V R := by
  cases v with
  | scalar s =>
    rw [Value.allMembers, or_iff_right anyWritten_nil]
    exact window_cons_of_ne fun k hk => by cases hk
  | string s =>
    rw [Value.allMembers, or_iff_right anyWritten_nil, Value.tokens, List.singleton_append, window_str]
    refine or_iff_right fun hs => ?_
    obtain ⟨-, v, -, rest, rfl⟩ := hs
    exact h _ rfl
  | emptyArray inside =>
    rw [Value.allMembers, or_iff_right anyWritten_nil, Value.tokens, List.cons_append, window_punct,
      List.append_assoc, window_blanks, List.singleton_append, window_punct]
  | array items =>
    rw [Value.allMembers, Value.tokens, List.cons_append, window_punct, List.append_assoc,
      List.singleton_append, items.window_iff (noColon_punct (p := .closeBracket) (by decide)),
      window_punct]
  | emptyObject inside =>
    rw [Value.allMembers, or_iff_right anyWritten_nil, Value.tokens, List.cons_append, window_punct,
      List.append_assoc, window_blanks, List.singleton_append, window_punct]
  | object members =>
    rw [Value.allMembers, Value.tokens, List.cons_append, window_punct, List.append_assoc,
      List.singleton_append, members.window_iff (noColon_punct (p := .closeBrace) (by decide)),
      window_punct]

theorem Items.window_iff (items : Items) {R : List Token} (h : NoColon R) :
    Window K V (items.tokens ++ R) ↔ AnyWritten K V items.allMembers ∨ Window K V R := by
  cases items with
  | one before value after =>
    rw [Items.allMembers, Items.tokens, List.append_assoc, window_blanks, List.append_assoc,
      value.window_iff (noColon_blanks after h), window_blanks]
  | more before value after rest =>
    rw [Items.allMembers, Items.tokens, List.append_assoc, window_blanks, List.append_assoc,
      List.append_assoc, List.cons_append,
      value.window_iff (noColon_blanks after (noColon_punct (p := .comma) (by decide))),
      window_blanks, window_punct, rest.window_iff h, anyWritten_append, or_assoc]

theorem Member.window_iff (member : Member) {R : List Token} (h : NoColon R) :
    Window K V (member.tokens ++ R) ↔ AnyWritten K V member.allMembers ∨ Window K V R := by
  cases member with
  | mk before key afterKey beforeValue value after =>
    have hrest : NoColon (blanks after ++ R) := noColon_blanks after h
    have htokens : (Member.mk before key afterKey beforeValue value after).tokens ++ R =
        blanks before ++ .str key :: (blanks afterKey ++ .punct .colon ::
          (blanks beforeValue ++ (value.tokens ++ (blanks after ++ R)))) := by
      simp only [Member.tokens, List.append_assoc, List.cons_append]
    rw [htokens, window_blanks, window_str, window_blanks, window_punct, window_blanks,
      value.window_iff hrest, window_blanks, Member.allMembers, anyWritten_cons, or_assoc]
    refine or_congr_left (and_congr_right fun _ => ?_)
    simp only [separator_prefix_iff]
    constructor
    · rintro ⟨v, hv, ha, hb, he⟩
      exact ⟨ha, hb, v, he, hv⟩
    · rintro ⟨ha, hb, v, he, hv⟩
      exact ⟨v, hv, ha, hb, he⟩

theorem Members.window_iff (members : Members) {R : List Token} (h : NoColon R) :
    Window K V (members.tokens ++ R) ↔ AnyWritten K V members.allMembers ∨ Window K V R := by
  cases members with
  | one member => exact member.window_iff h
  | more member rest =>
    rw [Members.allMembers, Members.tokens, List.append_assoc, List.cons_append,
      member.window_iff (noColon_punct (p := .comma) (by decide)), window_punct,
      rest.window_iff h, anyWritten_append, or_assoc]

end

/-- **Where the pattern stands in a text.** Its bytes contain the pattern exactly
when a member, at some depth, is written so: the key ends in `word` after a
quote, its own or an escaped one, and the value is the string `name`. -/
theorem Text.infix_iff {word name : List UInt8} (t : Text) (hword : ∀ b ∈ word, IsPlain b)
    (hname : ∀ b ∈ name, IsPlain b) (hstart : NoTokenStarts word) :
    memberPattern word name <:+: t.bytes ↔
      AnyWritten (fun k => quote :: word <:+ quote :: rawBytes k) (fun v => rawBytes v = name)
        t.value.allMembers := by
  have hend : NoColon (blanks t.after ++ []) :=
    noColon_blanks t.after fun rest he => by cases he
  rw [Text.bytes, memberPattern_infix_iff hword hname hstart, Text.tokens, window_blanks,
    ← List.append_nil (blanks t.after), t.value.window_iff hend, window_blanks]
  exact or_iff_left window_nil

end Tree

end SynapseKernel.Json
