import DeadExports.Settings.Basic
import Mathlib.Data.List.TakeWhile

/-!
# The grammar of settings documents

A document is first a sequence of tokens, with white space allowed before each of them and
after the last. Tokens are the six marks of JSON and string literals; numbers and the words
`true`, `false` and `null` cannot occur. On top of the tokens, a document is a tree that
says which literals stand where, and the settings it denotes depend on the tree alone.

Literals keep their spelling, because two spellings may have the same value and because a
comment can hide in the one but not in the other. Only well-formed literals can be built:
a character that stands for itself carries the proof that it may, and so does a code.

No token is the beginning of another one, and none begins with white space. A text is
therefore cut into tokens in one way only.
-/

namespace DeadExports.Settings

/-! ## Literals -/

inductive HexDigit where
  | decimal (digit : Fin 10)
  | lower (digit : Fin 6)
  | upper (digit : Fin 6)
  deriving DecidableEq, Repr

def HexDigit.char : HexDigit → Char
  | decimal digit => Char.ofNat ('0'.toNat + digit)
  | lower digit => Char.ofNat ('a'.toNat + digit)
  | upper digit => Char.ofNat ('A'.toNat + digit)

def HexDigit.value : HexDigit → Nat
  | decimal digit => digit
  | lower digit => 10 + digit
  | upper digit => 10 + digit

structure HexCode where
  first : HexDigit
  second : HexDigit
  third : HexDigit
  fourth : HexDigit
  deriving DecidableEq, Repr

namespace HexCode

def source (code : HexCode) : Text :=
  [code.first.char, code.second.char, code.third.char, code.fourth.char]

def value (code : HexCode) : Nat :=
  code.first.value * 0x1000 + code.second.value * 0x100 + code.third.value * 0x10 +
    code.fourth.value

/-- The first half of a surrogate pair. -/
def IsHigh (code : HexCode) : Prop :=
  0xD800 ≤ code.value ∧ code.value < 0xDC00

/-- The second half of a surrogate pair. -/
def IsLow (code : HexCode) : Prop :=
  0xDC00 ≤ code.value ∧ code.value < 0xE000

instance (code : HexCode) : Decidable code.IsHigh :=
  inferInstanceAs (Decidable (_ ∧ _))

instance (code : HexCode) : Decidable code.IsLow :=
  inferInstanceAs (Decidable (_ ∧ _))

end HexCode

inductive Escape where
  | quote
  | backslash
  | slash
  | backspace
  | formFeed
  | lineFeed
  | carriageReturn
  | tab
  deriving DecidableEq, Repr

def Escape.letter : Escape → Char
  | quote => '"'
  | backslash => '\\'
  | slash => '/'
  | backspace => 'b'
  | formFeed => 'f'
  | lineFeed => 'n'
  | carriageReturn => 'r'
  | tab => 't'

def Escape.value : Escape → Char
  | quote => '"'
  | backslash => '\\'
  | slash => '/'
  | backspace => Char.ofNat 0x08
  | formFeed => Char.ofNat 0x0C
  | lineFeed => '\n'
  | carriageReturn => '\r'
  | tab => '\t'

/-- A character that may stand for itself in a literal: no control character, no quote and
no backslash. -/
def IsPlain (c : Char) : Prop :=
  0x20 ≤ c.toNat ∧ c ≠ '"' ∧ c ≠ '\\'

instance (c : Char) : Decidable (IsPlain c) :=
  inferInstanceAs (Decidable (_ ∧ _))

/-- A character of a literal as it is written. -/
inductive LiteralChar where
  | plain (c : Char) (h : IsPlain c)
  | escaped (escape : Escape)
  | coded (code : HexCode) (hhigh : ¬code.IsHigh) (hlow : ¬code.IsLow)
  | paired (high low : HexCode) (hhigh : high.IsHigh) (hlow : low.IsLow)

namespace LiteralChar

def source : LiteralChar → Text
  | plain c _ => [c]
  | escaped escape => ['\\', escape.letter]
  | coded code _ _ => '\\' :: 'u' :: code.source
  | paired high low _ _ => '\\' :: 'u' :: (high.source ++ '\\' :: 'u' :: low.source)

/-- The two halves of a pair hold ten bits each of the code less `0x10000`. -/
def value : LiteralChar → Char
  | plain c _ => c
  | escaped escape => escape.value
  | coded code _ _ => Char.ofNat code.value
  | paired high low _ _ =>
      Char.ofNat (0x10000 + high.value % 0x400 * 0x400 + low.value % 0x400)

end LiteralChar

/-- A string literal as it is written. -/
structure Literal where
  chars : List LiteralChar

namespace Literal

def source (literal : Literal) : Text :=
  '"' :: (literal.chars.flatMap LiteralChar.source ++ ['"'])

def value (literal : Literal) : Text :=
  literal.chars.map LiteralChar.value

end Literal

/-! ## Tokens -/

inductive Mark where
  | openBracket
  | closeBracket
  | openBrace
  | closeBrace
  | comma
  | colon
  deriving DecidableEq, Repr

def Mark.char : Mark → Char
  | openBracket => '['
  | closeBracket => ']'
  | openBrace => '\x7b'
  | closeBrace => '\x7d'
  | comma => ','
  | colon => ':'

inductive Token where
  | mark (mark : Mark)
  | literal (literal : Literal)

def Token.source : Token → Text
  | .mark m => [m.char]
  | .literal l => l.source

/-- White space: a space, a line feed, a tab or a carriage return. -/
def isWhite (c : Char) : Bool :=
  c = ' ' || c = '\n' || c = '\t' || c = '\r'

/-- A text consists of some tokens, each after any amount of white space, and of a rest. -/
def Begins : List Token → (text rest : Text) → Prop
  | [], text, rest => text = rest
  | token :: tokens, text, rest => ∃ blanks more,
      (∀ c ∈ blanks, isWhite c = true) ∧ text = blanks ++ (token.source ++ more) ∧
        Begins tokens more rest

/-- A text consists of some tokens with white space around them. -/
def Spells (tokens : List Token) (text : Text) : Prop :=
  ∃ blanks, Begins tokens text blanks ∧ ∀ c ∈ blanks, isWhite c = true

/-! ## Documents -/

structure Member where
  key : Literal
  values : List Literal

/-- A settings document apart from its white space. -/
inductive Document where
  | object (members : List Member)
  | array (fields : List (List Literal))

/-- An array whose elements are given by their tokens. -/
def bracketed (elements : List (List Token)) : List Token :=
  .mark .openBracket :: (List.intercalate [.mark .comma] elements ++ [.mark .closeBracket])

/-- An array of literals. -/
def literalArray (values : List Literal) : List Token :=
  bracketed (values.map fun literal => [.literal literal])

def Member.tokens (member : Member) : List Token :=
  .literal member.key :: .mark .colon :: literalArray member.values

namespace Document

def tokens : Document → List Token
  | object members =>
      .mark .openBrace ::
        (List.intercalate [.mark .comma] (members.map Member.tokens) ++ [.mark .closeBrace])
  | array fields => bracketed (fields.map literalArray)

/-- The values that an object gives under some key; none if it lacks the key. -/
def valuesOf (members : List Member) (key : Text) : List Text :=
  match members.find? (·.key.value = key) with
  | some member => member.values.map Literal.value
  | none => []

/-- An object has no other keys than the two, and neither of them twice. An array gives at
most two fields, in a fixed order. What a document does not give is empty. -/
def Denotes : Document → Settings → Prop
  | object members, settings =>
      (∀ member ∈ members,
        member.key.value = "allow".toList ∨ member.key.value = "extensions".toList) ∧
      (members.map (·.key.value)).Nodup ∧
      settings = ⟨valuesOf members "allow".toList, valuesOf members "extensions".toList⟩
  | array fields, settings =>
      fields.length ≤ 2 ∧
      settings = ⟨(fields.getD 0 []).map Literal.value, (fields.getD 1 []).map Literal.value⟩

instance (document : Document) (settings : Settings) : Decidable (document.Denotes settings) :=
  match document with
  | object _ => inferInstanceAs (Decidable (_ ∧ _))
  | array _ => inferInstanceAs (Decidable (_ ∧ _))

end Document

/-! ## Cutting a text into tokens -/

theorem begins_nil {text rest : Text} : Begins [] text rest ↔ text = rest :=
  Iff.rfl

theorem begins_append {first second : List Token} {text rest : Text} :
    Begins (first ++ second) text rest ↔
      ∃ more, Begins first text more ∧ Begins second more rest := by
  induction first generalizing text with
  | nil => simp [Begins]
  | cons token first ih =>
      simp only [List.cons_append, Begins, ih]
      constructor
      · rintro ⟨blanks, more, hblanks, htext, middle, hfirst, hsecond⟩
        exact ⟨middle, ⟨blanks, more, hblanks, htext, hfirst⟩, hsecond⟩
      · rintro ⟨middle, ⟨blanks, more, hblanks, htext, hfirst⟩, hsecond⟩
        exact ⟨blanks, more, hblanks, htext, middle, hfirst, hsecond⟩

theorem begins_cons_iff_singleton {token : Token} {tokens : List Token} {text rest : Text} :
    Begins (token :: tokens) text rest ↔
      ∃ more, Begins [token] text more ∧ Begins tokens more rest := by
  rw [← List.singleton_append, begins_append]

theorem Mark.isWhite_char (mark : Mark) : isWhite mark.char = false := by
  cases mark <;> decide

theorem Token.exists_source_eq_cons (token : Token) :
    ∃ c source, token.source = c :: source ∧ isWhite c = false := by
  cases token with
  | mark m => exact ⟨m.char, [], rfl, m.isWhite_char⟩
  | literal l => exact ⟨'"', _, rfl, by decide⟩

/-- The next token is found by skipping white space. -/
theorem begins_cons {token : Token} {tokens : List Token} {text rest : Text} :
    Begins (token :: tokens) text rest ↔
      ∃ more, text.dropWhile isWhite = token.source ++ more ∧ Begins tokens more rest := by
  constructor
  · rintro ⟨blanks, more, hblanks, rfl, htokens⟩
    refine ⟨more, ?_, htokens⟩
    obtain ⟨c, source, hsource, hc⟩ := token.exists_source_eq_cons
    rw [List.dropWhile_append_of_pos hblanks, hsource, List.cons_append,
      List.dropWhile_cons_of_neg (by simp [hc])]
  · rintro ⟨more, hmore, htokens⟩
    refine ⟨text.takeWhile isWhite, more, fun c hc => List.mem_takeWhile_imp hc, ?_, htokens⟩
    rw [← hmore, List.takeWhile_append_dropWhile]

/-- What follows some tokens at the beginning of a text. -/
def dropTokens? : List Token → Text → Option Text
  | [], text => some text
  | token :: tokens, text =>
      (after? token.source (text.dropWhile isWhite)).bind (dropTokens? tokens)

/-- Where the tokens of a text end can be computed. -/
theorem begins_iff_dropTokens? {tokens : List Token} {text rest : Text} :
    Begins tokens text rest ↔ dropTokens? tokens text = some rest := by
  induction tokens generalizing text with
  | nil => exact ⟨fun h => congrArg some h, fun h => Option.some.inj h⟩
  | cons token tokens ih =>
      simp only [begins_cons, dropTokens?, Option.bind_eq_some_iff, after?_eq_some_iff, ih]

instance (tokens : List Token) (text : Text) : Decidable (Spells tokens text) :=
  decidable_of_iff ((dropTokens? tokens text).any (·.all isWhite) = true) <| by
    simp only [Spells, begins_iff_dropTokens?, Option.any_eq_true, List.all_eq_true]

end DeadExports.Settings
