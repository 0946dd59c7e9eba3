import DeadExports.Decimal.Shortest
import DeadExports.Text.Quoted

/-!
# Settings

The settings file adds names that are always treated as used and may replace the
file name suffixes that are scanned.

A problem says what was found or missing in it, a position says how far the
reading had come. Positions count lines from one and columns in bytes; they are
computed from the bytes before them and never carried along while reading.
-/

namespace DeadExports

/-- The contents of a settings file; what the file leaves out is empty. -/
structure Settings where
  allow : List Text
  extensions : List Text
  deriving DecidableEq, Repr

def Settings.empty : Settings := ⟨[], []⟩

namespace Settings

inductive Field where
  | allow
  | extensions
  deriving DecidableEq, Repr

def Field.name : Field → Text
  | .allow => ['a', 'l', 'l', 'o', 'w']
  | .extensions => ['e', 'x', 't', 'e', 'n', 's', 'i', 'o', 'n', 's']

def Field.ofName? (name : Text) : Option Field :=
  if name = Field.allow.name then some .allow
  else if name = Field.extensions.name then some .extensions
  else none

/-! ## Problems -/

/-- A value that stands where another kind of value is wanted. -/
inductive Found where
  | null
  | boolean (value : Bool)
  | integer (value : Int)
  | float (value : Float)
  | string (value : Text)
  | sequence
  | map

inductive Wanted where
  | settings
  | sequence
  | string
  deriving DecidableEq, Repr

inductive Problem where
  | valueEnds
  | listEnds
  | objectEnds
  | stringEnds
  | colonExpected
  | listCommaOrEndExpected
  | objectCommaOrEndExpected
  | literalExpected
  | valueExpected
  | invalidEscape
  | invalidNumber
  | numberOutOfRange
  | unpairedSurrogate
  | escapeEnds
  | controlCharacter
  | keyExpected
  | trailingComma
  | trailingCharacters
  | wrongType (found : Found) (wanted : Wanted)
  | unknownField (name : Text)
  | duplicateField (field : Field)

/-- Numbers are shown positionally from `0.00001` up to sixteen digits before
the point. -/
def numberLayout : Decimal.Layout := ⟨-5, 16⟩

def Found.message : Found → String
  | .null => "null"
  | .boolean true => "boolean `true`"
  | .boolean false => "boolean `false`"
  | .integer value =>
      let digits := toString value
      s!"integer `{digits}`"
  | .float value =>
      let digits := numberLayout.writeFloat value
      s!"floating point `{digits}`"
  | .string value =>
      let text := String.ofList (Text.quoted value)
      s!"string {text}"
  | .sequence => "sequence"
  | .map => "map"

def Wanted.message : Wanted → String
  | .settings => "struct Settings"
  | .sequence => "a sequence"
  | .string => "a string"

def Problem.message : Problem → String
  | .valueEnds => "EOF while parsing a value"
  | .listEnds => "EOF while parsing a list"
  | .objectEnds => "EOF while parsing an object"
  | .stringEnds => "EOF while parsing a string"
  | .colonExpected => "expected `:`"
  | .listCommaOrEndExpected => "expected `,` or `]`"
  | .objectCommaOrEndExpected => "expected `,` or `\x7d`"
  | .literalExpected => "expected ident"
  | .valueExpected => "expected value"
  | .invalidEscape => "invalid escape"
  | .invalidNumber => "invalid number"
  | .numberOutOfRange => "number out of range"
  | .unpairedSurrogate => "lone leading surrogate in hex escape"
  | .escapeEnds => "unexpected end of hex escape"
  | .controlCharacter => "control character (\\u0000-\\u001F) found while parsing a string"
  | .keyExpected => "key must be a string"
  | .trailingComma => "trailing comma"
  | .trailingCharacters => "trailing characters"
  | .wrongType found wanted =>
      let found := found.message
      let wanted := wanted.message
      s!"invalid type: {found}, expected {wanted}"
  | .unknownField name =>
      let name := String.ofList name
      s!"unknown field `{name}`, expected `allow` or `extensions`"
  | .duplicateField field =>
      let name := String.ofList field.name
      s!"duplicate field `{name}`"

/-- A place in a text: the line, counted from one, and the bytes before it on
that line. -/
structure Position where
  line : Nat
  column : Nat
  deriving DecidableEq, Repr

def Position.behind (bytes : Bytes) : Position where
  line := 1 + bytes.count 0x0A
  column := (bytes.reverse.takeWhile (· ≠ 0x0A)).length

/-- A problem met while reading, with the number of bytes that follow the place
where it is reported. -/
structure Fault where
  problem : Problem
  remaining : Nat

def Fault.here (problem : Problem) (rest : Bytes) : Fault :=
  ⟨problem, rest.length⟩

/-- A fault reported behind the next byte, which was looked at but not taken. -/
def Fault.ahead (problem : Problem) (rest : Bytes) : Fault :=
  ⟨problem, rest.length - 1⟩

def Fault.position (fault : Fault) (text : Bytes) : Position :=
  Position.behind (text.take (text.length - fault.remaining))

end Settings

end DeadExports
