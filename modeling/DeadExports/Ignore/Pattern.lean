import DeadExports.Text.Basic

/-!
# Byte patterns

The patterns that globs stand for. A byte sequence is matched by rows: a row says
of every end piece of the sequence, from the whole down to the empty one, whether
it is accepted. Putting a pattern in front of what a row accepts gives another
row, and that is a recursion on the pattern. Only single bytes are repeated, so
each part of a pattern costs one pass over the sequence, however the parts are
combined.
-/

namespace DeadExports.Ignore

/-- A set of bytes: some ranges, or everything outside of them. -/
structure ByteSet where
  negated : Bool
  ranges : List (UInt8 × UInt8)
  deriving DecidableEq, Repr

namespace ByteSet

def all : ByteSet := ⟨true, []⟩

def single (byte : UInt8) : ByteSet := ⟨false, [(byte, byte)]⟩

def notSlash : ByteSet := ⟨true, [(0x2F, 0x2F)]⟩

def has (set : ByteSet) (byte : UInt8) : Bool :=
  let inside := set.ranges.any fun range => range.1 ≤ byte && byte ≤ range.2
  if set.negated then !inside else inside

end ByteSet

inductive Pattern where
  | empty
  | one (set : ByteSet)
  | many (set : ByteSet)
  | seq (first second : Pattern)
  | alt (first second : Pattern)
  deriving DecidableEq, Repr

namespace Pattern

/-- Which end pieces of some bytes are accepted, the longest first. -/
abbrev Row := List Bool

def lastRow (bytes : Bytes) : Row :=
  bytes.map (fun _ => false) ++ [true]

/-- One byte of a set, then what a row accepts. -/
def oneRow (set : ByteSet) : Bytes → Row → Row
  | byte :: bytes, _ :: row => (set.has byte && row.headD false) :: oneRow set bytes row
  | _, _ => [false]

def manyRow (set : ByteSet) : Bytes → Row → Row
  | byte :: bytes, accepted :: row =>
      let longer := manyRow set bytes row
      (accepted || (set.has byte && longer.headD false)) :: longer
  | _, row => row

def before (bytes : Bytes) : Pattern → Row → Row
  | .empty, row => row
  | .one set, row => oneRow set bytes row
  | .many set, row => manyRow set bytes row
  | .seq first second, row => first.before bytes (second.before bytes row)
  | .alt first second, row =>
      List.zipWith (· || ·) (first.before bytes row) (second.before bytes row)

def accepts (pattern : Pattern) (bytes : Bytes) : Bool :=
  (pattern.before bytes (lastRow bytes)).headD false

/-- One pattern after another; the empty pattern leaves no trace. -/
def andThen : Pattern → Pattern → Pattern
  | .empty, second => second
  | first, .empty => first
  | first, second => .seq first second

def concat (patterns : List Pattern) : Pattern :=
  patterns.foldr andThen .empty

def exactly (bytes : Bytes) : Pattern :=
  concat (bytes.map fun byte => .one (.single byte))

/-- Any of some patterns; empty ones do not count, and without any other the
result is empty. -/
def anyOf : List Pattern → Pattern
  | [] => .empty
  | .empty :: patterns => anyOf patterns
  | pattern :: patterns =>
      match anyOf patterns with
      | .empty => pattern
      | others => .alt pattern others

end Pattern

end DeadExports.Ignore
