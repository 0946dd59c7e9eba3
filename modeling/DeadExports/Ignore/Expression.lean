import DeadExports.Ignore.Pattern

/-!
# Expressions

A glob stands for a regular expression. What an expression matches is a pattern;
beside it an expression knows how it is spelled, which some messages show, and
how large it is: how many constructs stand side by side in it, how deep they are
nested, and how much memory a matching machine for it takes. The three sizes and
the spelling are put together from those of the parts, exactly as the pattern
is, so an expression is never taken apart again.
-/

namespace DeadExports.Ignore

/-- The spelling of an expression, kept in pieces until it is asked for. -/
inductive Spelling where
  | chars (text : Text)
  | both (first second : Spelling)
  deriving DecidableEq, Repr

namespace Spelling

def before (rest : Text) : Spelling → Text
  | .chars text => text ++ rest
  | .both first second => first.before (second.before rest)

def text (spelling : Spelling) : Text :=
  spelling.before []

def between (left right : String) (spelling : Spelling) : Spelling :=
  .both (.chars left.toList) (.both spelling (.chars right.toList))

/-- Spellings with a bar between any two of them. -/
def barred : List Spelling → Spelling
  | [] => .chars []
  | [spelling] => spelling
  | spelling :: spellings => .both spelling (.both (.chars ['|']) (barred spellings))

end Spelling

structure Expression where
  pattern : Pattern
  spelling : Spelling
  /-- How many constructs stand in it side by side. -/
  width : Nat
  depth : Nat
  cost : Nat
  deriving DecidableEq, Repr

def stateCost : Nat := 32

def rangeCost : Nat := 8

def branchCost : Nat := 4

namespace ByteSet

def members (set : ByteSet) : List Bool :=
  (List.range 256).map fun code => set.has (UInt8.ofNat code)

/-- How many blocks of neighbours there are, `inside` one of them or not. -/
def countBlocks : (inside : Bool) → List Bool → Nat
  | _, [] => 0
  | inside, member :: members =>
      (if member && !inside then 1 else 0) + countBlocks member members

/-- What a machine for one byte of a set takes. A single byte needs one state. -/
def cost (set : ByteSet) : Nat :=
  if (set.members.filter id).length ≤ 1 then stateCost
  else 2 * stateCost + rangeCost * countBlocks false set.members

end ByteSet

namespace Expression

/-- The characters that stand for themselves only behind a backslash. -/
def specials : Text := "\\.+*?()|[]\x7b\x7d^$#&-~".toList

def spelledByte (byte : UInt8) : Text :=
  let c := Char.ofNat byte.toNat
  if 0x80 ≤ byte then
    ['\\', 'x', Nat.digitChar (byte.toNat / 16), Nat.digitChar (byte.toNat % 16)]
  else if specials.contains c then ['\\', c]
  else [c]

def spelledRange (range : UInt8 × UInt8) : Text :=
  if range.1 = range.2 then spelledByte range.1
  else spelledByte range.1 ++ '-' :: spelledByte range.2

/-- Matches nothing but the empty sequence, and is not spelled at all. -/
def empty : Expression := ⟨.empty, .chars [], 0, 0, 0⟩

def byte (byte : UInt8) : Expression :=
  ⟨.one (.single byte), .chars (spelledByte byte), 1, 0, stateCost⟩

def slash : Expression := byte 0x2F

/-- One byte of a set, its ranges in brackets. Several ranges are a construct of
their own within the brackets. -/
def oneOf (set : ByteSet) : Expression where
  pattern := .one set
  spelling :=
    Spelling.between (if set.negated then "[^" else "[") "]"
      (.chars (set.ranges.flatMap spelledRange))
  width := 1
  depth := if set.ranges.length ≤ 1 then 1 else 2
  cost := set.cost

def dot : Expression := ⟨.one .all, .chars ['.'], 1, 0, ByteSet.all.cost⟩

def notSlash : Expression := oneOf .notSlash

def many (set : ByteSet) (one : Expression) : Expression where
  pattern := .many set
  spelling := .both one.spelling (.chars ['*'])
  width := 1
  depth := one.depth + 1
  cost := one.cost + stateCost + 2 * branchCost

def anything : Expression := many .all dot

def anythingWithin : Expression := many .notSlash notSlash

def andThen (first second : Expression) : Expression where
  pattern := first.pattern.andThen second.pattern
  spelling := .both first.spelling second.spelling
  width := first.width + second.width
  depth := max first.depth second.depth
  cost := first.cost + second.cost

def concat (expressions : List Expression) : Expression :=
  expressions.foldr andThen empty

def exactly (bytes : Bytes) : Expression :=
  concat (bytes.map byte)

/-- How deep an expression is nested as a part of another: several constructs side
by side are one construct more. -/
def nesting (expression : Expression) : Nat :=
  if expression.width ≤ 1 then expression.depth else expression.depth + 1

def optional (expression : Expression) : Expression where
  pattern := .alt .empty expression.pattern
  spelling := .both expression.spelling (.chars ['?'])
  width := 1
  depth := expression.nesting + 1
  cost := expression.cost + 2 * stateCost + 2 * branchCost

def group : List Expression → Expression
  | [] => empty
  | [only] =>
      { only with
        spelling := only.spelling.between "(?:" ")"
        width := 1
        depth := only.nesting + 1 }
  | branches =>
      { pattern := .anyOf (branches.map pattern)
        spelling := (Spelling.barred (branches.map spelling)).between "(?:" ")"
        width := 1
        depth := (branches.map nesting).foldl Nat.max 0 + 2
        cost :=
          (branches.map cost).foldl Nat.add 0 + 2 * stateCost + branchCost * branches.length }

/-- A group of alternatives. Empty ones do not count, and without any other the
result is empty. -/
def anyOf (branches : List Expression) : Expression :=
  group (branches.filter (·.width ≠ 0))

end Expression

end DeadExports.Ignore
