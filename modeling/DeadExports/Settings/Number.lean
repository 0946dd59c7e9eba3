import DeadExports.Settings.Basic

/-!
# Numbers

No field of a settings file is a number, so a number is read only to be named in
a message. Integers of 64 bits are named exactly. Any other number is first a
significand of at most 64 bits with a power of ten, later digits being dropped or
counted into the power, and then one product or quotient of doubles.
-/

namespace DeadExports.Settings

def digit? (byte : UInt8) : Option Nat :=
  if 0x30 ≤ byte ∧ byte ≤ 0x39 then some (byte.toNat - 0x30) else none

def takeDigits : Bytes → List Nat × Bytes
  | [] => ([], [])
  | byte :: rest =>
      match digit? byte with
      | none => ([], byte :: rest)
      | some d =>
          let (digits, rest) := takeDigits rest
          (d :: digits, rest)

/-- Extends a significand digit by digit as long as it stays within a limit.
Returns the significand and the number of digits that did not fit. -/
def extend (limit : Nat) : (significand : Nat) → List Nat → Nat × Nat
  | significand, [] => (significand, 0)
  | significand, d :: digits =>
      if significand * 10 + d > limit then (significand, digits.length + 1)
      else extend limit (significand * 10 + d) digits

def significandLimit : Nat := 0xFFFFFFFFFFFFFFFF

def exponentLimit : Nat := 0x7FFFFFFF

def powerOfTen (exponent : Nat) : Float :=
  Float.ofScientific 1 false exponent

def divideByPower (number : Float) (exponent : Nat) : Float :=
  if exponent ≤ 308 then number / powerOfTen exponent
  else if number == 0 then number
  else divideByPower (number / powerOfTen 308) (exponent - 308)
termination_by exponent

/-- A significand times a power of ten, unless that is no double. -/
def scale? (significand : Nat) (exponent : Int) : Option Float :=
  let number := Float.ofScientific significand false 0
  if exponent < 0 then some (divideByPower number exponent.natAbs)
  else if exponent.natAbs ≤ 308 then
    let product := number * powerOfTen exponent.natAbs
    if product.isInf then none else some product
  else if number == 0 then some number
  else none

/-- The readers of a number return what it is named by and what follows it. -/
abbrev NumberReading := Except Fault (Found × Bytes)

def scaled (positive : Bool) (significand : Nat) (exponent : Int) (rest : Bytes) : NumberReading :=
  match scale? significand exponent with
  | none => .error (.here .numberOutOfRange rest)
  | some number => .ok (.float (if positive then number else -number), rest)

def isExponentMark (byte : UInt8) : Bool :=
  byte = 0x65 || byte = 0x45

def exponentSign : Bytes → Bool × Bytes
  | [] => (true, [])
  | byte :: rest =>
      if byte = 0x2B then (true, rest)
      else if byte = 0x2D then (false, rest)
      else (true, byte :: rest)

/-- Extends an exponent digit by digit. A digit that makes it too large is taken
as well; `none` then stands for the exponent. -/
def readExponentDigits : (value : Nat) → Bytes → Option Nat × Bytes
  | value, [] => (some value, [])
  | value, byte :: rest =>
      match digit? byte with
      | none => (some value, byte :: rest)
      | some d =>
          if value * 10 + d > exponentLimit then (none, rest)
          else readExponentDigits (value * 10 + d) rest

def readExponent
    (positive : Bool) (significand : Nat) (start : Int) (rest : Bytes) : NumberReading :=
  let (up, rest) := exponentSign rest
  match rest with
  | [] => .error (.here .valueEnds [])
  | byte :: rest =>
      match digit? byte with
      | none => .error (.here .invalidNumber rest)
      | some d =>
          match readExponentDigits d rest with
          | (some exponent, rest) =>
              let exponent := if up then start + exponent else start - exponent
              scaled positive significand exponent rest
          | (none, rest) =>
              if significand ≠ 0 ∧ up then .error (.here .numberOutOfRange rest)
              else .ok (.float (if positive then 0 else -0), (takeDigits rest).2)

def readScale
    (positive : Bool) (significand : Nat) (exponent : Int) (rest : Bytes) : NumberReading :=
  match rest with
  | byte :: after =>
      if isExponentMark byte then readExponent positive significand exponent after
      else scaled positive significand exponent rest
  | [] => scaled positive significand exponent rest

def readFraction
    (positive : Bool) (significand : Nat) (exponent : Int) (rest : Bytes) : NumberReading :=
  match takeDigits rest with
  | ([], []) => .error (.ahead .valueEnds [])
  | ([], byte :: after) => .error (.ahead .invalidNumber (byte :: after))
  | (digits, after) =>
      let (significand, dropped) := extend significandLimit significand digits
      readScale positive significand (exponent - Int.ofNat (digits.length - dropped)) after

/-- Names an integer: exactly if it has 64 bits with its sign, and otherwise, or
for a negative zero, as a double. -/
def integer (positive : Bool) (value : Nat) : Found :=
  if positive then .integer value
  else if value = 0 ∨ 0x8000000000000000 < value then .float (-(Float.ofScientific value false 0))
  else .integer (-value)

/-- Reads what may follow the digits before a decimal point. `dropped` counts
those that the significand does not hold. -/
def readTail (positive : Bool) (significand dropped : Nat) (rest : Bytes) : NumberReading :=
  match rest with
  | byte :: after =>
      if byte = 0x2E then readFraction positive significand dropped after
      else if isExponentMark byte then readExponent positive significand dropped after
      else if dropped = 0 then .ok (integer positive significand, rest)
      else scaled positive significand dropped rest
  | [] =>
      if dropped = 0 then .ok (integer positive significand, rest)
      else scaled positive significand dropped rest

def readNumber (positive : Bool) : Bytes → NumberReading
  | [] => .error (.here .valueEnds [])
  | byte :: rest =>
      match digit? byte with
      | none => .error (.here .invalidNumber rest)
      | some 0 =>
          if (rest.head?.bind digit?).isSome then .error (.ahead .invalidNumber rest)
          else readTail positive 0 0 rest
      | some d =>
          let (digits, rest) := takeDigits rest
          let (significand, dropped) := extend significandLimit d digits
          readTail positive significand dropped rest

end DeadExports.Settings
