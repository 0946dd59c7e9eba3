/-!
# Shortest decimals

A finite binary fraction `m · 2^q` is named by every decimal in its rounding
interval: the numbers that lie closer to it than to its neighbours, the ends
included when `m` is even. Among the decimals in that interval with the fewest
digits, the one nearest to the value is chosen, an exact tie going to the even
digit.

For each number of digits there are only two candidates, the value's two
neighbours on that decimal grid, and both are tested in exact arithmetic.
-/

namespace DeadExports.Decimal

structure Scaled where
  digits : Nat
  exponent : Int
  deriving DecidableEq, Repr

/-- A positive binary fraction and its rounding interval, over one denominator. -/
structure Interval where
  low : Nat
  value : Nat
  high : Nat
  denominator : Nat
  /-- Whether the ends belong to the interval. -/
  closed : Bool

/-- How many fractions there are between two powers of two. -/
def fractionSize : Nat := 0x10000000000000

def signBit : Nat := 0x8000000000000000

/-- The rounding interval of the positive double with given bits. Quarter units
of the last place make all three numbers integral; below a power of two the
neighbour is only half as far. -/
def Interval.ofBits (bits : Nat) : Interval :=
  let fraction := bits % fractionSize
  let biased := bits / fractionSize % 2048
  let significand := if biased = 0 then fraction else fraction + fractionSize
  let scale := max biased 1
  let below := if fraction = 0 ∧ 1 < biased then 1 else 2
  let up := Nat.pow 2 (scale - 1077)
  { low := (4 * significand - below) * up
    value := 4 * significand * up
    high := (4 * significand + 2) * up
    denominator := Nat.pow 2 (1077 - scale)
    closed := significand % 2 = 0 }

namespace Interval

def leading (interval : Interval) : Int :=
  let shifted := interval.value * Nat.pow 10 400 / interval.denominator
  Int.ofNat (Nat.toDigits 10 shifted).length - 401

def holds (interval : Interval) (count num den : Nat) : Bool :=
  let point := count * num * interval.denominator
  if interval.closed then interval.low * den ≤ point && point ≤ interval.high * den
  else interval.low * den < point && point < interval.high * den

/-- The decimal with a given number of digits that names the value, if there is
one. -/
def candidate? (interval : Interval) (size : Nat) : Option Scaled :=
  let exponent := interval.leading - (Int.ofNat size - 1)
  let num := Nat.pow 10 exponent.toNat
  let den := Nat.pow 10 (-exponent).toNat
  let below := interval.value * den / (interval.denominator * num)
  let rest := interval.value * den - below * (interval.denominator * num)
  let unit := interval.denominator * num
  let lower := interval.holds below num den
  let upper := interval.holds (below + 1) num den
  let takeLower := 2 * rest < unit || (2 * rest = unit && below % 2 = 0)
  if lower && (takeLower || !upper) then some ⟨below, exponent⟩
  else if upper then some ⟨below + 1, exponent⟩
  else none

end Interval

def Scaled.trim : (fuel : Nat) → Scaled → Scaled
  | 0, number => number
  | fuel + 1, number =>
      if number.digits ≠ 0 ∧ number.digits % 10 = 0 then
        Scaled.trim fuel ⟨number.digits / 10, number.exponent + 1⟩
      else number

/-- The shortest decimal that names the positive double with given bits.
Seventeen digits always suffice. -/
def shortest (bits : Nat) : Scaled :=
  let interval := Interval.ofBits bits
  match (List.range 17).findSome? fun k => interval.candidate? (k + 1) with
  | some number => number.trim 20
  | none => ⟨0, 0⟩

structure Layout where
  /-- Leading digits with an exponent from here on are written positionally. -/
  plainFrom : Int
  /-- Leading digits with an exponent from here on are written with an exponent. -/
  plainBelow : Int

/-- Writes a decimal: positionally with at least one digit on either side of the
point, or with the leading digit before the point and a signed exponent. -/
def Layout.write (layout : Layout) (number : Scaled) : String :=
  let digits := Nat.toDigits 10 number.digits
  let leading := number.exponent + Int.ofNat digits.length - 1
  let zeros (n : Nat) : List Char := List.replicate n '0'
  if layout.plainFrom ≤ leading ∧ leading < layout.plainBelow then
    if 0 ≤ number.exponent then
      String.ofList (digits ++ zeros number.exponent.toNat ++ ['.', '0'])
    else if 0 ≤ leading then
      let whole := leading.toNat + 1
      String.ofList (digits.take whole ++ '.' :: digits.drop whole)
    else
      String.ofList ('0' :: '.' :: zeros (-leading - 1).toNat ++ digits)
  else
    let tail := match digits with
      | [] => []
      | [d] => [d]
      | d :: rest => d :: '.' :: rest
    let sign := if 0 ≤ leading then '+' else '-'
    String.ofList (tail ++ 'e' :: sign :: Nat.toDigits 10 leading.natAbs)

def Layout.writeFloat (layout : Layout) (number : Float) : String :=
  let bits := number.toBits.toNat
  let sign := if signBit ≤ bits then "-" else ""
  let magnitude := bits % signBit
  if magnitude = 0 then sign ++ "0.0" else sign ++ layout.write (shortest magnitude)

end DeadExports.Decimal
