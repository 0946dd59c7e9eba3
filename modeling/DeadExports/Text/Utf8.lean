import DeadExports.Text.Basic

/-!
# Reading UTF-8

A decoder is fed one byte at a time. Between two bytes it remembers only
whether it stands inside a multi-byte character, and if so which bytes may come
next; the second byte's range is what excludes overlong forms, surrogates and
codes above U+10FFFF. A byte that cannot continue the character closes the
broken sequence and is then read afresh, so a broken sequence is always as long
as a well-formed beginning allows and never swallows what follows it.

The result is a list of pieces: characters, and one mark per broken sequence.
Source texts leave the marks out, displayed paths show each as U+FFFD, and
strict reading accepts only byte sequences without marks.
-/

namespace DeadExports.Utf8

inductive Progress where
  | ready
  /-- It stands inside a character: the code read so far, the number of bytes
  that follow the next one, and the range of the next one. -/
  | inside (code more : Nat) (low high : UInt8)
  deriving DecidableEq, Repr

/-- A character, or `none` for one broken sequence. -/
abbrev Piece := Option Char

def start (byte : UInt8) : Progress × List Piece :=
  if byte < 0x80 then (.ready, [some (Char.ofNat byte.toNat)])
  else if byte < 0xC2 then (.ready, [none])
  else if byte < 0xE0 then (.inside (byte.toNat - 0xC0) 0 0x80 0xBF, [])
  else if byte = 0xE0 then (.inside 0 1 0xA0 0xBF, [])
  else if byte = 0xED then (.inside 0xD 1 0x80 0x9F, [])
  else if byte < 0xF0 then (.inside (byte.toNat - 0xE0) 1 0x80 0xBF, [])
  else if byte = 0xF0 then (.inside 0 2 0x90 0xBF, [])
  else if byte < 0xF4 then (.inside (byte.toNat - 0xF0) 2 0x80 0xBF, [])
  else if byte = 0xF4 then (.inside 4 2 0x80 0x8F, [])
  else (.ready, [none])

/-- One byte: the progress after it and the pieces that it completes. -/
def step : Progress → UInt8 → Progress × List Piece
  | .ready, byte => start byte
  | .inside code more low high, byte =>
      if low ≤ byte ∧ byte ≤ high then
        let code := code * 64 + (byte.toNat - 0x80)
        match more with
        | 0 => (.ready, [some (Char.ofNat code)])
        | more + 1 => (.inside code more 0x80 0xBF, [])
      else
        let (progress, pieces) := start byte
        (progress, none :: pieces)

structure Decoder where
  progress : Progress
  /-- The pieces completed so far, the latest first. -/
  output : List Piece

def Decoder.initial : Decoder := ⟨.ready, []⟩

def Decoder.feed (decoder : Decoder) (byte : UInt8) : Decoder :=
  let (progress, pieces) := step decoder.progress byte
  ⟨progress, pieces.reverse ++ decoder.output⟩

/-- All pieces, once the input has ended; an unfinished character is a broken
sequence. -/
def Decoder.finish (decoder : Decoder) : List Piece :=
  match decoder.progress with
  | .ready => decoder.output.reverse
  | .inside .. => (none :: decoder.output).reverse

def pieces (bytes : Bytes) : List Piece :=
  (bytes.foldl Decoder.feed Decoder.initial).finish

/-- The text of a byte sequence, broken sequences left out. -/
def decodeDropping (bytes : Bytes) : Text :=
  (pieces bytes).filterMap id

/-- The text of a byte sequence, each broken sequence shown as U+FFFD. -/
def decodeReplacing (bytes : Bytes) : Text :=
  (pieces bytes).map (·.getD '\uFFFD')

def isValid (bytes : Bytes) : Bool :=
  (pieces bytes).all Option.isSome

def decode? (bytes : Bytes) : Option Text :=
  if isValid bytes then some (decodeDropping bytes) else none

end DeadExports.Utf8
