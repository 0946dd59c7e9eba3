import DeadExports.Text.Basic

/-!
# Texts without control sequences

Words of a command line are repeated in messages, and a message must not move
the cursor or change colours. So control characters and the sequences that an
escape character opens are left out of them, all but tabs and line ends.

A sequence is followed one character at a time. After an escape character comes
a single final character, a control sequence (`[`), a device string (`P`), a
command for the system (`]`) or a remark (`X`, `^`, `_`). Control sequences and
device strings begin with parameters and intermediate characters; what violates
that order is passed over up to the end of the sequence. A blank inside a
control sequence is shown and interrupts it. Whether the sequence is then over
or only suspended is where the two filters of this file differ.
-/

namespace DeadExports.Text.Terminal

/-- How far the beginning of a control sequence or device string has come. -/
inductive Stage where
  | entered
  | parameters
  | intermediates
  | broken
  deriving DecidableEq, Repr

inductive Place where
  | outside
  | escape (intermediates : Bool)
  | control (stage : Stage)
  | device (stage : Stage)
  | deviceData
  | command
  | remark
  deriving DecidableEq, Repr

/-- What follows the character `c` in the beginning of a sequence; `none` once
the beginning is complete. -/
def Stage.next (stage : Stage) (c : Char) : Option Stage :=
  if 0x40 ≤ c.toNat then none
  else
    match stage with
    | .broken => some .broken
    | .intermediates => some (if c.toNat < 0x30 then .intermediates else .broken)
    | .parameters =>
        some (if c.toNat < 0x30 then .intermediates
          else if c.toNat < 0x3C then .parameters
          else .broken)
    | .entered => some (if c.toNat < 0x30 then .intermediates else .parameters)

def opened (c : Char) : Place :=
  if c = '[' then .control .entered
  else if c = 'P' then .device .entered
  else if c = ']' then .command
  else if c = 'X' ∨ c = '^' ∨ c = '_' then .remark
  else .outside

def Place.afterGraphic (place : Place) (c : Char) : Place :=
  match place with
  | .escape intermediates =>
      if c.toNat < 0x30 then .escape true
      else if intermediates then .outside
      else opened c
  | .control stage =>
      match stage.next c with
      | some stage => .control stage
      | none => .outside
  | .device stage =>
      match stage.next c, stage with
      | some stage, _ => .device stage
      | none, .broken => .device .broken
      | none, _ => .deviceData
  | place => place

def Place.after (place : Place) (c : Char) : Place :=
  if c = '\x1b' then .escape false
  else if c = '\x18' ∨ c = '\x1a' then .outside
  else if c = '\x07' ∧ place = .command then .outside
  else if c.toNat < 0x20 ∨ c = '\x7f' then place
  else place.afterGraphic c

/-- What follows a character from U+0080 on. Strings also end at the byte `9C`,
even within a character. -/
def Place.afterWide (place : Place) (c : Char) : Place :=
  if place = .deviceData ∨ place = .device .broken ∨ place = .remark then
    if (String.utf8EncodeChar c).contains 0x9C then .outside else place
  else place

def isBlank (c : Char) : Bool :=
  c = '\t' || c = '\n' || c = '\x0c' || c = '\r'

def Place.shows (place : Place) (c : Char) : Bool :=
  match place with
  | .outside => isBlank c || (0x20 ≤ c.toNat && c ≠ '\x7f')
  | .escape _ | .control _ => isBlank c
  | _ => false

/-- What is shown of a text from some place on. A blank ends the sequence that it
interrupts. The first byte of a character from U+0080 on belongs to the sequence
it stands in and its other bytes do not, so each of those is shown as a broken
character. -/
def shownFrom : Place → Text → Text
  | _, [] => []
  | place, c :: text =>
      if c.toNat < 0x80 then
        if place.shows c then c :: shownFrom .outside text
        else shownFrom (place.after c) text
      else if place = .outside then c :: shownFrom .outside text
      else
        List.replicate (c.utf8Size - 1) '\uFFFD' ++ shownFrom .outside text

/-- What is shown of a text in a message that is kept. -/
def shown (text : Text) : Text :=
  shownFrom .outside text

/-- What is written of a text from some place on. A blank suspends the sequence
that it interrupts: while `passing` holds, everything is written that would be
written outside, and the next control character takes the sequence up again. -/
def writtenFrom : Place → (passing : Bool) → Text → Text
  | _, _, [] => []
  | place, passing, c :: text =>
      if c.toNat < 0x80 then
        if (if passing then Place.outside else place).shows c then c :: writtenFrom place true text
        else writtenFrom (place.after c) false text
      else if passing ∨ place = .outside then c :: writtenFrom .outside true text
      else writtenFrom (place.afterWide c) false text

/-- What is written of a text to an output that is no terminal. -/
def written (text : Text) : Text :=
  writtenFrom .outside false text

end DeadExports.Text.Terminal
