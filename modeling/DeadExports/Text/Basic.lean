/-!
# Bytes and texts

File contents and path names are sequences of bytes; decoded file contents,
identifiers and messages are sequences of characters. Both are plain lists, so
that every later definition is a recursion on its data and every statement
about a position is a statement about `List.drop`.

The file also holds what the rest of the library rests on: removing a fixed
beginning, finding one list inside another, and cutting a text into lines. A
text is cut at every line feed. A carriage return directly before a line feed
belongs to the line's end; a carriage return anywhere else, the very end of the
text included, is part of the line. A final line feed starts no further line.
-/

namespace DeadExports

/-- The contents of a file, or the spelling of a path. -/
abbrev Bytes := List UInt8

abbrev Text := List Char

def Text.encode (text : Text) : Bytes :=
  text.flatMap String.utf8EncodeChar

def Bytes.ofString (text : String) : Bytes :=
  Text.encode text.toList

variable {α : Type} [DecidableEq α]

/-- What follows `front` in `whole`, when `whole` begins with it. -/
def after? : (front whole : List α) → Option (List α)
  | [], whole => some whole
  | _ :: _, [] => none
  | a :: front, b :: whole => if a = b then after? front whole else none

def dropFront (front whole : List α) : List α :=
  (after? front whole).getD whole

/-- Whether `part` occurs in a list as a contiguous block. The empty list
occurs everywhere. -/
def occursIn (part : List α) : List α → Bool
  | [] => part.isEmpty
  | a :: as => (after? part (a :: as)).isSome || occursIn part as

def endsWith (tail whole : List α) : Bool :=
  (after? tail.reverse whole.reverse).isSome

theorem after?_eq_some_iff
    {front whole rest : List α} :
    after? front whole = some rest ↔ whole = front ++ rest := by
  induction front generalizing whole with
  | nil => simp [after?]
  | cons a front ih =>
      cases whole with
      | nil => simp [after?]
      | cons b whole =>
          by_cases hab : a = b
          · simp [after?, hab, ih]
          · simp [after?, hab, Ne.symm hab]

theorem isSome_after?_iff
    {front whole : List α} :
    (after? front whole).isSome ↔ front <+: whole := by
  rw [Option.isSome_iff_exists]
  constructor
  · rintro ⟨rest, h⟩
    exact ⟨rest, (after?_eq_some_iff.mp h).symm⟩
  · rintro ⟨rest, h⟩
    exact ⟨rest, after?_eq_some_iff.mpr h.symm⟩

theorem occursIn_iff
    {part whole : List α} :
    occursIn part whole = true ↔ part <:+: whole := by
  induction whole with
  | nil => cases part <;> simp [occursIn]
  | cons a whole ih =>
      rw [occursIn, Bool.or_eq_true, isSome_after?_iff, ih, List.infix_cons_iff]

theorem endsWith_iff
    {tail whole : List α} :
    endsWith tail whole = true ↔ tail <:+ whole := by
  rw [endsWith, isSome_after?_iff, List.reverse_prefix]

/-! ## Lines -/

/-- The pieces between the occurrences of `mark`; there is always at least one. -/
def cutAt (mark : α) : List α → List (List α)
  | [] => [[]]
  | a :: as =>
      if a = mark then [] :: cutAt mark as
      else
        match cutAt mark as with
        | [] => [[a]]
        | piece :: pieces => (a :: piece) :: pieces

def dropLastMark (mark : α) (line : List α) : List α :=
  if line.getLast? = some mark then line.dropLast else line

/-- All pieces but the last lose a final carriage return, and an empty last piece
is no line. -/
def linesOfPieces (cr : α) : List (List α) → List (List α)
  | [] => []
  | [last] => if last.isEmpty then [] else [last]
  | piece :: pieces => dropLastMark cr piece :: linesOfPieces cr pieces

def Bytes.lines (bytes : Bytes) : List Bytes :=
  linesOfPieces 0x0D (cutAt 0x0A bytes)

end DeadExports
