import DeadExports.Path

/-!
# Exports of a text

An export is found by its spelling alone: a fixed opening, a keyword, one space
and an identifier. There is no tokeniser, so a match inside a comment or a
string literal counts like any other.

Named exports are all found, from left to right, the search resuming where the
previous match ended. Of the default exports only the leftmost counts. Both
searches go through the text one character at a time; the number of characters
still covered by the latest match is carried along, so the recursion is on the
text itself.
-/

namespace DeadExports

inductive ExportKind where
  | named
  | default
  deriving DecidableEq, Repr

structure ExportRecord where
  name : Text
  file : Path
  kind : ExportKind
  deriving DecidableEq, Repr

def isIdentChar (c : Char) : Bool :=
  ('a' ≤ c && c ≤ 'z') || ('A' ≤ c && c ≤ 'Z') || ('0' ≤ c && c ≤ '9') || c == '_'

/-- How an export declaration is spelled up to its identifier. -/
structure ExportForm where
  opening : Text
  keywords : List Text

namespace ExportForm

def named : ExportForm where
  opening := ['e', 'x', 'p', 'o', 'r', 't', ' ']
  keywords :=
    [['c', 'o', 'n', 's', 't'],
      ['f', 'u', 'n', 'c', 't', 'i', 'o', 'n'],
      ['i', 'n', 't', 'e', 'r', 'f', 'a', 'c', 'e'],
      ['t', 'y', 'p', 'e'],
      ['e', 'n', 'u', 'm'],
      ['c', 'l', 'a', 's', 's']]

def default : ExportForm where
  opening :=
    ['e', 'x', 'p', 'o', 'r', 't', ' ', 'd', 'e', 'f', 'a', 'u', 'l', 't', ' ']
  keywords :=
    [['f', 'u', 'n', 'c', 't', 'i', 'o', 'n'],
      ['c', 'l', 'a', 's', 's']]

/-- The keyword of a declaration of this form at the very beginning of a text,
and what follows the keyword and its space. -/
def afterKeyword? (form : ExportForm) (text : Text) : Option (Text × Text) :=
  match after? form.opening text with
  | none => none
  | some text =>
      form.keywords.findSome? fun keyword =>
        (after? (keyword ++ [' ']) text).map (keyword, ·)

structure Match where
  /-- The identifier: the longest run of identifier characters. -/
  name : Text
  /-- How many characters the declaration takes, identifier included. -/
  width : Nat
  deriving DecidableEq, Repr

def matchAt? (form : ExportForm) (text : Text) : Option Match :=
  match form.afterKeyword? text with
  | none => none
  | some (keyword, rest) =>
      let name := rest.takeWhile isIdentChar
      if name.isEmpty then none
      else some ⟨name, form.opening.length + (keyword.length + 1) + name.length⟩

/-- The names of all declarations of a form, from left to right and without
overlaps. `covered` counts the characters that still belong to the latest match,
and `found` holds the names so far, the latest first. -/
def scan (form : ExportForm) : (covered : Nat) → (found : List Text) → Text → List Text
  | _, found, [] => found.reverse
  | covered + 1, found, _ :: text => scan form covered found text
  | 0, found, c :: text =>
      match form.matchAt? (c :: text) with
      | none => scan form 0 found text
      | some m => scan form (m.width - 1) (m.name :: found) text

def allNames (form : ExportForm) (text : Text) : List Text :=
  form.scan 0 [] text

def firstName? (form : ExportForm) : Text → Option Text
  | [] => none
  | c :: text =>
      match form.matchAt? (c :: text) with
      | some m => some m.name
      | none => form.firstName? text

end ExportForm

/-- The exports of a file with a given text: the named ones in order of
appearance, then at most one default export. -/
def exportsOf (file : Path) (text : Text) : List ExportRecord :=
  (ExportForm.named.allNames text).map (⟨·, file, .named⟩) ++
    (ExportForm.default.firstName? text).toList.map (⟨·, file, .default⟩)

end DeadExports
