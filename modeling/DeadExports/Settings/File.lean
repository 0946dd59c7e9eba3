import DeadExports.FileTree.Lookup
import DeadExports.Settings.Reader

/-!
# The settings file

A settings file must be UTF-8. Its comments are removed and the rest is read as
a settings document; the position of a fault is that in the text without
comments.

A comment runs from the first `//` of a line to the line's end. The search for
it knows nothing of string literals. Removing comments keeps the number of lines
and, on each line, a beginning of what was written, so that a position in the
stripped text is also a position in the file.
-/

namespace DeadExports.Settings

/-- A line up to its first `//`. -/
def cutComment : Bytes → Bytes
  | [] => []
  | byte :: rest =>
      if byte = 0x2F ∧ rest.head? = some 0x2F then [] else byte :: cutComment rest

def joinLines : List Bytes → Bytes
  | [] => []
  | [line] => line
  | line :: lines => line ++ 0x0A :: joinLines lines

def stripComments (content : Bytes) : Bytes :=
  joinLines (content.lines.map cutComment)

inductive Failure where
  | unreadable (path : Path) (cause : FileError)
  | invalid (path : Path) (problem : Problem) (position : Position)

/-- What was being done when the failure came up. -/
def Failure.context : Failure → String
  | .unreadable path _ =>
      let path := path.shown
      s!"Failed to read settings file {path}"
  | .invalid path _ _ =>
      let path := path.shown
      s!"Invalid settings file {path}"

def Failure.cause : Failure → String
  | .unreadable _ cause => cause.message
  | .invalid _ problem position =>
      let problem := problem.message
      let line := toString position.line
      let column := toString position.column
      s!"{problem} at line {line} column {column}"

def Failure.message (failure : Failure) : String :=
  let context := failure.context
  let cause := failure.cause
  s!"{context}: {cause}"

def ofContent (content : Bytes) : Except (Problem × Position) Settings :=
  let text := stripComments content
  match readDocument text with
  | .ok settings => .ok settings
  | .error fault => .error (fault.problem, fault.position text)

def ofFile (fs : FileSystem) (path : Path) : Except Failure Settings :=
  match fs.read path with
  | .error cause => .error (.unreadable path cause)
  | .ok content =>
      if Utf8.isValid content then
        match ofContent content with
        | .ok settings => .ok settings
        | .error (problem, position) => .error (.invalid path problem position)
      else .error (.unreadable path .notUtf8)

end DeadExports.Settings
