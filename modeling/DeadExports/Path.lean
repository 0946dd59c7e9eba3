import DeadExports.Text.Utf8
import DeadExports.Text.Basic

/-!
# Paths

A path is its spelling, an arbitrary byte sequence. Two spellings name the same
path when they have the same key: repeated slashes, a trailing slash and `.`
components are insignificant, except that a leading `.` counts, and `..` is an
ordinary component. Nothing here consults a file tree.
-/

namespace DeadExports

/-- A path as it was spelled. -/
abbrev Path := Bytes

namespace Path

def slash : UInt8 := 0x2F

def here : Bytes := [0x2E]

def up : Bytes := [0x2E, 0x2E]

/-- What decides whether two spellings are the same path. -/
structure Key where
  absolute : Bool
  parts : List Bytes
  deriving DecidableEq, Repr

def isAbsolute (path : Path) : Bool :=
  path.head? = some slash

/-- The non-empty pieces between slashes, `.` and `..` included. -/
def pieces (path : Path) : List Bytes :=
  (cutAt slash path).filter (!·.isEmpty)

/-- The key of a path: a leading `.` stays when the path is relative, every
other `.` goes. -/
def key (path : Path) : Key :=
  if isAbsolute path then ⟨true, (pieces path).filter (· ≠ here)⟩
  else
    match pieces path with
    | [] => ⟨false, []⟩
    | first :: rest => ⟨false, first :: rest.filter (· ≠ here)⟩

def same (p q : Path) : Bool :=
  key p = key q

/-- The last component, unless it is `.` or `..` or there is none. -/
def fileName? (path : Path) : Option Bytes :=
  match (key path).parts.getLast? with
  | none => none
  | some name => if name = here ∨ name = up then none else some name

/-- A relative path below a directory, with one slash added where the directory
does not end in one. An absolute path stays as it is. -/
def join (directory relative : Path) : Path :=
  if isAbsolute relative then relative
  else if directory.isEmpty ∨ directory.getLast? = some slash then directory ++ relative
  else directory ++ slash :: relative

def display (path : Path) : Text :=
  Utf8.decodeReplacing path

/-- The path as it is shown in a message. -/
def shown (path : Path) : String :=
  String.ofList (display path)

end Path

end DeadExports
