import DeadExports.FileTree.Lookup
import DeadExports.Ignore.Machine

/-!
# Ignore files

Each line of an ignore file is a comment, empty, or a rule. A rule ignores what
its glob matches, or with a leading `!` keeps it. A glob with a slash anywhere
but at its end is matched against the whole path below the directory of the
file, any other against the last component at any depth. Of the rules of a file
the last one that matches decides.

A line with an invalid glob is passed over and reported. A line that is not UTF-8
ends the reading of its file. When a machine for the globs cannot be built, no
rule of the file applies.
-/

namespace DeadExports.Ignore

structure Rule where
  keeps : Bool
  directoriesOnly : Bool
  glob : Glob
  deriving DecidableEq, Repr

def isWhite (c : Char) : Bool :=
  let n := c.toNat
  (0x09 ≤ n && n ≤ 0x0D) || n = 0x20 || n = 0x85 || n = 0xA0 || n = 0x1680 ||
    (0x2000 ≤ n && n ≤ 0x200A) || n = 0x2028 || n = 0x2029 || n = 0x202F || n = 0x205F ||
    n = 0x3000

/-- A line without white space at its end, unless that is an escaped space. -/
def trimLine (line : Text) : Text :=
  if endsWith ['\\', ' '] line then line else (line.reverse.dropWhile isWhite).reverse

/-- The glob of a line, and how it is marked. -/
structure Marked where
  keeps : Bool
  /-- Whether a slash at the start ties the glob to the directory of the file. -/
  anchored : Bool
  glob : Text
  deriving DecidableEq, Repr

def readMarks (line : Text) : Marked :=
  match line with
  | '\\' :: '!' :: rest => ⟨false, false, '!' :: rest⟩
  | '\\' :: '#' :: rest => ⟨false, false, '#' :: rest⟩
  | '!' :: '/' :: rest => ⟨true, true, rest⟩
  | '!' :: rest => ⟨true, false, rest⟩
  | '/' :: rest => ⟨false, true, rest⟩
  | _ => ⟨false, false, line⟩

/-- A glob without a slash at its end, nor a backslash before that, and whether
there was one. -/
def dropDirectoryMark (glob : Text) : Bool × Text :=
  if glob.getLast? = some '/' then (true, dropLastMark '\\' glob.dropLast) else (false, glob)

/-- The glob that is matched against a path: without a slash in it and without an
anchor it may match at any depth, and at its end `/**` does not match the
directory itself. -/
def completeGlob (anchored : Bool) (glob : Text) : Text :=
  let glob :=
    if anchored ∨ glob.contains '/' ∨ glob = ['*', '*'] then glob
    else '*' :: '*' :: '/' :: glob
  if endsWith ['/', '*', '*'] glob then glob ++ ['/', '*'] else glob

/-- The rule of a line that is neither empty nor a comment. -/
def ruleOfLine (line : Text) : Except GlobError Rule :=
  let marked := readMarks line
  let (directoriesOnly, glob) := dropDirectoryMark marked.glob
  match Glob.ofText (completeGlob marked.anchored glob) with
  | .error cause => .error cause
  | .ok glob => .ok ⟨marked.keeps, directoriesOnly, glob⟩

def Rule.applies (rule : Rule) (path : Path) (isDirectory : Bool) : Bool :=
  rule.glob.expression.pattern.accepts path && (!rule.directoriesOnly || isDirectory)

inductive Problem where
  | invalidGlob (path : Path) (line : Nat) (text : Text) (cause : GlobError)
  | unreadable (path : Path) (line : Option Nat) (cause : FileError)
  | machine (problem : MachineProblem)
  deriving DecidableEq, Repr

def Problem.message : Problem → String
  | .invalidGlob path line text cause =>
      let path := path.shown
      let line := toString line
      let text := String.ofList text
      let cause := cause.message
      s!"{path}: line {line}: error parsing glob '{text}': {cause}"
  | .unreadable path (some line) cause =>
      let path := path.shown
      let line := toString line
      let cause := cause.message
      s!"{path}: line {line}: {cause}"
  | .unreadable path none cause =>
      let path := path.shown
      let cause := cause.message
      s!"{path}: {cause}"
  | .machine problem => problem.message

def Problem.isUnreadable : Problem → Bool
  | .unreadable .. => true
  | _ => false

structure Rules where
  rules : List Rule
  problems : List Problem
  deriving DecidableEq, Repr

def Rules.none : Rules := ⟨[], []⟩

def readLine (path : Path) (number : Nat) (line : Text) (rest : Rules) : Rules :=
  if line.head? = some '#' then rest
  else
    let line := trimLine line
    if line.isEmpty then rest
    else
      match ruleOfLine line with
      | .ok rule => { rest with rules := rule :: rest.rules }
      | .error cause =>
          { rest with problems := .invalidGlob path number line cause :: rest.problems }

def dropOrderMarks (line : Text) : Text :=
  line.dropWhile (· = '\uFEFF')

def readLines (path : Path) : (number : Nat) → List Bytes → Rules
  | _, [] => .none
  | number, line :: lines =>
      match Utf8.decode? line with
      | none => ⟨[], [.unreadable path (some number) .notUtf8]⟩
      | some text =>
          let text := if number = 1 then dropOrderMarks text else text
          readLine path number text (readLines path (number + 1) lines)

/-- The problems of a file that count: a single problem of reading does not. -/
def reportable (problems : List Problem) : List Problem :=
  match problems with
  | [problem] => if problem.isUnreadable then [] else [problem]
  | _ => problems

/-- Rules as they apply: none if a machine for their globs cannot be built. -/
def Rules.build (rules : Rules) : Rules :=
  match machineProblem? (rules.rules.map Rule.glob) with
  | .none => rules
  | .some problem => ⟨[], rules.problems ++ [.machine problem]⟩

/-- The rules of the ignore file at a path; a file that is not there or cannot be
read has none. -/
def rulesAt (fs : FileSystem) (path : Path) : Rules :=
  match fs.read path with
  | .error _ => .none
  | .ok content =>
      let rules := readLines path 1 content.lines
      Rules.build { rules with problems := reportable rules.problems }

end DeadExports.Ignore
