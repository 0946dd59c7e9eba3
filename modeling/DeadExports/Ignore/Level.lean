import DeadExports.Ignore.Rule

/-!
# Levels of ignore rules

Every directory from the top of the file tree down to the entry in question may
hold rules of three kinds. For each kind the directories are asked from the
nearest to the farthest, and the first with a matching rule decides. Then the
kinds are asked in order. An entry that no rule decides on is ignored exactly
when it is hidden.

Rules are matched against the path of an entry below the directory that holds
them. That path is found by removing the directory's spelling from the entry's;
for directories above the scanned root, both are spelled from the top of the
tree.
-/

namespace DeadExports.Ignore

structure Level where
  /-- The directory, without a leading `./`. -/
  directory : Path
  ignore : List Rule
  gitignore : List Rule
  exclude : List Rule
  deriving DecidableEq, Repr

def dotSlash : Path := [0x2E, 0x2F]

/-! ## Loading a level -/

inductive ExcludeFile where
  | at (path : Path)
  | missing
  | unreadable (problem : Problem)
  deriving DecidableEq, Repr

def firstLine (content : Bytes) : Option Bytes :=
  content.lines.head?

def gitdirMark : Bytes := Bytes.ofString "gitdir: "

/-- The exclude file of a repository that lies elsewhere. The first line of its
`commondir` file names the directory that holds it, below the repository when it
starts with a dot. That the file cannot be opened counts as its absence, that it
cannot be read does not. -/
def excludeThrough (fs : FileSystem) (repository : Path) : ExcludeFile :=
  let pointer := Path.join repository (Bytes.ofString "commondir")
  match fs.lookup pointer with
  | .error _ => .missing
  | .ok (.file (.error .permissionDenied)) => .missing
  | .ok (.file (.error fault)) => .unreadable (.unreadable pointer none (.unreadable fault))
  | .ok (.file (.ok content)) =>
      match firstLine content with
      | none => .missing
      | some line =>
          if !Utf8.isValid line then .unreadable (.unreadable pointer none .notUtf8)
          else
            let common := if line.head? = some 0x2E then Path.join repository line else line
            .at (Path.join common (Bytes.ofString "info/exclude"))
  | .ok _ => .unreadable (.unreadable pointer none .isDirectory)

/-- The exclude file of a directory. Where `.git` is a file, its first line names
the repository. -/
def excludeFile (fs : FileSystem) (directory : Path) : ExcludeFile :=
  let marker := Path.join directory (Bytes.ofString ".git")
  match fs.lookup marker with
  | .ok (.file (.error fault)) => .unreadable (.unreadable marker none (.unreadable fault))
  | .ok (.file (.ok content)) =>
      match firstLine content with
      | none => .missing
      | some line =>
          if !Utf8.isValid line then .unreadable (.unreadable marker none .notUtf8)
          else
            match after? gitdirMark line with
            | none => .missing
            | some repository => excludeThrough fs repository
  | _ => .at (Path.join marker (Bytes.ofString "info/exclude"))

def excludeRules (fs : FileSystem) (directory : Path) : Rules :=
  match excludeFile fs directory with
  | .at path => rulesAt fs path
  | .missing => .none
  | .unreadable problem => ⟨[], [problem]⟩

def loadLevel (fs : FileSystem) (directory : Path) : Level × List Problem :=
  let ignore := rulesAt fs (Path.join directory (Bytes.ofString ".ignore"))
  let gitignore := rulesAt fs (Path.join directory (Bytes.ofString ".gitignore"))
  let exclude := excludeRules fs directory
  (⟨dropFront dotSlash directory, ignore.rules, gitignore.rules, exclude.rules⟩,
    ignore.problems ++ gitignore.problems ++ exclude.problems)

/-! ## Matching -/

inductive Verdict where
  | ignored
  | kept
  deriving DecidableEq, Repr

def verdict? (rules : List Rule) (path : Path) (isDirectory : Bool) : Option Verdict :=
  match rules.reverse.find? (·.applies path isDirectory) with
  | none => none
  | some rule => some (if rule.keeps then .kept else .ignored)

def Level.relative (level : Level) (path : Path) : Path :=
  let path := dropFront dotSlash path
  if level.directory.same Path.here || !path.contains Path.slash then path
  else
    match after? level.directory path with
    | none => path
    | some rest => dropFront [Path.slash] rest

/-- What the nearest level with a matching rule of one kind says. -/
def nearestVerdict?
    (kind : Level → List Rule) (path : Path) (isDirectory : Bool) (levels : List Level) :
    Option Verdict :=
  levels.findSome? fun level => verdict? (kind level) (level.relative path) isDirectory

structure Surroundings where
  root : Path
  canonicalRoot : Path
  /-- The levels of the directories above it, the nearest first. -/
  levels : List Level
  deriving DecidableEq, Repr

def Surroundings.absolute (surroundings : Surroundings) (path : Path) : Path :=
  let relative :=
    if surroundings.root.same Path.here then path
    else dropFront [Path.slash] (dropFront (dropFront dotSlash surroundings.root) path)
  Path.join surroundings.canonicalRoot relative

/-- What the rules of one kind say about an entry: those of the levels from the
root down first, then those above the root. -/
def kindVerdict?
    (surroundings : Surroundings) (levels : List Level)
    (kind : Level → List Rule) (path : Path) (isDirectory : Bool) : Option Verdict :=
  (nearestVerdict? kind path isDirectory levels).or
    (nearestVerdict? kind (surroundings.absolute path) isDirectory surroundings.levels)

/-- Hidden entries are those whose names start with a dot. -/
def isHidden (name : Bytes) : Bool :=
  name.head? = some 0x2E

/-- Whether an entry is ignored. `levels` are those from its own directory up to
the root, the nearest first. -/
def ignores
    (surroundings : Surroundings) (levels : List Level)
    (path : Path) (name : Bytes) (isDirectory : Bool) : Bool :=
  let path := dropFront dotSlash path
  let kind (select : Level → List Rule) : Option Verdict :=
    kindVerdict? surroundings levels select path isDirectory
  match (kind Level.ignore).or ((kind Level.gitignore).or (kind Level.exclude)) with
  | some verdict => verdict = .ignored
  | none => isHidden name

/-- The locations above a location, the nearest first. -/
def above (place : Location) : List Location :=
  match place with
  | [] => []
  | name :: rest => (above rest).map (name :: ·) ++ [[]]

/-- The levels above the root of a scan and their problems, those of the farthest
directory first. -/
def surroundingsOf (fs : FileSystem) (root : Path) : Surroundings × List Problem :=
  match fs.canonical root with
  | .error _ => (⟨root, [], []⟩, [])
  | .ok place =>
      let loaded := (above place).map fun ancestor => loadLevel fs ancestor.path
      (⟨root, place.path, loaded.map Prod.fst⟩, loaded.reverse.flatMap Prod.snd)

end DeadExports.Ignore
