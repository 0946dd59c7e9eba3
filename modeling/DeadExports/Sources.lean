import DeadExports.Ignore.Level

/-!
# Source files

The source files of a scan are the regular files at and below its root whose name
ends with one of the suffixes. They are found by a walk whose result does not
depend on the suffixes, and are listed in its order with the root spelled as it
was given. A link below the root counts if it leads to a regular file.

The walk goes through a directory depth first, in the order of its listings, and
visits everything below it that is not a directory. Links are visited and not
entered. A policy may skip entries, a directory together with all that it holds;
it carries a state that changes when a directory is entered. A directory whose
path is too long to be followed cannot be listed, and the walk says so.

The root itself is never filtered: it may be a link, a file, or begin with a dot.
The root `-` stands for standard input, which is taken for a file of the name
`<stdin>`.
-/

namespace DeadExports

/-! ## Walking a directory -/

/-- What a walk passes over. -/
structure WalkPolicy (σ : Type) where
  enter : σ → Path → σ
  skips : σ → Path → Bytes → (isDirectory : Bool) → Bool

def WalkPolicy.everything : WalkPolicy Unit where
  enter _ _ := ()
  skips _ _ _ _ := false

inductive Visit where
  | entry (path : Path)
  | unlisted (path : Path)
  deriving DecidableEq, Repr

variable {σ : Type}

mutual

def Listing.walk
    (policy : WalkPolicy σ) (state : σ) (directory : Path) : Listing → List Visit
  | .nil => []
  | .cons name node rest =>
      Node.walk policy state (directory.join name) name node ++
        Listing.walk policy state directory rest

def Node.walk
    (policy : WalkPolicy σ) (state : σ) (path : Path) (name : Bytes) : Node → List Visit
  | .file _ => if policy.skips state path name false then [] else [.entry path]
  | .link _ => if policy.skips state path name false then [] else [.entry path]
  | .directory entries =>
      if policy.skips state path name true then []
      else if path.length > pathLimit then [.unlisted path]
      else Listing.walk policy (policy.enter state path) path entries

end

/-! ## Scans -/

inductive WalkProblem where
  | unreachable (path : Path) (cause : FileError)
  | ignoreFiles (problems : List Ignore.Problem)
  deriving DecidableEq, Repr

def WalkProblem.message : WalkProblem → String
  | .unreachable path cause =>
      let path := path.shown
      let cause := cause.message
      s!"{path}: IO error for operation on {path}: {cause}"
  | .ignoreFiles problems =>
      String.intercalate "\n" (problems.map Ignore.Problem.message)

structure Discovery where
  paths : List Path
  problems : List WalkProblem
  deriving DecidableEq, Repr

def Discovery.ofVisits (visits : List Visit) : Discovery where
  paths := visits.filterMap fun
    | .entry path => some path
    | .unlisted _ => none
  problems := visits.filterMap fun
    | .entry _ => none
    | .unlisted path => some (.unreachable path .nameTooLong)

/-- Skips what ignore rules and leading dots exclude. The state holds the levels
from the current directory up to the root. -/
def ignorePolicy (fs : FileSystem) (surroundings : Ignore.Surroundings) :
    WalkPolicy (List Ignore.Level) where
  enter levels directory := (Ignore.loadLevel fs directory).1 :: levels
  skips levels path name isDirectory := Ignore.ignores surroundings levels path name isDirectory

def discoverBelow
    (fs : FileSystem) (root : Path) (respectIgnoreFiles : Bool) (entries : Listing) : Discovery :=
  if respectIgnoreFiles then
    let (surroundings, problems) := Ignore.surroundingsOf fs root
    let policy := ignorePolicy fs surroundings
    let discovery := Discovery.ofVisits (entries.walk policy (policy.enter [] root) root)
    if problems.isEmpty then discovery
    else { discovery with problems := .ignoreFiles problems :: discovery.problems }
  else .ofVisits (entries.walk .everything () root)

def standardInput : Path := Bytes.ofString "<stdin>"

/-- Everything at and below a root that is not a directory. -/
def discover (fs : FileSystem) (root : Path) (respectIgnoreFiles : Bool) : Discovery :=
  if root.same [0x2D] then ⟨[standardInput], []⟩
  else
    match fs.lookupEntry root, fs.lookup root with
    | .error cause, _ => ⟨[], [.unreachable root cause]⟩
    | _, .error cause => ⟨[], [.unreachable root cause]⟩
    | _, .ok (.directory entries) => discoverBelow fs root respectIgnoreFiles entries
    | _, .ok _ => ⟨[root], []⟩

/-- Whether the last component of a path ends with one of some suffixes. -/
def hasSuffix (suffixes : List Text) (path : Path) : Bool :=
  match path.fileName? with
  | none => false
  | some name => suffixes.any fun suffix => endsWith suffix (Utf8.decodeReplacing name)

structure SourceQuery where
  root : Path
  suffixes : List Text
  respectIgnoreFiles : Bool
  deriving DecidableEq, Repr

def findSources (fs : FileSystem) (query : SourceQuery) : Discovery :=
  let discovery := discover fs query.root query.respectIgnoreFiles
  { discovery with
    paths := discovery.paths.filter fun path =>
      fs.isFile path && hasSuffix query.suffixes path }

end DeadExports
