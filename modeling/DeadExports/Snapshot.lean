import DeadExports.CommandLine
import DeadExports.FileTree.Edit

/-!
# Snapshots of a file system

The library works on file trees in memory. A snapshot holds as much of the real
file system as a check can ask for: the settings file, everything at and below
the root, and the ignore files above it. Contents are only loaded where a check
may read them. Links are recorded with the place they lead to. A file that cannot
be read is there with the reason; a directory that cannot be listed is left out.
-/

namespace DeadExports.Snapshot

/-- A path of the real file system as an entry of the current directory. -/
def entryAt (path : String) : IO.FS.DirEntry :=
  { root := ".", fileName := path }

def orSame (fs : FileSystem) (changed : Except FileError FileSystem) : FileSystem :=
  match changed with
  | .ok fs => fs
  | .error _ => fs

def orElse {α : Type} (fallback : α) (action : IO α) : IO α :=
  try action catch _ => pure fallback

def contents (path : String) : IO Contents :=
  try return .ok (← IO.FS.readBinFile path).toList
  catch
    | .permissionDenied .. => return .error .permissionDenied
    | _ => return .error .inputOutput

def known (fs : FileSystem) (path : String) : Contents :=
  match fs.lookup (Bytes.ofString path) with
  | .ok (.file contents) => contents
  | _ => .ok []

def addFile (fs : FileSystem) (path : String) : IO FileSystem :=
  orElse fs do
    let real := (← IO.FS.realPath path).toString
    let parent := String.ofList (real.toList.reverse.dropWhile (· ≠ '/')).reverse
    let fs := orSame fs (fs.createDirectories (Bytes.ofString parent))
    return orSame fs (fs.write (Bytes.ofString real) (← contents real))

/-- Adds the exclude file of a directory whose repository lies elsewhere. -/
def addDetached (fs : FileSystem) (directory : String) : IO FileSystem := do
  let marker := directory ++ "/.git"
  let line := (Ignore.firstLine ((← contents marker).toOption.getD [])).getD []
  let repository := Path.shown (dropFront Ignore.gitdirMark line)
  let fs ← addFile (← addFile fs marker) (repository ++ "/commondir")
  match Ignore.excludeFile fs (Bytes.ofString directory) with
  | .at path => addFile fs path.shown
  | _ => return fs

/-- Adds an entry and everything below it. The contents of a file are loaded when
its name is wanted. -/
partial def add
    (wanted : Bytes → Bool) (fs : FileSystem) (entry : IO.FS.DirEntry) : IO FileSystem :=
  orElse fs do
    let path := entry.path.toString
    let name := (Path.fileName? (Bytes.ofString path)).getD []
    match (← entry.path.symlinkMetadata).type with
    | .dir =>
        let mut fs := orSame fs (fs.createDirectories (Bytes.ofString path))
        for child in ← entry.path.readDir do
          fs ← add wanted fs child
        return fs
    | .file =>
        let found ← if wanted name then contents path else pure (known fs path)
        let fs := orSame fs (fs.write (Bytes.ofString path) found)
        if name = Bytes.ofString ".git" then
          addDetached fs ((entry.path.parent.map (·.toString)).getD ".")
        else return fs
    | .symlink =>
        let target ← orElse "" do return (← IO.FS.realPath path).toString
        let fs := orSame fs (fs.link (Bytes.ofString path) (Bytes.ofString target))
        match (← entry.path.metadata).type with
        | .file => addFile fs target
        | .dir => return orSame fs (fs.createDirectories (Bytes.ofString target))
        | _ => return fs
    | .other => return fs

/-- Adds what the components of a path lead through: directories, and links with
the directories they lead to. -/
def addWay (fs : FileSystem) (path : String) : IO FileSystem := do
  let start := if path.startsWith "/" then "/" else ""
  let step (state : FileSystem × String) (piece : Bytes) : IO (FileSystem × String) := do
    let (fs, before) := state
    let here := before ++ String.ofList (Utf8.decodeDropping piece)
    let fs ← orElse fs do
      match (← (entryAt here).path.symlinkMetadata).type with
      | .symlink =>
          let target := (← IO.FS.realPath here).toString
          let fs := orSame fs (fs.createDirectories (Bytes.ofString target))
          return orSame fs (fs.link (Bytes.ofString here) (Bytes.ofString target))
      | .dir => return orSame fs (fs.createDirectories (Bytes.ofString here))
      | _ => return fs
    return (fs, here ++ "/")
  return (← (Path.pieces (Bytes.ofString path)).foldlM step (fs, start)).1

def directoriesAbove (path : String) : List String :=
  (Ignore.above (Path.pieces (Bytes.ofString path))).map fun place => (Location.path place).shown

/-- The names of the files that hold ignore rules or lead to them. -/
def ruleFileNames : List Bytes :=
  [".ignore", ".gitignore", ".git", "commondir", "exclude"].map Bytes.ofString

def initialTree : IO FileSystem := do
  let current := Bytes.ofString (← IO.currentDir).toString
  let fs : FileSystem := ⟨.nil, Path.pieces current, trivial⟩
  return orSame fs (fs.createDirectories current)

def addSettings (fs : FileSystem) (path : String) : IO FileSystem := do
  addFile (← addWay fs path) path

def addRoot (fs : FileSystem) (suffixes : List Text) (root : String) : IO FileSystem := do
  let wanted (name : Bytes) : Bool := ruleFileNames.contains name || hasSuffix suffixes name
  let fs ← addWay fs root
  orElse fs do
    let real := (← IO.FS.realPath root).toString
    let mut fs ← add wanted fs (entryAt root)
    fs ← add wanted fs (entryAt real)
    for directory in directoriesAbove real do
      fs ← addFile fs (directory ++ "/.ignore")
      fs ← addFile fs (directory ++ "/.gitignore")
      fs ← addFile fs (directory ++ "/.git/info/exclude")
      let marker := entryAt (directory ++ "/.git")
      if ← orElse false do return (← marker.path.metadata).type == .file then
        fs ← addDetached fs directory
    return fs

/-- As much of the file system as a command line asks for. -/
def take (words : List Bytes) : IO FileSystem := do
  let fs ← initialTree
  match CommandLine.readRequest words with
  | .ok (.check options) =>
      let fs ← match options.config with
        | none => pure fs
        | some path => addSettings fs path.shown
      match (Config.ofOptions options).resolve fs with
      | .error _ => return fs
      | .ok config => addRoot fs config.suffixes config.root.shown
  | _ => return fs

end DeadExports.Snapshot
