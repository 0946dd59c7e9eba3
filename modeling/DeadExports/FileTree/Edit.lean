import DeadExports.FileTree.Lookup

/-!
# Changing a file tree

Files are written through links, links are created and files are removed at the
path itself. Each operation either fails and leaves the tree alone or changes
the entries of one directory. A name that no directory can hold is never put into
a tree.
-/

namespace DeadExports.FileSystem

variable (fs : FileSystem)

def put (place : Location) (node : Node) (hnode : node.WellFormed := by trivial) : FileSystem :=
  match place.getLast? with
  | none => fs
  | some name =>
      if hname : IsEntryName name then
        fs.updateAt place.dropLast (Listing.insert name node) fun _ h => h.insert hname hnode
      else fs

/-- Writes a file, replacing an existing one. Reading it comes to `contents` from
then on, so a file that is taken away from its readers is one that is written. -/
def write (path : Path) (contents : Contents) : Except FileError FileSystem := do
  let place ← fs.locate true path
  match fs.node? place with
  | some (.directory _) => .error .isDirectory
  | _ => .ok (fs.put place (.file contents))

def link (path target : Path) : Except FileError FileSystem := do
  let place ← fs.locate false path
  match fs.node? place with
  | some (.directory _) => .error .isDirectory
  | _ => .ok (fs.put place (.link target))

def remove (path : Path) : Except FileError FileSystem := do
  let place ← fs.locate false path
  match fs.node? place with
  | none => .error .notFound
  | some (.directory _) => .error .isDirectory
  | some _ =>
      match place.getLast? with
      | none => .error .isDirectory
      | some name =>
          .ok (fs.updateAt place.dropLast (Listing.erase name) fun _ h => h.erase)

inductive Change where
  | write (path : Path) (contents : Contents)
  | remove (path : Path)

/-- The tree after a change. A change that fails leaves it as it was. -/
def apply : Change → FileSystem
  | .write path contents => (fs.write path contents).toOption.getD fs
  | .remove path => (fs.remove path).toOption.getD fs

/-- Creates the directory that a component leads to, unless it exists. -/
def createDirectory (start : Location) (steps : List Bytes) : Except FileError FileSystem := do
  let place ← fs.follow true linkLimit start steps
  match fs.node? place with
  | none => .ok (fs.put place (.directory .nil))
  | some (.directory _) => .ok fs
  | some _ => .error .notDirectory

/-- Creates directories along components, the outermost first. -/
def createAlong (start : Location) :
    FileSystem → (done todo : List Bytes) → Except FileError FileSystem
  | fs, _, [] => .ok fs
  | fs, done, name :: todo => do
      let fs ← fs.createDirectory start (done ++ [name])
      createAlong start fs (done ++ [name]) todo

def createDirectories (path : Path) : Except FileError FileSystem :=
  createAlong (if Path.isAbsolute path then [] else fs.current) fs [] (Path.pieces path)

end DeadExports.FileSystem
