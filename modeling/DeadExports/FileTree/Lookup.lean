import DeadExports.FileTree.Basic

/-!
# Following paths

A path is followed one component at a time. Every component but the last must
lead to a directory, a link in the middle is replaced by its target, and at most
`linkLimit` links are followed. The search is a recursion on the components that
hands over to a search with a smaller link allowance whenever it meets a link,
so cyclic links end it with an error instead of a loop.

A trailing slash is read as a final `.` component: it demands a directory and
makes a link before it be followed.
-/

namespace DeadExports

inductive FileError where
  | notFound
  | isDirectory
  | notDirectory
  | tooManyLinks
  | nameTooLong
  | notUtf8
  | nulInPath
  | unreadable (fault : ReadFault)
  deriving DecidableEq, Repr

def ReadFault.message : ReadFault → String
  | .permissionDenied => "Permission denied (os error 13)"
  | .inputOutput => "Input/output error (os error 5)"

def FileError.message : FileError → String
  | .notFound => "No such file or directory (os error 2)"
  | .isDirectory => "Is a directory (os error 21)"
  | .notDirectory => "Not a directory (os error 20)"
  | .tooManyLinks => "Too many levels of symbolic links (os error 40)"
  | .nameTooLong => "File name too long (os error 36)"
  | .notUtf8 => "stream did not contain valid UTF-8"
  | .nulInPath => "file name contained an unexpected NUL byte"
  | .unreadable fault => fault.message

def Path.steps (path : Path) : List Bytes :=
  if path.getLast? = some Path.slash ∧ Path.pieces path ≠ [] then
    Path.pieces path ++ [Path.here]
  else
    Path.pieces path

def pathLimit : Nat := 4095

def linkLimit : Nat := 40

namespace FileSystem

variable (fs : FileSystem)

/-- Follows components from a place. A link that has to be followed is handed to
`onLink`, with the place of the link's directory, its target and the components
that remain. The last component need not exist. -/
def descend
    (followLast : Bool)
    (onLink : Location → Path → List Bytes → Except FileError Location) :
    Location → List Bytes → Except FileError Location
  | place, [] => .ok place
  | place, name :: rest =>
      match fs.node? place with
      | some (.directory entries) =>
          if name = Path.here then descend followLast onLink place rest
          else if name = Path.up then descend followLast onLink place.dropLast rest
          else if name.length > nameLimit then .error .nameTooLong
          else
            match entries.find? name with
            | none =>
                if rest.isEmpty then .ok (place ++ [name]) else .error .notFound
            | some (.link target) =>
                if rest.isEmpty && !followLast then .ok (place ++ [name])
                else onLink place target rest
            | some _ => descend followLast onLink (place ++ [name]) rest
      | _ => .error .notDirectory

def follow (followLast : Bool) :
    (allowance : Nat) → Location → List Bytes → Except FileError Location
  | 0 => fs.descend followLast fun _ _ _ => .error .tooManyLinks
  | allowance + 1 =>
      fs.descend followLast fun place target rest =>
        if target.isEmpty then .error .notFound
        else
          follow followLast allowance
            (if Path.isAbsolute target then [] else place) (Path.steps target ++ rest)

/-- Where a path leads. The last component may be missing; it is followed when
it is a link only if `followLast` holds. -/
def locate (followLast : Bool) (path : Path) : Except FileError Location :=
  if path.contains 0 then .error .nulInPath
  else if path.isEmpty then .error .notFound
  else if path.length > pathLimit then .error .nameTooLong
  else
    fs.follow followLast linkLimit
      (if Path.isAbsolute path then [] else fs.current) (Path.steps path)

def canonical (path : Path) : Except FileError Location := do
  let place ← fs.locate true path
  if (fs.node? place).isSome then .ok place else .error .notFound

/-- The node at a path, the last component followed when it is a link. -/
def lookup (path : Path) : Except FileError Node := do
  let place ← fs.locate true path
  match fs.node? place with
  | some node => .ok node
  | none => .error .notFound

/-- The node at a path, itself a link if the last component is one. -/
def lookupEntry (path : Path) : Except FileError Node := do
  let place ← fs.locate false path
  match fs.node? place with
  | some node => .ok node
  | none => .error .notFound

def isFile (path : Path) : Bool :=
  match fs.lookup path with
  | .ok (.file _) => true
  | _ => false

def isDirectory (path : Path) : Bool :=
  match fs.lookup path with
  | .ok (.directory _) => true
  | _ => false

def read (path : Path) : Except FileError Bytes := do
  match ← fs.lookup path with
  | .file contents => contents.mapError .unreadable
  | _ => .error .isDirectory

def readText (path : Path) : Except FileError Text := do
  let content ← fs.read path
  .ok (Utf8.decodeDropping content)

end FileSystem

end DeadExports
