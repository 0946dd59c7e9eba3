import DeadExports.FileTree.Lookup

/-!
# The source cache

Source texts are loaded at most once per path. A file that cannot be read is
remembered as the empty text, so that it contributes neither exports nor
mentions, and the failure is reported once. Looking up, reading and inserting are
separate operations; `SourceCache.text` is their sequence.
-/

namespace DeadExports

/-- The texts loaded so far, by path key. -/
structure SourceCache where
  entries : List (Path.Key × Text)

namespace SourceCache

def empty : SourceCache := ⟨[]⟩

def find? (cache : SourceCache) (path : Path) : Option Text :=
  cache.entries.lookup path.key

def insert (cache : SourceCache) (path : Path) (text : Text) : SourceCache :=
  ⟨(path.key, text) :: cache.entries.filter (·.1 ≠ path.key)⟩

theorem find?_insert_of_key_eq
    (cache : SourceCache) {path other : Path} (text : Text)
    (h : other.key = path.key) :
    (cache.insert path text).find? other = some text := by
  simp [find?, insert, h]

theorem find?_insert_of_key_ne
    (cache : SourceCache) {path other : Path} (text : Text)
    (h : other.key ≠ path.key) :
    (cache.insert path text).find? other = cache.find? other := by
  have hfilter (entries : List (Path.Key × Text)) :
      (entries.filter (·.1 ≠ path.key)).lookup other.key = entries.lookup other.key := by
    induction entries with
    | nil => rfl
    | cons entry entries ih =>
        obtain ⟨key, value⟩ := entry
        by_cases hkey : key = path.key
        · have hother : (other.key == key) = false := by
            simpa [hkey] using h
          rw [List.filter_cons_of_neg (by simp [hkey]), List.lookup_cons, hother]
          exact ih
        · rw [List.filter_cons_of_pos (by simpa using hkey), List.lookup_cons, List.lookup_cons, ih]
  have hhead : (other.key == path.key) = false := by
    simpa using h
  simp only [find?, insert, List.lookup_cons, hhead]
  exact hfilter cache.entries

def size (cache : SourceCache) : Nat :=
  cache.entries.length

def isEmpty (cache : SourceCache) : Bool :=
  cache.entries.isEmpty

end SourceCache

structure UnreadableSource where
  path : Path
  cause : FileError
  deriving DecidableEq, Repr

def UnreadableSource.message (failure : UnreadableSource) : String :=
  let path := failure.path.shown
  let cause := failure.cause.message
  s!"Failed to read {path}: {cause}"

/-- The text that a read provides: empty when it failed. -/
def loaded (result : Except FileError Text) : Text :=
  match result with
  | .ok text => text
  | .error _ => []

def loadFailures (path : Path) (result : Except FileError Text) : List UnreadableSource :=
  match result with
  | .ok _ => []
  | .error cause => [⟨path, cause⟩]

structure SourceCache.Answer where
  text : Text
  cache : SourceCache
  failures : List UnreadableSource

/-- The text of a path: the remembered one, or else the one read now, which is
remembered from here on. -/
def SourceCache.text (cache : SourceCache) (fs : FileSystem) (path : Path) : SourceCache.Answer :=
  match cache.find? path with
  | some text => ⟨text, cache, []⟩
  | none =>
      let result := fs.readText path
      ⟨loaded result, cache.insert path (loaded result), loadFailures path result⟩

end DeadExports
