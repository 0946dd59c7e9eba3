import DeadExports.Proofs.Findings
import DeadExports.Proofs.ScanInputs

/-!
# Hidden entries

A scan that respects ignore files lists a part of what a plain scan lists, whatever the rules
in the tree say. This module says which part it is when there are no rules at all, neither
around the root nor below it: the rest of the tree is decided by names alone, and what is
missing are the sources with a hidden name on the way from the root.

A directory has rules through the files that `ignoreFiles` lists, or through a `.git` file that
leads to the repository of another directory. The levels of directories without rules are
blank, and a walk that only ever carries blank levels is one that goes by names.
-/

namespace DeadExports

open Discovery

/-! ## Walks that go by names -/

variable {σ : Type}

mutual

/-- The ways from a node down to the directories at and below it. -/
def Node.directories : Node → List (List Bytes)
  | .file _ => []
  | .link _ => []
  | .directory entries => [] :: entries.directories

/-- The ways from a directory down to the directories below it. -/
def Listing.directories : Listing → List (List Bytes)
  | .nil => []
  | .cons name node rest => node.directories.map (name :: ·) ++ rest.directories

end

/-- In settled states a policy only looks at names. -/
def WalkPolicy.GoesByName
    (policy : WalkPolicy σ) (hidden : Bytes → Bool) (Settled : σ → Prop) : Prop :=
  ∀ state, Settled state → ∀ path name isDirectory,
    policy.skips state path name isDirectory = hidden name

mutual

theorem Node.walk_eq_byName
    {policy : WalkPolicy σ} {hidden : Bytes → Bool} {Settled : σ → Prop}
    (hskips : policy.GoesByName hidden Settled) {state : σ} (hstate : Settled state)
    (path : Path) (name : Bytes) :
    ∀ node : Node,
      (∀ names ∈ node.directories, ∀ above, Settled above →
        Settled (policy.enter above (path.below names))) →
      node.walk policy state path name = node.walk (.byName hidden) () path name
  | .file _, _ => by
      rw [Node.walk, Node.walk, hskips state hstate]
      rfl
  | .link _, _ => by
      rw [Node.walk, Node.walk, hskips state hstate]
      rfl
  | .directory entries, h => by
      -- The empty way is this directory itself, the others go on below it.
      rw [Node.directories, List.forall_mem_cons] at h
      obtain ⟨hhere, hbelow⟩ := h
      have hentered : Settled (policy.enter state path) := hhere state hstate
      rw [Node.walk, Node.walk, hskips state hstate,
        Listing.walk_eq_byName hskips hentered path entries hbelow]
      rfl

/-- If every directory leaves the state settled, a walk goes by names throughout. -/
theorem Listing.walk_eq_byName
    {policy : WalkPolicy σ} {hidden : Bytes → Bool} {Settled : σ → Prop}
    (hskips : policy.GoesByName hidden Settled) {state : σ} (hstate : Settled state)
    (directory : Path) :
    ∀ entries : Listing,
      (∀ names ∈ entries.directories, ∀ above, Settled above →
        Settled (policy.enter above (directory.below names))) →
      entries.walk policy state directory = entries.walk (.byName hidden) () directory
  | .nil, _ => rfl
  | .cons name node rest, h => by
      rw [Listing.directories, List.forall_mem_append, List.forall_mem_map] at h
      obtain ⟨hnode, hrest⟩ := h
      rw [Listing.walk, Listing.walk, Node.walk_eq_byName hskips hstate _ name node hnode,
        Listing.walk_eq_byName hskips hstate directory rest hrest]

end

/-! ## Directories without rules -/

namespace Ignore

/-- The files in which a directory keeps rules of its own. -/
def ignoreFiles (directory : Path) : List Path :=
  [Path.join directory (Bytes.ofString ".ignore"),
    Path.join directory (Bytes.ofString ".gitignore"),
    Path.join (Path.join directory (Bytes.ofString ".git")) (Bytes.ofString "info/exclude")]

/-- Whether a directory keeps rules of its own. -/
def holdsIgnoreFile (fs : FileSystem) (directory : Path) : Bool :=
  (ignoreFiles directory).any fs.isFile

/-- Whether the `.git` file of a directory leads to an exclude file elsewhere. -/
def borrowsExcludeFile (fs : FileSystem) (directory : Path) : Bool :=
  match repository? fs directory with
  | none => false
  | some repository =>
      match excludeThrough fs repository with
      | .at path => fs.isFile path
      | _ => false

/-- The directories above the root of a scan, the root, and those below it. -/
def scanDirectories (fs : FileSystem) (root : Path) : List Path :=
  outerDirectories fs root ++
    match fs.lookup root with
    | .error _ => []
    | .ok node => node.directories.map root.below

/-- No rules of any kind. -/
structure Level.IsBlank (level : Level) : Prop where
  ignore : level.ignore = []
  gitignore : level.gitignore = []
  exclude : level.exclude = []

theorem rulesAt_of_not_isFile {fs : FileSystem} {path : Path} (h : fs.isFile path = false) :
    rulesAt fs path = .none := by
  rw [rulesAt, FileSystem.read]
  rw [FileSystem.isFile] at h
  cases hlookup : fs.lookup path with
  | error cause => rfl
  | ok node =>
      cases node with
      | file contents => simp [hlookup] at h
      | link target => rfl
      | directory entries => rfl

theorem excludeFile_cases
    {fs : FileSystem} {directory path : Path} (h : excludeFile fs directory = .at path) :
    path = Path.join (Path.join directory (Bytes.ofString ".git")) (Bytes.ofString "info/exclude") ∨
      ∃ repository, repository? fs directory = some repository ∧
        excludeThrough fs repository = .at path := by
  rw [excludeFile] at h
  rw [repository?]
  cases hmarker : fs.lookup (Path.join directory (Bytes.ofString ".git")) with
  | error cause =>
      simp only [hmarker, ExcludeFile.at.injEq] at h
      exact .inl h.symm
  | ok node =>
      cases node with
      | link target => exact absurd hmarker (FileSystem.lookup_ne_link _ target)
      | directory entries =>
          simp only [hmarker, ExcludeFile.at.injEq] at h
          exact .inl h.symm
      | file contents =>
          right
          cases contents with
          | error fault => simp [hmarker] at h
          | ok content =>
              cases hline : firstLine content with
              | none => simp [hmarker, hline] at h
              | some line =>
                  by_cases hvalid : Utf8.isValid line = true
                  · cases hnamed : after? gitdirMark line with
                    | none => simp [hmarker, hline, hvalid, hnamed] at h
                    | some repository =>
                        simp only [hmarker, hline, hvalid, hnamed, Bool.not_true,
                          Bool.false_eq_true, if_false] at h
                        exact ⟨repository, by simp [hline, hvalid, hnamed], h⟩
                  · simp [hmarker, hline, hvalid] at h

section Blank

variable
  {fs : FileSystem} {directory : Path}
  (hheld : holdsIgnoreFile fs directory = false)
  (hborrowed : borrowsExcludeFile fs directory = false)

include hheld hborrowed

theorem excludeRules_rules_eq_nil : (excludeRules fs directory).rules = [] := by
  rw [holdsIgnoreFile, List.any_eq_false] at hheld
  rw [excludeRules]
  cases hexclude : excludeFile fs directory with
  | missing => rfl
  | unreadable problem => rfl
  | «at» path =>
      have hnone : fs.isFile path = false := by
        rcases excludeFile_cases hexclude with rfl | ⟨repository, hrepository, hthrough⟩
        · simpa using hheld _ (by simp [ignoreFiles])
        · simpa [borrowsExcludeFile, hrepository, hthrough] using hborrowed
      simp only [rulesAt_of_not_isFile hnone]
      rfl

theorem loadLevel_isBlank : (loadLevel fs directory).1.IsBlank := by
  have hown : ∀ path ∈ ignoreFiles directory, (rulesAt fs path).rules = [] := by
    intro path hpath
    rw [holdsIgnoreFile, List.any_eq_false] at hheld
    rw [rulesAt_of_not_isFile (by simpa using hheld path hpath)]
    rfl
  exact ⟨hown _ (by simp [ignoreFiles]), hown _ (by simp [ignoreFiles]),
    excludeRules_rules_eq_nil hheld hborrowed⟩

end Blank

theorem nearestVerdict?_eq_none
    {kind : Level → List Rule} {levels : List Level} (h : ∀ level ∈ levels, kind level = [])
    (path : Path) (isDirectory : Bool) :
    nearestVerdict? kind path isDirectory levels = none := by
  rw [nearestVerdict?, List.findSome?_eq_none_iff]
  intro level hlevel
  rw [h level hlevel]
  rfl

theorem ignores_eq_isHidden
    {surroundings : Surroundings} {levels : List Level}
    (houter : ∀ level ∈ surroundings.levels, level.IsBlank)
    (hinner : ∀ level ∈ levels, level.IsBlank) (path : Path) (name : Bytes) (isDirectory : Bool) :
    ignores surroundings levels path name isDirectory = isHidden name := by
  have hkind : ∀ kind : Level → List Rule, (∀ level : Level, level.IsBlank → kind level = []) →
      ∀ path, kindVerdict? surroundings levels kind path isDirectory = none := by
    intro kind hblank path
    rw [kindVerdict?, nearestVerdict?_eq_none fun level h => hblank level (hinner level h),
      nearestVerdict?_eq_none fun level h => hblank level (houter level h)]
    rfl
  simp only [ignores, hkind _ (fun _ h => h.ignore), hkind _ (fun _ h => h.gitignore),
    hkind _ (fun _ h => h.exclude), Option.or_none]

end Ignore

/-! ## Scans -/

open Ignore

/-- The source files of a scan that respects ignore files. -/
def ruledSources (fs : FileSystem) (root : Path) (suffixes : List Text) : List Path :=
  (findSources fs ⟨root, suffixes, true⟩).paths

/-- Whether no name on the way from a root starts with a dot. -/
def isUndottedBelow (root path : Path) : Bool :=
  (root.namesBelow path).all (·.head? ≠ some 0x2E)

section Unruled

variable
  {fs : FileSystem} {root : Path}
  (hheld : ∀ directory ∈ scanDirectories fs root, holdsIgnoreFile fs directory = false)
  (hborrowed : ∀ directory ∈ scanDirectories fs root, borrowsExcludeFile fs directory = false)

include hheld hborrowed

theorem surroundingsOf_isBlank :
    ∀ level ∈ (surroundingsOf fs root).1.levels, level.IsBlank := by
  have hloaded : ∀ directory ∈ outerDirectories fs root, (loadLevel fs directory).1.IsBlank := by
    intro directory hdirectory
    have hmem : directory ∈ scanDirectories fs root := List.mem_append_left _ hdirectory
    exact loadLevel_isBlank (hheld _ hmem) (hborrowed _ hmem)
  intro level hlevel
  rw [surroundingsOf] at hlevel
  rw [outerDirectories] at hloaded
  cases hcanonical : fs.canonical root with
  | error cause => simp [hcanonical] at hlevel
  | ok place =>
      simp only [hcanonical, List.map_map, List.mem_map] at hlevel
      obtain ⟨ancestor, hancestor, rfl⟩ := hlevel
      exact hloaded _ (by simpa [hcanonical] using List.mem_map_of_mem hancestor)

theorem walk_ignorePolicy_eq
    {entries : Listing} (hroot : fs.lookup root = .ok (.directory entries)) :
    entries.walk (ignorePolicy fs (surroundingsOf fs root).1)
        ((ignorePolicy fs (surroundingsOf fs root).1).enter [] root) root =
      entries.walk (.byName isHidden) () root := by
  -- The walk only enters directories below the root, so all levels that it carries are blank.
  have henter : ∀ names ∈ (Node.directory entries).directories, ∀ above : List Level,
      (∀ level ∈ above, level.IsBlank) →
        ∀ level ∈ (loadLevel fs (root.below names)).1 :: above, level.IsBlank := by
    intro names hnames above habove
    have hmem : root.below names ∈ scanDirectories fs root := by
      rw [scanDirectories, hroot]
      exact List.mem_append_right _ (List.mem_map_of_mem hnames)
    rw [List.forall_mem_cons]
    exact ⟨loadLevel_isBlank (hheld _ hmem) (hborrowed _ hmem), habove⟩
  have hgoes : (ignorePolicy fs (surroundingsOf fs root).1).GoesByName isHidden
      fun levels => ∀ level ∈ levels, level.IsBlank := by
    intro levels hlevels path name isDirectory
    exact ignores_eq_isHidden (surroundingsOf_isBlank hheld hborrowed) hlevels path name isDirectory
  rw [Node.directories, List.forall_mem_cons] at henter
  obtain ⟨hstart, hbelow⟩ := henter
  exact Listing.walk_eq_byName hgoes (hstart [] (by simp)) root entries hbelow

theorem filter_discoverBelow_ruled
    {entries : Listing} (hroot : fs.lookup root = .ok (.directory entries))
    (keep : Path → Bool) :
    (discoverBelow fs root true entries).paths.filter (fun path => fs.isFile path && keep path) =
      ((visibleWays isHidden entries.leaves).map root.below).filter
        fun path => fs.isFile path && keep path := by
  have hpaths : (discoverBelow fs root true entries).paths =
      (ofVisits (entries.walk (.byName isHidden) () root)).paths := by
    rw [← walk_ignorePolicy_eq hheld hborrowed hroot]
    simp only [discoverBelow, if_true]
    split <;> rfl
  rw [hpaths]
  apply Listing.filter_walk_byName _ isHidden (FileSystem.wellFormed_of_lookup hroot)
  intro path hlong
  rw [FileSystem.isFile_eq_false_of_length hlong, Bool.false_and]

/-- Without rules, the sources of a scan are those of a plain scan that have no hidden name on
the way from the root. -/
theorem ruledSources_eq_filter (hkey : root.key ≠ Path.key [0x2D]) (suffixes : List Text) :
    ruledSources fs root suffixes =
      (plainSources fs root suffixes).filter fun path =>
        (root.namesBelow path).all (!isHidden ·) := by
  rw [ruledSources, plainSources, findSources_paths, findSources_paths]
  rcases discover_cases fs hkey with
    ⟨entries, hlookup, hdiscover⟩ | ⟨content, -, hpaths⟩ | ⟨cause, -, hpaths⟩
  · have hwell : entries.WellFormed := FileSystem.wellFormed_of_lookup hlookup
    -- The names below the root are the way itself, whatever the root's own spelling.
    have hways : (entries.leaves.map root.below).filter
        (fun path => (root.namesBelow path).all (!isHidden ·)) =
          (visibleWays isHidden entries.leaves).map root.below := by
      rw [List.filter_map, visibleWays]
      congr 1
      apply List.filter_congr
      intro names hnames
      rw [Function.comp_apply,
        Path.namesBelow_below root (Listing.isEntryName_of_mem_leaves hwell hnames)]
    rw [hdiscover, hdiscover, filter_discoverBelow_ruled hheld hborrowed hlookup,
      filter_discoverBelow fs root hwell, List.filter_comm, hways]
  · have hvisible : [root].filter (fun path => (root.namesBelow path).all (!isHidden ·)) =
        [root] := by
      simp [Path.namesBelow_self]
    rw [hpaths, hpaths, List.filter_comm, hvisible]
  · rw [hpaths, hpaths]
    rfl

end Unruled

/-- A scan that respects ignore files lists a part of what a plain scan lists, in the same
order. If no directory above the root, at it or below it holds an ignore file or borrows one,
it lists exactly the paths without a dotted name below the root. -/
theorem ruledSources_characterization
    (fs : FileSystem) (root : Path) (hkey : root.key ≠ Path.key [0x2D]) (suffixes : List Text) :
    (ruledSources fs root suffixes).Sublist (plainSources fs root suffixes) ∧
      ((∀ directory ∈ scanDirectories fs root, holdsIgnoreFile fs directory = false) →
        (∀ directory ∈ scanDirectories fs root, borrowsExcludeFile fs directory = false) →
          ruledSources fs root suffixes =
            (plainSources fs root suffixes).filter (isUndottedBelow root)) := by
  refine ⟨?_, fun hheld hborrowed => ?_⟩
  · exact findSources_paths_sublist fs rfl (List.Subset.refl suffixes) nofun
  · rw [ruledSources_eq_filter hheld hborrowed hkey suffixes]
    apply List.filter_congr
    intro path _
    rw [isUndottedBelow]
    congr 1
    funext name
    simp [isHidden]

/-- A tree whose directory `src` holds dotted files and a dotted directory. -/
def veiledTree : FileSystem where
  top :=
    .cons (Bytes.ofString "src")
      (.directory
        (.cons (Bytes.ofString ".cache")
            (.directory (.cons (Bytes.ofString "a.ts") (.file (.ok [])) .nil))
          (.cons (Bytes.ofString ".d.ts") (.file (.ok []))
            (.cons (Bytes.ofString "b.ts") (.file (.ok []))
              (.cons (Bytes.ofString "lib")
                (.directory
                  (.cons (Bytes.ofString ".e.ts") (.file (.ok []))
                    (.cons (Bytes.ofString "f.ts") (.file (.ok [])) .nil)))
                .nil)))))
      .nil
  current := []
  wellFormed := by decide

/-- The dotted files of the tree, and the one below its dotted directory, are not listed. -/
theorem ruledSources_characterization_veiledTree :
    let root := Bytes.ofString "src"
    Path.key root ≠ Path.key [0x2D] ∧
      (∀ directory ∈ scanDirectories veiledTree root,
        holdsIgnoreFile veiledTree directory = false) ∧
      (∀ directory ∈ scanDirectories veiledTree root,
        borrowsExcludeFile veiledTree directory = false) ∧
      ruledSources veiledTree root [".ts".toList] =
        [Bytes.ofString "src/b.ts", Bytes.ofString "src/lib/f.ts"] := by
  intro root
  have hkey : Path.key root ≠ Path.key [0x2D] := by decide
  have hheld : ∀ directory ∈ scanDirectories veiledTree root,
      holdsIgnoreFile veiledTree directory = false := by decide +kernel
  have hborrowed : ∀ directory ∈ scanDirectories veiledTree root,
      borrowsExcludeFile veiledTree directory = false := by decide +kernel
  obtain ⟨-, hunruled⟩ :=
    ruledSources_characterization veiledTree root hkey [".ts".toList]
  exact ⟨hkey, hheld, hborrowed, (hunruled hheld hborrowed).trans (by decide +kernel)⟩

/-- The directory `src` is a worktree of the repository `repo`, whose exclude file lies in the
directory `shared`. -/
def worktree : FileSystem where
  top :=
    .cons (Bytes.ofString "repo")
      (.directory
        (.cons (Bytes.ofString "commondir") (.file (.ok (Bytes.ofString "shared"))) .nil))
      (.cons (Bytes.ofString "shared")
        (.directory
          (.cons (Bytes.ofString "info")
            (.directory
              (.cons (Bytes.ofString "exclude") (.file (.ok (Bytes.ofString "a.ts"))) .nil))
            .nil))
        (.cons (Bytes.ofString "src")
          (.directory
            (.cons (Bytes.ofString ".git") (.file (.ok (Bytes.ofString "gitdir: repo")))
              (.cons (Bytes.ofString "a.ts") (.file (.ok [])) .nil)))
          .nil))
  current := []
  wellFormed := by decide

/-- Directories without ignore files are not enough for the undotted sources to be the ones
that are listed: an exclude file may be borrowed. -/
theorem ruledSources_ne_undotted :
    let root := Bytes.ofString "src"
    let suffixes := [".ts".toList]
    (∀ directory ∈ scanDirectories worktree root, holdsIgnoreFile worktree directory = false) ∧
      ruledSources worktree root suffixes ≠
        (plainSources worktree root suffixes).filter (isUndottedBelow root) := by
  decide +kernel

end DeadExports
