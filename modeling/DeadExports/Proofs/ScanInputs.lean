import DeadExports.Proofs.Rewriting

/-!
# What a scan looks into

A scan lists paths, and which paths it lists depends on the contents of files only through
ignore rules. A walk loads the rules of a directory when it enters it, and those of the
directories above its root before it starts. The rules of one directory come from its
`.ignore` and `.gitignore` files and from the exclude file of its repository, which may have
to be found through two more files.

`Ignore.consulted` lists all these files for one root. Rewriting a file that none of them
leads to leaves every scan of the root as it was, and so does rewriting any file when ignore
files are not respected.
-/

namespace DeadExports

variable {σ : Type}

/-! ## Directories that a walk enters -/

mutual

/-- The directories at and below an entry that a walk enters. -/
def Node.entered (policy : WalkPolicy σ) (state : σ) (path : Path) (name : Bytes) :
    Node → List Path
  | .file _ => []
  | .link _ => []
  | .directory entries =>
      if policy.skips state path name true then []
      else if path.length > pathLimit then []
      else path :: Listing.entered policy (policy.enter state path) path entries

/-- The directories below a directory that a walk enters. -/
def Listing.entered (policy : WalkPolicy σ) (state : σ) (directory : Path) : Listing → List Path
  | .nil => []
  | .cons name node rest =>
      Node.entered policy state (directory.join name) name node ++
        Listing.entered policy state directory rest

end

mutual

theorem Node.walk_outline (policy : WalkPolicy σ) (state : σ) (path : Path) (name : Bytes) :
    ∀ node : Node, node.outline.walk policy state path name = node.walk policy state path name
  | .file _ => rfl
  | .link _ => rfl
  | .directory entries => by
      rw [Node.outline, Node.walk, Node.walk, Listing.walk_outline policy _ path entries]

/-- A walk does not look into files. -/
theorem Listing.walk_outline (policy : WalkPolicy σ) (state : σ) (directory : Path) :
    ∀ entries : Listing,
      entries.outline.walk policy state directory = entries.walk policy state directory
  | .nil => rfl
  | .cons name node rest => by
      rw [Listing.outline, Listing.walk, Listing.walk,
        Node.walk_outline policy state (directory.join name) name node,
        Listing.walk_outline policy state directory rest]

end

mutual

theorem Node.walk_congr
    {policy other : WalkPolicy σ} (hskips : other.skips = policy.skips)
    (state : σ) (path : Path) (name : Bytes) :
    ∀ node : Node,
      (∀ directory ∈ node.entered policy state path name, ∀ above,
        other.enter above directory = policy.enter above directory) →
      node.walk other state path name = node.walk policy state path name
  | .file _, _ => by rw [Node.walk, Node.walk, hskips]
  | .link _, _ => by rw [Node.walk, Node.walk, hskips]
  | .directory entries, h => by
      rw [Node.walk, Node.walk, hskips]
      rw [Node.entered] at h
      split
      next => rfl
      next hskip =>
        rw [if_neg hskip] at h
        split
        next => rfl
        next hlong =>
          rw [if_neg hlong, List.forall_mem_cons] at h
          rw [h.1 state]
          exact Listing.walk_congr hskips _ path entries h.2

/-- Policies that skip the same entries walk alike if they agree on the directories that one
of them enters. -/
theorem Listing.walk_congr
    {policy other : WalkPolicy σ} (hskips : other.skips = policy.skips)
    (state : σ) (directory : Path) :
    ∀ entries : Listing,
      (∀ entered ∈ entries.entered policy state directory, ∀ above,
        other.enter above entered = policy.enter above entered) →
      entries.walk other state directory = entries.walk policy state directory
  | .nil, _ => rfl
  | .cons name node rest, h => by
      rw [Listing.entered, List.forall_mem_append] at h
      rw [Listing.walk, Listing.walk, Node.walk_congr hskips state _ name node h.1,
        Listing.walk_congr hskips state directory rest h.2]

end

/-! ## Files with rules -/

namespace Ignore

/-- The repository that the `.git` file of a directory names. -/
def repository? (fs : FileSystem) (directory : Path) : Option Path :=
  match fs.lookup (Path.join directory (Bytes.ofString ".git")) with
  | .ok (.file (.ok content)) =>
      (firstLine content).bind fun line =>
        if Utf8.isValid line then after? gitdirMark line else none
  | _ => none

/-- The files that are looked into for the rules of a directory. -/
def ruleFiles (fs : FileSystem) (directory : Path) : List Path :=
  [Path.join directory (Bytes.ofString ".ignore"),
    Path.join directory (Bytes.ofString ".gitignore"),
    Path.join directory (Bytes.ofString ".git")] ++
  ((repository? fs directory).map fun repository =>
    Path.join repository (Bytes.ofString "commondir")).toList ++
  match excludeFile fs directory with
  | .at path => [path]
  | _ => []

/-- The directories above the root of a scan. -/
def outerDirectories (fs : FileSystem) (root : Path) : List Path :=
  match fs.canonical root with
  | .error _ => []
  | .ok place => (above place).map Location.path

/-- The directories from the root of a scan down that the walk enters. -/
def innerDirectories (fs : FileSystem) (root : Path) : List Path :=
  match fs.lookup root with
  | .ok (.directory entries) =>
      let policy := ignorePolicy fs (surroundingsOf fs root).1
      root :: entries.entered policy (policy.enter [] root) root
  | _ => []

/-- The files that a scan of a root looks into when it respects ignore files. -/
def consulted (fs : FileSystem) (root : Path) : List Path :=
  (outerDirectories fs root ++ innerDirectories fs root).flatMap (ruleFiles fs)

end Ignore

/-! ## Scans of a rewritten tree -/

namespace FileSystem.Rewrites

open Ignore

variable
  {fs changed : FileSystem} {place : Location} (h : Rewrites place fs changed)

include h

theorem rulesAt_eq {path : Path} (hpath : fs.canonical path ≠ .ok place) :
    rulesAt changed path = rulesAt fs path := by
  rw [rulesAt, rulesAt, h.read_eq hpath]

theorem excludeThrough_eq
    {repository : Path}
    (hpointer : fs.canonical (Path.join repository (Bytes.ofString "commondir")) ≠ .ok place) :
    excludeThrough changed repository = excludeThrough fs repository := by
  rw [excludeThrough, excludeThrough]
  rcases h.lookup_cases hpointer with
    ⟨cause, hbefore, hafter⟩ | ⟨contents, hbefore, hafter⟩ | ⟨entries, others, hbefore, hafter⟩
  · rw [hbefore, hafter]
  · rw [hbefore, hafter]
  · rw [hbefore, hafter]

theorem excludeFile_eq
    {directory : Path}
    (hmarker : fs.canonical (Path.join directory (Bytes.ofString ".git")) ≠ .ok place)
    (hpointer : ∀ repository, repository? fs directory = some repository →
      fs.canonical (Path.join repository (Bytes.ofString "commondir")) ≠ .ok place) :
    excludeFile changed directory = excludeFile fs directory := by
  rw [excludeFile, excludeFile]
  rcases h.lookup_cases hmarker with
    ⟨cause, hbefore, hafter⟩ | ⟨contents, hbefore, hafter⟩ | ⟨entries, others, hbefore, hafter⟩
  · rw [hbefore, hafter]
  · rw [hbefore, hafter]
    cases contents with
    | error fault => rfl
    | ok content =>
        cases hline : firstLine content with
        | none => simp only [hline]
        | some line =>
            simp only [hline]
            by_cases hvalid : Utf8.isValid line = true
            · cases hnamed : after? gitdirMark line with
              | none => rfl
              | some repository =>
                  have hrepository : repository? fs directory = some repository := by
                    simp only [repository?, hbefore, hline, Option.bind_some, if_pos hvalid, hnamed]
                  simp only [h.excludeThrough_eq (hpointer repository hrepository)]
            · simp only [hvalid, Bool.not_false, if_true]
  · rw [hbefore, hafter]

theorem loadLevel_eq
    {directory : Path} (hfiles : ∀ file ∈ ruleFiles fs directory, fs.canonical file ≠ .ok place) :
    loadLevel changed directory = loadLevel fs directory := by
  simp only [ruleFiles, List.forall_mem_append, List.forall_mem_cons] at hfiles
  obtain ⟨⟨⟨hignore, hgitignore, hmarker, -⟩, hpointer⟩, hexclude⟩ := hfiles
  have hwhere : excludeFile changed directory = excludeFile fs directory := by
    apply h.excludeFile_eq hmarker
    intro repository hrepository
    exact hpointer _ (by simp [hrepository])
  have hrules : excludeRules changed directory = excludeRules fs directory := by
    rw [excludeRules, excludeRules, hwhere]
    cases hat : excludeFile fs directory with
    | «at» path =>
        rw [hat] at hexclude
        exact h.rulesAt_eq (hexclude path (by simp))
    | missing => rfl
    | unreadable problem => rfl
  rw [loadLevel, loadLevel, h.rulesAt_eq hignore, h.rulesAt_eq hgitignore, hrules]

theorem surroundingsOf_eq
    {root : Path}
    (hfiles : ∀ directory ∈ outerDirectories fs root, ∀ file ∈ ruleFiles fs directory,
      fs.canonical file ≠ .ok place) :
    surroundingsOf changed root = surroundingsOf fs root := by
  rw [surroundingsOf, surroundingsOf, h.canonical_eq]
  cases hcanonical : fs.canonical root with
  | error cause => rfl
  | ok start =>
      have hloaded : (above start).map (fun ancestor => loadLevel changed ancestor.path) =
          (above start).map fun ancestor => loadLevel fs ancestor.path := by
        apply List.map_congr_left
        intro ancestor hancestor
        apply h.loadLevel_eq
        apply hfiles
        rw [outerDirectories, hcanonical]
        exact List.mem_map_of_mem hancestor
      dsimp only
      rw [hloaded]

/-- Listings with the same outline are walked to the same paths and problems. -/
theorem discoverBelow_eq
    {root : Path} {respectIgnoreFiles : Bool} {entries others : Listing}
    (hroot : fs.lookup root = .ok (.directory entries))
    (houtline : others.outline = entries.outline)
    (hfiles : respectIgnoreFiles = true → ∀ file ∈ consulted fs root,
      fs.canonical file ≠ .ok place) :
    discoverBelow changed root respectIgnoreFiles others =
      discoverBelow fs root respectIgnoreFiles entries := by
  have hwalk {τ : Type} (policy : WalkPolicy τ) (state : τ) :
      others.walk policy state root = entries.walk policy state root := by
    rw [← Listing.walk_outline, houtline, Listing.walk_outline]
  cases respectIgnoreFiles with
  | false => simp only [discoverBelow, Bool.false_eq_true, if_false, hwalk]
  | true =>
      have hlevel : ∀ directory ∈ outerDirectories fs root ++ innerDirectories fs root,
          ∀ file ∈ ruleFiles fs directory, fs.canonical file ≠ .ok place := by
        intro directory hdirectory file hfile
        exact hfiles rfl file (List.mem_flatMap.mpr ⟨directory, hdirectory, hfile⟩)
      rw [List.forall_mem_append] at hlevel
      obtain ⟨houter, hinner⟩ := hlevel
      simp only [innerDirectories, hroot, List.forall_mem_cons] at hinner
      have henter : (ignorePolicy changed (surroundingsOf fs root).1).enter [] root =
          (ignorePolicy fs (surroundingsOf fs root).1).enter [] root := by
        simp only [ignorePolicy, h.loadLevel_eq hinner.1]
      have hskips : (ignorePolicy changed (surroundingsOf fs root).1).skips =
          (ignorePolicy fs (surroundingsOf fs root).1).skips := rfl
      have hsame := Listing.walk_congr hskips
        ((ignorePolicy fs (surroundingsOf fs root).1).enter [] root) root entries
        (fun directory hdirectory levels => by
          simp only [ignorePolicy, h.loadLevel_eq (hinner.2 directory hdirectory)])
      simp only [discoverBelow, if_true, h.surroundingsOf_eq houter, hwalk, henter, hsame]

theorem discover_eq
    {root : Path} {respectIgnoreFiles : Bool}
    (hfiles : respectIgnoreFiles = true → ∀ file ∈ consulted fs root,
      fs.canonical file ≠ .ok place) :
    discover changed root respectIgnoreFiles = discover fs root respectIgnoreFiles := by
  rw [discover, discover]
  split
  next => rfl
  next =>
    rcases cases_of_map_eq (h.lookupEntry_outline root) with
      ⟨cause, hafter, hbefore⟩ | ⟨entry, old, hafter, hbefore, -⟩
    · rw [hafter, hbefore]
    rw [hafter, hbefore]
    rcases cases_of_map_eq (h.lookup_outline root) with
      ⟨cause, hafter, hbefore⟩ | ⟨node, old, hafter, hbefore, houtline⟩
    · rw [hafter, hbefore]
    rw [hafter, hbefore]
    cases node with
    | file contents => cases old <;> first | rfl | cases houtline
    | link target => exact absurd hafter (lookup_ne_link root target)
    | directory others =>
        obtain ⟨entries, rfl, hentries⟩ := Node.eq_directory_of_outline_eq houtline.symm
        exact h.discoverBelow_eq hbefore hentries.symm hfiles

/-- A scan of a rewritten tree lists what it listed before. -/
theorem findSources_eq
    {query : SourceQuery}
    (hfiles : query.respectIgnoreFiles = true → ∀ file ∈ consulted fs query.root,
      fs.canonical file ≠ .ok place) :
    findSources changed query = findSources fs query := by
  have hfile : changed.isFile = fs.isFile := funext h.isFile_eq
  rw [findSources, findSources, h.discover_eq hfiles, hfile]

end FileSystem.Rewrites

end DeadExports
