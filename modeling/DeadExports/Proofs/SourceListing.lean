import DeadExports.Proofs.Resolution
import Mathlib.Data.List.Induction
import Mathlib.Data.List.Nodup

/-!
# The sources of a scan

This module says which files a scan lists. The first part holds whether or not
ignore files are respected: no two listed paths are spellings of the same path.

The second part describes the plain listing exactly. `FileSystem.ReachesFile` says,
in terms of what paths lead to and without mention of a walk, that names lead from
a root through real directories to a regular file or to a link to one. A plain scan
of a directory lists precisely the paths of such names whose last one has a suffix,
in ascending order of the names.
-/

namespace DeadExports

open FileSystem

/-! ## Every listing -/

theorem findSources_paths (fs : FileSystem) (query : SourceQuery) :
    (findSources fs query).paths =
      (discover fs query.root query.respectIgnoreFiles).paths.filter fun path =>
        fs.isFile path && hasSuffix query.suffixes path := rfl

/-- With or without ignore files, the walk of a directory lists some of its
leaves. -/
theorem discoverBelow_paths_sublist
    (fs : FileSystem) (root : Path) (respectIgnoreFiles : Bool) (entries : Listing) :
    (discoverBelow fs root respectIgnoreFiles entries).paths.Sublist
      (discoverBelow fs root false entries).paths := by
  cases respectIgnoreFiles with
  | false => exact List.Sublist.refl _
  | true =>
      have hwalk := Listing.walk_paths_sublist
        (ignorePolicy fs (Ignore.surroundingsOf fs root).1) entries
        ((ignorePolicy fs (Ignore.surroundingsOf fs root).1).enter [] root) root
      simp only [discoverBelow, if_true, Bool.false_eq_true, if_false]
      split <;> exact hwalk

theorem filter_discoverBelow
    (fs : FileSystem) (root : Path) {entries : Listing} (h : entries.WellFormed)
    (keep : Path → Bool) :
    (discoverBelow fs root false entries).paths.filter (fun path => fs.isFile path && keep path) =
      (entries.leaves.map root.below).filter fun path => fs.isFile path && keep path := by
  apply Listing.filter_walk_everything _ h
  intro path hlong
  rw [isFile_eq_false_of_length hlong, Bool.false_and]

theorem Listing.leaves_keys_nodup
    {entries : Listing} (h : entries.WellFormed) (root : Path) :
    ((entries.leaves.map root.below).map Path.key).Nodup := by
  rw [List.map_map]
  refine List.Nodup.map_on ?_ ((Listing.leaves_pairwise_lt h).imp fun hlt heq => ?_)
  · intro names hnames others hothers hkey
    exact Path.key_below_injective root (Listing.isEntryName_of_mem_leaves h hnames)
      (Listing.isEntryName_of_mem_leaves h hothers) hkey
  · exact List.lt_irrefl _ (heq ▸ hlt)

/-- How a root is looked at: a directory is walked, a file stands for itself, and
what leads nowhere gives nothing. -/
theorem discover_cases
    (fs : FileSystem) {root : Path} (hroot : root.key ≠ Path.key [0x2D]) :
    (∃ entries, fs.lookup root = .ok (.directory entries) ∧
      ∀ respectIgnoreFiles,
        discover fs root respectIgnoreFiles = discoverBelow fs root respectIgnoreFiles entries) ∨
    (∃ content, fs.lookup root = .ok (.file content) ∧
      ∀ respectIgnoreFiles, (discover fs root respectIgnoreFiles).paths = [root]) ∨
    (∃ cause, fs.lookup root = .error cause ∧
      ∀ respectIgnoreFiles, (discover fs root respectIgnoreFiles).paths = []) := by
  have hsame : ¬root.same [0x2D] = true := by
    simpa [Path.same] using hroot
  simp only [discover, if_neg hsame]
  cases hlookup : fs.lookup root with
  | error cause =>
      refine Or.inr (Or.inr ⟨cause, rfl, fun _ => ?_⟩)
      cases fs.lookupEntry root <;> rfl
  | ok node =>
      obtain ⟨entry, hentry⟩ := exists_lookupEntry_of_lookup hlookup
      simp only [hentry]
      cases node with
      | file content => exact Or.inr (Or.inl ⟨content, rfl, fun _ => rfl⟩)
      | link target => exact absurd hlookup (lookup_ne_link root target)
      | directory entries => exact Or.inl ⟨entries, rfl, fun _ => rfl⟩

theorem findSources_keys_nodup (fs : FileSystem) (query : SourceQuery) :
    ((findSources fs query).paths.map Path.key).Nodup := by
  rw [findSources_paths]
  by_cases hroot : query.root.key = Path.key [0x2D]
  · have hsame : query.root.same [0x2D] = true := by
      simpa [Path.same] using hroot
    rw [discover, if_pos hsame]
    exact ((List.nodup_singleton _).sublist (List.filter_sublist.map _))
  rcases discover_cases fs hroot with
    ⟨entries, hlookup, hdiscover⟩ | ⟨content, -, hpaths⟩ | ⟨cause, -, hpaths⟩
  · have hwell : entries.WellFormed := wellFormed_of_lookup hlookup
    rw [hdiscover]
    refine List.Nodup.sublist ?_ (Listing.leaves_keys_nodup hwell query.root)
    apply List.Sublist.map
    refine ((discoverBelow_paths_sublist fs query.root _ entries).filter _).trans ?_
    rw [filter_discoverBelow fs query.root hwell]
    exact List.filter_sublist
  · rw [hpaths]
    exact (List.nodup_singleton _).sublist (List.filter_sublist.map _)
  · rw [hpaths]
    exact List.nodup_nil

/-! ## Names that lead to a file -/

/-- Names lead from a root through real directories to a regular file, or to a link
that leads to one. -/
structure FileSystem.ReachesFile (fs : FileSystem) (root : Path) (names : List Bytes) : Prop where
  ne_nil : names ≠ []
  entryNames : ∀ name ∈ names, IsEntryName name
  /-- Everything on the way is itself a directory and not a link to one. -/
  through : ∀ front back, names = front ++ back → front ≠ [] → back ≠ [] →
    ∃ entries, fs.lookupEntry (root.below front) = .ok (.directory entries)
  /-- The whole path is a file, or a link that leads to one. -/
  ends : (∃ content, fs.lookupEntry (root.below names) = .ok (.file content)) ∨
    (∃ target, fs.lookupEntry (root.below names) = .ok (.link target)) ∧
      ∃ content, fs.lookup (root.below names) = .ok (.file content)

theorem Node.at?_concat_eq_some_iff
    {node found : Node} {names : List Bytes} {name : Bytes} :
    node.at? (names ++ [name]) = some found ↔
      ∃ entries, node.at? names = some (.directory entries) ∧ entries.find? name = some found := by
  rw [Node.at?_append, Option.bind_eq_some_iff]
  constructor
  · rintro ⟨holder, hholder, hat⟩
    cases holder with
    | file content => simp [Node.at?] at hat
    | link target => simp [Node.at?] at hat
    | directory entries =>
        refine ⟨entries, hholder, ?_⟩
        rw [Node.at?] at hat
        cases hfind : entries.find? name with
        | none => simp [hfind] at hat
        | some next => simpa [hfind, Node.at?] using hat
  · rintro ⟨entries, hholder, hfind⟩
    exact ⟨.directory entries, hholder, by simp [Node.at?, hfind]⟩

section Directory

variable
  {fs : FileSystem} {root : Path} {entries : Listing}
  (hroot : fs.lookup root = .ok (.directory entries))

include hroot

theorem at?_concat_of_lookupEntry
    {names : List Bytes} {name : Bytes} {holder : Listing} {node : Node}
    (hat : (Node.directory entries).at? names = some (.directory holder))
    (hname : IsEntryName name)
    (hentry : fs.lookupEntry (root.below (names ++ [name])) = .ok node) :
    (Node.directory entries).at? (names ++ [name]) = some node := by
  rw [lookupEntry_below hroot hat hname (length_le_of_lookupEntry hentry)] at hentry
  rw [Node.at?_concat_eq_some_iff]
  refine ⟨holder, hat, ?_⟩
  cases hfind : holder.find? name with
  | none => simp [hfind] at hentry
  | some other => simpa [hfind] using hentry

theorem lookupEntry_of_at?_concat
    {names : List Bytes} {name : Bytes} {node : Node}
    (hname : IsEntryName name)
    (hlength : (root.below (names ++ [name])).length ≤ pathLimit)
    (hat : (Node.directory entries).at? (names ++ [name]) = some node) :
    fs.lookupEntry (root.below (names ++ [name])) = .ok node := by
  obtain ⟨holder, hholder, hfind⟩ := Node.at?_concat_eq_some_iff.mp hat
  rw [lookupEntry_below hroot hholder hname hlength, hfind]

theorem FileSystem.ReachesFile.at?_directory
    {names : List Bytes} (h : fs.ReachesFile root names) {front back : List Bytes}
    (hnames : names = front ++ back) (hback : back ≠ []) :
    ∃ holder, (Node.directory entries).at? front = some (.directory holder) := by
  induction front using List.reverseRecOn generalizing back with
  | nil => exact ⟨entries, rfl⟩
  | append_singleton front name ih =>
      rw [List.append_assoc] at hnames
      obtain ⟨holder, hholder⟩ := ih hnames (by simp)
      have hname : IsEntryName name := h.entryNames name (by simp [hnames])
      obtain ⟨below, hbelow⟩ :=
        h.through (front ++ [name]) back (by simp [hnames]) (by simp) hback
      exact ⟨below, at?_concat_of_lookupEntry hroot hholder hname hbelow⟩

/-- The names that lead to a file are the leaves whose path leads to one. -/
theorem reachesFile_iff (names : List Bytes) :
    fs.ReachesFile root names ↔
      names ∈ entries.leaves ∧ fs.isFile (root.below names) = true := by
  have hwell : (Node.directory entries).WellFormed := wellFormed_of_lookup hroot
  rw [Listing.mem_leaves_iff hwell, isFile_iff]
  rcases List.eq_nil_or_concat' names with rfl | ⟨front, name, rfl⟩
  · constructor
    · intro h
      exact absurd rfl h.ne_nil
    · rintro ⟨⟨leaf, hat, hleaf⟩, -⟩
      rw [Node.at?, Option.some.injEq] at hat
      exact (hat ▸ hleaf : (Node.directory entries).IsLeaf).elim
  constructor
  · intro h
    have hname : IsEntryName name := h.entryNames name (by simp)
    obtain ⟨holder, hholder⟩ := h.at?_directory hroot rfl (List.cons_ne_nil name [])
    rcases h.ends with ⟨content, hentry⟩ | ⟨⟨target, hentry⟩, hfile⟩
    · have hat := at?_concat_of_lookupEntry hroot hholder hname hentry
      refine ⟨⟨.file content, hat, trivial⟩, content, ?_⟩
      obtain ⟨other, hother, hfind⟩ := Node.at?_concat_eq_some_iff.mp hat
      exact lookup_below_file hroot hother hname (length_le_of_lookupEntry hentry) hfind
    · exact ⟨⟨.link target, at?_concat_of_lookupEntry hroot hholder hname hentry, trivial⟩, hfile⟩
  · rintro ⟨⟨leaf, hat, hleaf⟩, content, hlookup⟩
    have hnames := (hwell.of_at? hat).1
    have hlength := length_le_of_lookup hlookup
    refine ⟨by simp, hnames, ?_, ?_⟩
    · intro first back hsplit hfirst hback
      obtain ⟨start, last, rfl⟩ := (List.eq_nil_or_concat' first).resolve_left hfirst
      obtain ⟨next, rest, rfl⟩ := List.exists_cons_of_ne_nil hback
      have hparts := hnames
      rw [hsplit, List.forall_mem_append] at hparts
      have hshort : (root.below (start ++ [last])).length ≤ pathLimit := by
        refine Nat.le_trans (List.IsPrefix.length_le ?_) hlength
        rw [hsplit, Path.below_append root (start ++ [last])]
        exact Path.prefix_below _ hparts.2
      rw [hsplit, Node.at?_append, Option.bind_eq_some_iff] at hat
      obtain ⟨holder, hholder, hrest⟩ := hat
      cases holder with
      | file content => simp [Node.at?] at hrest
      | link target => simp [Node.at?] at hrest
      | directory below =>
          exact ⟨below, lookupEntry_of_at?_concat hroot (hparts.1 last (by simp)) hshort hholder⟩
    · have hentry := lookupEntry_of_at?_concat hroot (hnames name (by simp)) hlength hat
      cases leaf with
      | file content => exact Or.inl ⟨content, hentry⟩
      | link target => exact Or.inr ⟨⟨target, hentry⟩, content, hlookup⟩
      | directory below => exact hleaf.elim

end Directory

/-! ## Suffixes -/

/-- A name, as it is shown, ends with one of some suffixes. -/
def NameQualifies (suffixes : List Text) (name : Bytes) : Prop :=
  ∃ suffix ∈ suffixes, suffix <:+ Utf8.decodeReplacing name

theorem hasSuffix_iff {suffixes : List Text} {path : Path} :
    hasSuffix suffixes path = true ↔
      ∃ name, path.fileName? = some name ∧ NameQualifies suffixes name := by
  rw [hasSuffix]
  cases path.fileName? with
  | none => simp
  | some name => simp [NameQualifies, endsWith_iff]

theorem hasSuffix_congr
    {suffixes others : List Text} (h : ∀ suffix, suffix ∈ suffixes ↔ suffix ∈ others) :
    hasSuffix suffixes = hasSuffix others := by
  funext path
  rw [Bool.eq_iff_iff, hasSuffix_iff, hasSuffix_iff]
  simp [NameQualifies, h]

/-- Below a root it is the last name that has to end with a suffix. -/
theorem hasSuffix_below_iff
    {suffixes : List Text} {root : Path} {names : List Bytes} (hne : names ≠ [])
    (hnames : ∀ name ∈ names, IsEntryName name) :
    hasSuffix suffixes (root.below names) = true ↔
      ∃ name, names.getLast? = some name ∧ NameQualifies suffixes name := by
  obtain ⟨front, name, rfl⟩ := (List.eq_nil_or_concat' names).resolve_left hne
  rw [List.forall_mem_append] at hnames
  rw [hasSuffix_iff, Path.fileName?_below_concat root hnames.1 (hnames.2 name (by simp))]
  simp

/-! ## Plain listings -/

/-- The source files of a scan that does not look at ignore files. -/
def plainSources (fs : FileSystem) (root : Path) (suffixes : List Text) : List Path :=
  (findSources fs ⟨root, suffixes, false⟩).paths

/-- The files among which a plain scan selects by suffix. -/
def plainFiles (fs : FileSystem) (root : Path) : List Path :=
  (discover fs root false).paths.filter fs.isFile

theorem plainSources_eq_filter (fs : FileSystem) (root : Path) (suffixes : List Text) :
    plainSources fs root suffixes = (plainFiles fs root).filter (hasSuffix suffixes) := by
  rw [plainSources, findSources_paths, plainFiles, List.filter_filter]
  simp only [Bool.and_comm]

theorem plainSources_of_directory
    {fs : FileSystem} {root : Path} {entries : Listing}
    (hkey : root.key ≠ Path.key [0x2D])
    (hroot : fs.lookup root = .ok (.directory entries)) (suffixes : List Text) :
    plainSources fs root suffixes =
      (entries.leaves.filter fun names =>
        fs.isFile (root.below names) && hasSuffix suffixes (root.below names)).map root.below := by
  have hdiscover : discover fs root false = discoverBelow fs root false entries := by
    rcases discover_cases fs hkey with
      ⟨others, hlookup, hdiscover⟩ | ⟨content, hlookup, -⟩ | ⟨cause, hlookup, -⟩
    · rw [hroot] at hlookup
      cases hlookup
      exact hdiscover false
    · simp [hroot] at hlookup
    · simp [hroot] at hlookup
  rw [plainSources, findSources_paths, hdiscover,
    filter_discoverBelow fs root (wellFormed_of_lookup hroot), List.filter_map]
  rfl

/-- The qualifying ways of a plain scan, in order. -/
theorem exists_ways_plainSources
    {fs : FileSystem} {root : Path} {entries : Listing}
    (hkey : root.key ≠ Path.key [0x2D])
    (hroot : fs.lookup root = .ok (.directory entries)) (suffixes : List Text) :
    ∃ ways : List (List Bytes),
      plainSources fs root suffixes = ways.map root.below ∧
        ways.Pairwise (· < ·) ∧
        ∀ names, names ∈ ways ↔
          fs.ReachesFile root names ∧
            ∃ name, names.getLast? = some name ∧ NameQualifies suffixes name := by
  have hwell : entries.WellFormed := wellFormed_of_lookup hroot
  refine ⟨entries.leaves.filter fun names =>
    fs.isFile (root.below names) && hasSuffix suffixes (root.below names),
    plainSources_of_directory hkey hroot suffixes, ?_, ?_⟩
  · exact (Listing.leaves_pairwise_lt hwell).filter _
  · intro names
    rw [List.mem_filter, Bool.and_eq_true, reachesFile_iff hroot, ← and_assoc]
    refine and_congr_right ?_
    rintro ⟨hleaf, -⟩
    obtain ⟨_, _, hcons, -⟩ := Listing.exists_find?_of_mem_leaves hleaf
    exact hasSuffix_below_iff (by simp [hcons]) (Listing.isEntryName_of_mem_leaves hwell hleaf)

/-- A plain scan selects by suffix from a list that does not depend on the suffixes,
so that only the set of suffixes matters. It lists every path once and with the root
verbatim in front. A root that leads to a directory gives the paths of all names that
lead to a file and end in a suffix, in ascending order of the names; a root that is a
file gives at most itself; a root that leads nowhere gives nothing. -/
theorem plainSources_characterization
    (fs : FileSystem) (root : Path) (hkey : root.key ≠ Path.key [0x2D]) :
    (∃ files : List Path, ∀ suffixes,
      plainSources fs root suffixes = files.filter (hasSuffix suffixes)) ∧
    (∀ suffixes others : List Text, (∀ suffix, suffix ∈ suffixes ↔ suffix ∈ others) →
      plainSources fs root suffixes = plainSources fs root others) ∧
    ∀ suffixes : List Text,
      (plainSources fs root suffixes).Nodup ∧
      (∀ path ∈ plainSources fs root suffixes, root <+: path) ∧
      ((∃ entries, fs.lookup root = .ok (.directory entries) ∧
          ∃ ways : List (List Bytes),
            plainSources fs root suffixes = ways.map root.below ∧
              ways.Pairwise (· < ·) ∧
              ∀ names, names ∈ ways ↔
                fs.ReachesFile root names ∧
                  ∃ name, names.getLast? = some name ∧ NameQualifies suffixes name) ∨
        (∃ content, fs.lookup root = .ok (.file content) ∧
          ((∃ name, root.fileName? = some name ∧ NameQualifies suffixes name) →
            plainSources fs root suffixes = [root]) ∧
          (¬(∃ name, root.fileName? = some name ∧ NameQualifies suffixes name) →
            plainSources fs root suffixes = [])) ∨
        (∃ cause, fs.lookup root = .error cause ∧ plainSources fs root suffixes = [])) := by
  refine ⟨⟨plainFiles fs root, plainSources_eq_filter fs root⟩, ?_, ?_⟩
  · intro suffixes others hsame
    rw [plainSources_eq_filter, plainSources_eq_filter, hasSuffix_congr hsame]
  intro suffixes
  have hnodup : (plainSources fs root suffixes).Nodup :=
    (findSources_keys_nodup fs ⟨root, suffixes, false⟩).of_map
  rcases discover_cases fs hkey with
    ⟨entries, hlookup, -⟩ | ⟨content, hlookup, hpaths⟩ | ⟨cause, hlookup, hpaths⟩
  · obtain ⟨ways, hways, horder, hmem⟩ := exists_ways_plainSources hkey hlookup suffixes
    refine ⟨hnodup, ?_, Or.inl ⟨entries, hlookup, ways, hways, horder, hmem⟩⟩
    intro path hpath
    rw [hways] at hpath
    obtain ⟨names, hnames, rfl⟩ := List.mem_map.mp hpath
    exact Path.prefix_below root ((hmem names).mp hnames).1.entryNames
  · have hfiles : plainFiles fs root = [root] := by
      have hfile : fs.isFile root = true := isFile_iff.mpr ⟨content, hlookup⟩
      simp [plainFiles, hpaths, hfile]
    have hsources := plainSources_eq_filter fs root suffixes
    rw [hfiles] at hsources
    refine ⟨hnodup, ?_, Or.inr (Or.inl ⟨content, hlookup, ?_, ?_⟩)⟩
    · intro path hpath
      rw [hsources, List.mem_filter, List.mem_singleton] at hpath
      exact hpath.1 ▸ List.prefix_refl _
    · intro hqualifies
      rw [hsources, List.filter_cons_of_pos (hasSuffix_iff.mpr hqualifies), List.filter_nil]
    · intro hnot
      rw [hsources, List.filter_cons_of_neg (fun h => hnot (hasSuffix_iff.mp h)), List.filter_nil]
  · have hsources : plainSources fs root suffixes = [] := by
      rw [plainSources_eq_filter, plainFiles, hpaths]
      rfl
    exact ⟨hnodup, by simp [hsources], Or.inr (Or.inr ⟨cause, hlookup, hsources⟩)⟩

/-- A tree whose directory `src` holds a directory, a file, a broken link, a link to
`src` itself and a link to a file. -/
def mixedTree : FileSystem where
  top :=
    .cons (Bytes.ofString "src")
      (.directory
        (.cons (Bytes.ofString "a")
            (.directory (.cons (Bytes.ofString "b.ts") (.file (.ok [])) .nil))
          (.cons (Bytes.ofString "a.ts") (.file (.ok []))
            (.cons (Bytes.ofString "dead.ts") (.link (Bytes.ofString "nowhere"))
              (.cons (Bytes.ofString "loop.ts") (.link (Bytes.ofString "."))
                (.cons (Bytes.ofString "x.ts") (.link (Bytes.ofString "a/b.ts")) .nil))))))
      .nil
  current := []
  wellFormed := by decide

/-- In a tree with links of all kinds, a repeated suffix changes nothing. -/
theorem plainSources_mixedTree :
    Path.key (Bytes.ofString "src") ≠ Path.key [0x2D] ∧
      plainSources mixedTree (Bytes.ofString "src") [['.', 't', 's'], ['.', 't', 's']] =
        plainSources mixedTree (Bytes.ofString "src") [['.', 't', 's']] ∧
      (plainSources mixedTree (Bytes.ofString "src") [['.', 't', 's']]).Nodup := by
  have hkey : Path.key (Bytes.ofString "src") ≠ Path.key [0x2D] := by decide
  obtain ⟨-, hsame, hlist⟩ := plainSources_characterization mixedTree (Bytes.ofString "src") hkey
  exact ⟨hkey, hsame _ _ (by simp), (hlist _).1⟩

example :
    plainSources mixedTree (Bytes.ofString "src") [['.', 't', 's']] =
      [Bytes.ofString "src/a/b.ts", Bytes.ofString "src/a.ts", Bytes.ofString "src/x.ts"] := by
  decide +kernel

end DeadExports
