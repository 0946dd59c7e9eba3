import DeadExports.Proofs.Findings
import DeadExports.Proofs.PathRespelling

/-!
# Respelled roots

A path leads to the same place with and without its `.` components, a leading one included, as
long as something follows them. So two spellings of one root directory give the same listing,
with the one or the other spelling in front of every path, and the texts found there are the same.

What a check reports is then described without the root: every listed file is given by the names
on the way to it, and the findings are names of exports together with such a way. Each of two
runs is this description with its own spelling of the root in front.
-/

namespace DeadExports

/-! ## Components that matter -/

namespace Path

/-- The components of a path without `.` components. -/
def trail (path : Path) : List Bytes :=
  (pieces path).filter (· ≠ here)

/-- Two spellings that differ only in repeated and trailing slashes and in `.` components. -/
structure SameTrail (path other : Path) : Prop where
  isAbsolute_eq : isAbsolute path = isAbsolute other
  trail_eq : trail path = trail other

theorem SameTrail.symm {path other : Path} (h : SameTrail path other) : SameTrail other path :=
  ⟨h.isAbsolute_eq.symm, h.trail_eq.symm⟩

theorem SameTrail.trans {path other third : Path} (h : SameTrail path other)
    (h' : SameTrail other third) : SameTrail path third :=
  ⟨h.isAbsolute_eq.trans h'.isAbsolute_eq, h.trail_eq.trans h'.trail_eq⟩

theorem absolute_key (path : Path) : (key path).absolute = isAbsolute path := by
  rw [key]
  split
  next habsolute => exact habsolute.symm
  next habsolute =>
    rw [Bool.not_eq_true] at habsolute
    split <;> exact habsolute.symm

theorem filter_parts_key (path : Path) : (key path).parts.filter (· ≠ here) = trail path := by
  rw [key, trail]
  split
  next => simp only [List.filter_filter, Bool.and_self]
  next =>
    split
    next hnil => rw [hnil]
    next first rest hpieces =>
      rw [hpieces, List.filter_cons, List.filter_cons]
      simp only [List.filter_filter, Bool.and_self]

theorem SameTrail.of_key_eq {path other : Path} (h : key path = key other) :
    SameTrail path other where
  isAbsolute_eq := by rw [← absolute_key, h, absolute_key]
  trail_eq := by rw [← filter_parts_key, h, filter_parts_key]

/-- A leading `.` changes the key of a path and not its trail. -/
theorem sameTrail_here {path : Path} (h : isAbsolute path = false) :
    SameTrail (here ++ slash :: path) path where
  isAbsolute_eq := h.symm
  trail_eq := by
    rw [trail, trail, pieces_append_slash, List.filter_append]
    rfl

/-- Apart from slashes, the bytes of a path are those of its pieces. -/
theorem mem_iff_exists_piece {byte : UInt8} (hbyte : byte ≠ slash) (path : Path) :
    byte ∈ path ↔ ∃ piece ∈ pieces path, byte ∈ piece := by
  induction path using lines_induction slash with
  | last line hline =>
      by_cases hnil : line = []
      · simp [hnil, pieces, cutAt]
      · rw [pieces_of_notMem hline hnil]
        simp
  | more line rest hline ih =>
      have hfirst : byte ∈ line ↔ ∃ piece ∈ pieces line, byte ∈ piece := by
        by_cases hnil : line = []
        · simp [hnil, pieces, cutAt]
        · rw [pieces_of_notMem hline hnil]
          simp
      rw [pieces_append_slash, List.mem_append, List.mem_cons, ih, hfirst]
      simp only [hbyte, false_or, List.mem_append, or_and_right, exists_or]

theorem SameTrail.notMem {path other : Path} (h : SameTrail path other) {byte : UInt8}
    (hbyte : byte ≠ slash) (hhere : byte ∉ here) (hpath : byte ∉ path) : byte ∉ other := by
  intro hmem
  obtain ⟨piece, hpiece, hinside⟩ := (mem_iff_exists_piece hbyte other).mp hmem
  have hkept : piece ≠ here := by
    rintro rfl
    exact hhere hinside
  have htrail : piece ∈ trail path := by
    rw [h.trail_eq, trail, List.mem_filter]
    exact ⟨hpiece, by simpa using hkept⟩
  have hpiece : piece ∈ pieces path := List.mem_of_mem_filter htrail
  exact hpath ((mem_iff_exists_piece hbyte path).mpr ⟨piece, hpiece, hinside⟩)

end Path

/-! ## Following -/

namespace FileSystem

variable {fs : FileSystem}

/-- A `.` in front of another component makes no difference, not even to an error. -/
theorem follow_insert_here
    (followLast : Bool) (allowance : Nat) (place : Location) (front : List Bytes)
    {more : List Bytes} (hmore : more ≠ []) :
    fs.follow followLast allowance place (front ++ Path.here :: more) =
      fs.follow followLast allowance place (front ++ more) := by
  -- A link in front of the `.` puts its target there and leaves a smaller allowance, so the outer
  -- induction is on the allowance and holds of every front.
  induction allowance using Nat.strong_induction_on generalizing place front with
  | h allowance ihlink =>
      induction front generalizing place with
      | nil =>
          by_cases hdir : ∃ entries, fs.node? place = some (.directory entries)
          · obtain ⟨entries, hdir⟩ := hdir
            exact follow_here hdir more
          · rw [List.nil_append, List.nil_append,
              follow_of_not_directory hdir _ _ (List.cons_ne_nil _ _),
              follow_of_not_directory hdir _ _ hmore]
      | cons name front ih =>
          rw [List.cons_append, List.cons_append]
          by_cases hdir : ∃ entries, fs.node? place = some (.directory entries)
          swap
          · rw [follow_of_not_directory hdir _ _ (List.cons_ne_nil _ _),
              follow_of_not_directory hdir _ _ (List.cons_ne_nil _ _)]
          obtain ⟨entries, hdir⟩ := hdir
          by_cases hhere : name = Path.here
          · rw [hhere, follow_here hdir, follow_here hdir, ih]
          by_cases hup : name = Path.up
          · rw [hup, follow_up hdir, follow_up hdir, ih]
          by_cases hlong : nameLimit < name.length
          · rw [follow_long_name hdir hhere hup hlong, follow_long_name hdir hhere hup hlong]
          have hname : IsOrdinary name := ⟨hhere, hup, Nat.le_of_not_lt hlong⟩
          have hlonger : front ++ Path.here :: more ≠ [] := by simp
          have hshorter : front ++ more ≠ [] := List.append_ne_nil_of_right_ne_nil _ hmore
          rw [follow_name hdir hname, follow_name hdir hname]
          split
          next => simp [hmore]
          next target _ =>
            rw [if_neg ((not_stops_iff _ _).mpr (.inl hlonger)),
              if_neg ((not_stops_iff _ _).mpr (.inl hshorter))]
            cases allowance with
            | zero => rfl
            | succ fewer =>
                rw [redirect, redirect, ← List.append_assoc, ← List.append_assoc,
                  ihlink fewer (Nat.lt_succ_self fewer)]
          next => exact ih _

/-- In front of another component only those that matter are followed. -/
theorem follow_filter_here
    (followLast : Bool) (allowance : Nat) (place : Location) (front : List Bytes)
    {more : List Bytes} (hmore : more ≠ []) :
    fs.follow followLast allowance place (front ++ more) =
      fs.follow followLast allowance place (front.filter (· ≠ Path.here) ++ more) := by
  -- What has been looked at stays in front, because a `.` is left out behind any components.
  suffices h : ∀ taken : List Bytes,
      fs.follow followLast allowance place (taken ++ (front ++ more)) =
        fs.follow followLast allowance place (taken ++ (front.filter (· ≠ Path.here) ++ more)) from
    h []
  induction front with
  | nil =>
      intro taken
      rfl
  | cons name front ih =>
      intro taken
      by_cases hhere : name = Path.here
      · have hrest : front ++ more ≠ [] := List.append_ne_nil_of_right_ne_nil _ hmore
        rw [hhere, List.cons_append, follow_insert_here _ _ _ taken hrest, ih taken,
          List.filter_cons_of_neg (by simp)]
      · have hmoved := ih (taken ++ [name])
        rw [List.append_assoc, List.append_assoc] at hmoved
        rw [List.filter_cons_of_pos (by simpa using hhere)]
        exact hmoved

/-! ## The same directory -/

section SameTrail

variable {root other : Path} (hsame : root.SameTrail other)

include hsame

theorem startOf_eq_of_sameTrail : fs.startOf root = fs.startOf other := by
  rw [startOf, startOf, hsame.isAbsolute_eq]

theorem follow_pieces_append_of_sameTrail
    (followLast : Bool) (allowance : Nat) (place : Location) {more : List Bytes}
    (hmore : more ≠ []) :
    fs.follow followLast allowance place (Path.pieces root ++ more) =
      fs.follow followLast allowance place (Path.pieces other ++ more) := by
  rw [follow_filter_here _ _ _ (Path.pieces root) hmore,
    follow_filter_here _ _ _ (Path.pieces other) hmore]
  exact congrArg (fun steps => fs.follow followLast allowance place (steps ++ more)) hsame.trail_eq

theorem lookup_directory_of_sameTrail
    {entries : Listing} (hne : other ≠ []) (hlength : other.length ≤ pathLimit)
    (h : fs.lookup root = .ok (.directory entries)) :
    fs.lookup other = .ok (.directory entries) := by
  obtain ⟨⟨hnul, -, -⟩, place, hleads, hdir⟩ := leads_pieces_of_lookup h
  have hfollowable : IsFollowable other :=
    ⟨hsame.notMem (by decide) (by decide) hnul, hne, hlength⟩
  -- Behind the root a final `.` demands a directory; this one component makes the two comparable.
  obtain ⟨left, hleft⟩ := hleads.follow_append hdir
  have hhere : fs.follow true linkLimit (fs.startOf root) (Path.pieces root ++ [Path.here]) =
      .ok place := by
    rw [hleft true [Path.here] (List.cons_ne_nil _ _), follow_here hdir, follow_nil]
  rw [follow_pieces_append_of_sameTrail hsame _ _ _ (List.cons_ne_nil _ _),
    startOf_eq_of_sameTrail hsame, follow_eq_ok_iff] at hhere
  refine lookup_eq_ok_iff.mpr ⟨place, ?_, hdir⟩
  rw [locate_of_isFollowable hfollowable, follow_eq_ok_iff, Path.steps]
  split
  next => exact hhere
  next => exact hhere.of_append_here

section Below

variable (hroot : IsFollowable root) (hother : IsFollowable other)
  {names : List Bytes} (hnil : names ≠ []) (hnames : ∀ name ∈ names, IsEntryName name)
  (hlength : (root.below names).length ≤ pathLimit)
  (hlength' : (other.below names).length ≤ pathLimit)

include hroot hother hnil hnames hlength hlength'

theorem lookup_below_of_sameTrail :
    fs.lookup (root.below names) = fs.lookup (other.below names) := by
  obtain ⟨front, name, rfl⟩ := (List.eq_nil_or_concat' names).resolve_left hnil
  obtain ⟨hfront, hlast⟩ := List.forall_mem_append.mp hnames
  have hname : IsEntryName name := hlast name List.mem_cons_self
  have hstart : fs.startOf (root.below (front ++ [name])) =
      fs.startOf (other.below (front ++ [name])) := by
    rw [startOf, startOf, Path.isAbsolute_below hroot.2.1 hnames,
      Path.isAbsolute_below hother.2.1 hnames, hsame.isAbsolute_eq]
  have hlocate : fs.locate true (root.below (front ++ [name])) =
      fs.locate true (other.below (front ++ [name])) := by
    rw [locate_of_isFollowable (isFollowable_below hroot hnames hlength),
      locate_of_isFollowable (isFollowable_below hother hnames hlength'), hstart,
      Path.steps_below_concat root hfront hname, Path.steps_below_concat other hfront hname,
      List.append_assoc, List.append_assoc,
      follow_pieces_append_of_sameTrail hsame _ _ _ (by simp)]
  rw [lookup, lookup, hlocate]

theorem isFile_below_of_sameTrail :
    fs.isFile (root.below names) = fs.isFile (other.below names) := by
  rw [isFile, isFile,
    lookup_below_of_sameTrail hsame hroot hother hnil hnames hlength hlength']

theorem sourceText_below_of_sameTrail :
    fs.sourceText (root.below names) = fs.sourceText (other.below names) := by
  rw [sourceText, sourceText, read, read,
    lookup_below_of_sameTrail hsame hroot hother hnil hnames hlength hlength']

end Below

end SameTrail

/-- A root that can be scanned below: a directory, or a path that leads nowhere. The limit on
the length of paths is not reached at and below it. -/
structure IsScanRoot (fs : FileSystem) (root : Path) : Prop where
  ne_nil : root ≠ []
  key_ne : root.key ≠ Path.key [0x2D]
  not_file : fs.isFile root = false
  length_le : root.length ≤ pathLimit
  below_length_le : ∀ entries, fs.lookup root = .ok (.directory entries) →
    ∀ names ∈ entries.leaves, (root.below names).length ≤ pathLimit

/-- A directory is such a root if the paths of all its leaves are short enough. -/
theorem IsScanRoot.of_directory
    {root : Path} {entries : Listing} (hkey : root.key ≠ Path.key [0x2D])
    (hlookup : fs.lookup root = .ok (.directory entries))
    (hleaves : ∀ names ∈ entries.leaves, (root.below names).length ≤ pathLimit) :
    fs.IsScanRoot root where
  ne_nil := (leads_pieces_of_lookup hlookup).1.2.1
  key_ne := hkey
  not_file := by rw [isFile, hlookup]
  length_le := length_le_of_lookup hlookup
  below_length_le others hothers := by
    rw [hlookup] at hothers
    cases hothers
    exact hleaves

theorem IsScanRoot.isDirectory_eq
    {root other : Path} (hroot : fs.IsScanRoot root) (hother : fs.IsScanRoot other)
    (hsame : root.SameTrail other) : fs.isDirectory root = fs.isDirectory other := by
  rw [Bool.eq_iff_iff, isDirectory_iff, isDirectory_iff]
  constructor
  · rintro ⟨entries, hlookup⟩
    exact ⟨entries, lookup_directory_of_sameTrail hsame hother.ne_nil hother.length_le hlookup⟩
  · rintro ⟨entries, hlookup⟩
    exact ⟨entries, lookup_directory_of_sameTrail hsame.symm hroot.ne_nil hroot.length_le hlookup⟩

end FileSystem

/-! ## The same ways -/

open FileSystem

theorem plainSources_of_not_directory
    {fs : FileSystem} {root : Path} (hroot : fs.IsScanRoot root)
    (hdir : ¬∃ entries, fs.lookup root = .ok (.directory entries)) (suffixes : List Text) :
    plainSources fs root suffixes = [] := by
  rcases discover_cases fs hroot.key_ne with
    ⟨entries, hlookup, -⟩ | ⟨content, hlookup, -⟩ | ⟨cause, -, hpaths⟩
  · exact absurd ⟨entries, hlookup⟩ hdir
  · have hfile : fs.isFile root = true := isFile_iff.mpr ⟨content, hlookup⟩
    exact absurd hfile (by simp [hroot.not_file])
  · rw [plainSources_eq_filter, plainFiles, hpaths]
    rfl

theorem exists_ways_of_sameTrail
    {fs : FileSystem} {root other : Path} (hroot : fs.IsScanRoot root)
    (hother : fs.IsScanRoot other) (hsame : root.SameTrail other) (suffixes : List Text) :
    ∃ ways : List (List Bytes),
      plainSources fs root suffixes = ways.map root.below ∧
      plainSources fs other suffixes = ways.map other.below ∧
      ∀ names ∈ ways, names ≠ [] ∧ (∀ name ∈ names, IsEntryName name) ∧
        fs.sourceText (root.below names) = fs.sourceText (other.below names) := by
  by_cases hdir : ∃ entries, fs.lookup root = .ok (.directory entries)
  swap
  · have hdir' : ¬∃ entries, fs.lookup other = .ok (.directory entries) := by
      rintro ⟨entries, hlookup⟩
      exact hdir
        ⟨entries, lookup_directory_of_sameTrail hsame.symm hroot.ne_nil hroot.length_le hlookup⟩
    refine ⟨[], plainSources_of_not_directory hroot hdir suffixes,
      plainSources_of_not_directory hother hdir' suffixes, ?_⟩
    intro names hnames
    cases hnames
  obtain ⟨entries, hlookup⟩ := hdir
  have hlookup' : fs.lookup other = .ok (.directory entries) :=
    lookup_directory_of_sameTrail hsame hother.ne_nil hother.length_le hlookup
  have hfollow := (leads_pieces_of_lookup hlookup).1
  have hfollow' := (leads_pieces_of_lookup hlookup').1
  have hwell : entries.WellFormed := wellFormed_of_lookup hlookup
  have hleaf : ∀ names ∈ entries.leaves, names ≠ [] ∧ ∀ name ∈ names, IsEntryName name := by
    intro names hnames
    obtain ⟨_, _, hcons, -⟩ := Listing.exists_find?_of_mem_leaves hnames
    exact ⟨by simp [hcons], Listing.isEntryName_of_mem_leaves hwell hnames⟩
  have hselected : entries.leaves.filter (fun names =>
        fs.isFile (other.below names) && hasSuffix suffixes (other.below names)) =
      entries.leaves.filter fun names =>
        fs.isFile (root.below names) && hasSuffix suffixes (root.below names) := by
    apply List.filter_congr
    intro names hnames
    obtain ⟨hnil, hentry⟩ := hleaf names hnames
    rw [isFile_below_of_sameTrail hsame hfollow hfollow' hnil hentry
      (hroot.below_length_le entries hlookup names hnames)
      (hother.below_length_le entries hlookup' names hnames)]
    have hsuffix :
        hasSuffix suffixes (other.below names) = hasSuffix suffixes (root.below names) := by
      rw [Bool.eq_iff_iff, hasSuffix_below_iff hnil hentry, hasSuffix_below_iff hnil hentry]
    rw [hsuffix]
  refine ⟨_, plainSources_of_directory hroot.key_ne hlookup suffixes, ?_, ?_⟩
  · rw [plainSources_of_directory hother.key_ne hlookup' suffixes, hselected]
  · intro names hnames
    have hmem : names ∈ entries.leaves := List.mem_of_mem_filter hnames
    obtain ⟨hnil, hentry⟩ := hleaf names hmem
    exact ⟨hnil, hentry, sourceText_below_of_sameTrail hsame hfollow hfollow' hnil hentry
      (hroot.below_length_le entries hlookup names hmem)
      (hother.below_length_le entries hlookup' names hmem)⟩

/-! ## The same findings -/

/-- The names that a text exports, in the order in which they are exported. -/
def exportedNames (text : Text) : List Text :=
  ExportForm.named.allNames text ++ (ExportForm.default.firstName? text).toList

theorem map_name_exportsOf (file : Path) (text : Text) :
    (exportsOf file text).map ExportRecord.name = exportedNames text := by
  rw [exportsOf, List.map_append, List.map_map, List.map_map, exportedNames]
  congr 1 <;> exact List.map_id _

/-- The unused names of files that are given in any way, each with its file. -/
def unusedNames
    {β : Type} [DecidableEq β] (source : β → Text) (isExempt : Text → Bool) (ways : List β) :
    List (Text × β) :=
  ways.flatMap fun way =>
    ((exportedNames (source way)).filter fun name =>
      isExempt name = false ∧
        ∀ other ∈ ways, other ≠ way → occursIn name (source other) = false).map fun name =>
          (name, way)

theorem snd_mem_of_mem_unusedNames
    {β : Type} [DecidableEq β] {source : β → Text} {isExempt : Text → Bool} {ways : List β}
    {part : Text × β} (h : part ∈ unusedNames source isExempt ways) : part.2 ∈ ways := by
  obtain ⟨way, hway, hmem⟩ := List.mem_flatMap.mp h
  obtain ⟨name, -, rfl⟩ := List.mem_map.mp hmem
  exact hway

section Spelled

variable {β : Type} {text : Path → Text} {source : β → Text} {spell : β → Path}
  {ways : List β} (htext : ∀ way ∈ ways, text (spell way) = source way)

include htext

theorem exportsFound_map (isExempt : Text → Bool) :
    (CheckResult.ofTexts text isExempt (ways.map spell)).exportsFound =
      (ways.map fun way => (exportedNames (source way)).length).sum := by
  simp only [CheckResult.ofTexts, List.map_map]
  congr 1
  apply List.map_congr_left
  intro way hway
  rw [Function.comp_apply, htext way hway, ← map_name_exportsOf (spell way), List.length_map]

variable
  (hkeys : ∀ way ∈ ways, ∀ other ∈ ways, (spell other).key = (spell way).key → other = way)

include hkeys

theorem unmentioned_map_iff {way : β} (hway : way ∈ ways) (name : Text) :
    Unmentioned text (ways.map spell) name (spell way) ↔
      ∀ other ∈ ways, other ≠ way → occursIn name (source other) = false := by
  rw [Unmentioned, List.forall_mem_map]
  refine forall₂_congr fun other hother => ?_
  rw [htext other hother, ← occursIn_iff, Bool.not_eq_true]
  constructor
  · intro h hne
    apply h
    intro hkey
    exact hne (hkeys way hway other hother hkey)
  · intro h hkey
    apply h
    rintro rfl
    exact hkey rfl

/-- Spelling out the files commutes with looking for unused exports. -/
theorem unusedExports_map [DecidableEq β] (isExempt : Text → Bool) :
    unusedExports text isExempt (ways.map spell) =
      (unusedNames source isExempt ways).map fun part => ⟨part.1, spell part.2⟩ := by
  rw [unusedExports, unusedNames, List.flatMap_map, List.map_flatMap]
  apply List.flatMap_congr
  intro way hway
  rw [htext way hway, ← map_name_exportsOf (spell way), List.filter_map, List.map_map,
    List.map_map]
  have hfilter : (exportsOf (spell way) (source way)).filter (fun record =>
        isExempt record.name = false ∧
          Unmentioned text (ways.map spell) record.name (spell way)) =
      (exportsOf (spell way) (source way)).filter ((fun name =>
        decide (isExempt name = false ∧
          ∀ other ∈ ways, other ≠ way → occursIn name (source other) = false)) ∘
            ExportRecord.name) := by
    apply List.filter_congr
    intro record _
    rw [Function.comp_apply, decide_eq_decide, unmentioned_map_iff htext hkeys hway]
  rw [hfilter]
  rfl

end Spelled

/-! ## Two runs -/

theorem Config.resolve_root (fs : FileSystem) (config : Config) (root : Path) :
    Config.resolve fs { config with root := root } =
      (config.resolve fs).map fun resolved => { resolved with root := root } := by
  have hsettings : settingsOf fs { config with root := root }.toOptions =
      settingsOf fs config.toOptions := rfl
  rw [resolve, resolve, hsettings]
  cases settingsOf fs config.toOptions with
  | error failure => rfl
  | ok settings => rfl

theorem Config.gitignore_of_resolve
    {fs : FileSystem} {config resolved : Config} (h : config.resolve fs = .ok resolved) :
    resolved.gitignore = config.gitignore := by
  rw [resolve] at h
  split at h
  next => cases h
  next =>
    obtain rfl := Except.ok.inj h
    rfl

/-- What a check comes to for listed ways and the texts at their ends. -/
theorem CheckResult.specified_of_ways
    {fs : FileSystem} (config : Config) {ways : List (List Bytes)} (source : List Bytes → Text)
    (hways : (findSources fs config.query).paths = ways.map config.root.below)
    (hnames : ∀ way ∈ ways, way ≠ [] ∧ ∀ name ∈ way, IsEntryName name)
    (hsource : ∀ way ∈ ways, fs.sourceText (config.root.below way) = source way) :
    let result := CheckResult.specified fs config
    result.filesScanned = ways.length ∧
    result.exportsFound = (ways.map fun way => (exportedNames (source way)).length).sum ∧
    result.findings =
      (unusedNames source (fun name => decide (name ∈ config.exempt)) ways).map fun part =>
        ⟨part.1, config.root.join (Path.below [] part.2)⟩ := by
  have hkeys : ∀ way ∈ ways, ∀ other ∈ ways,
      (config.root.below other).key = (config.root.below way).key → other = way := by
    intro way hway other hother hkey
    exact Path.key_below_injective config.root (hnames other hother).2 (hnames way hway).2 hkey
  rw [CheckResult.specified, hways]
  refine ⟨List.length_map _, exportsFound_map hsource _, ?_⟩
  rw [CheckResult.ofTexts]
  dsimp only
  rw [unusedExports_map hsource hkeys]
  apply List.map_congr_left
  intro part hpart
  obtain ⟨hne, hentry⟩ := hnames part.2 (snd_mem_of_mem_unusedNames hpart)
  rw [Path.below_eq_join _ hne hentry]

/-- Two spellings of one root that differ only in repeated and trailing slashes and in `.`
components give the same check, up to the spelling in front of the files. -/
theorem runCheck_respelled_root
    {fs : FileSystem} {config : Config} {root other : Path}
    (hgitignore : config.gitignore = false) (hsame : root.SameTrail other)
    (hroot : fs.IsScanRoot root) (hother : fs.IsScanRoot other) :
    fs.isDirectory root = fs.isDirectory other ∧
    ((∃ failure, runCheck fs { config with root := root } = .error failure ∧
        runCheck fs { config with root := other } = .error failure) ∨
      ∃ run run', runCheck fs { config with root := root } = .ok run ∧
        runCheck fs { config with root := other } = .ok run' ∧
        run.result.filesScanned = run'.result.filesScanned ∧
        run.result.exportsFound = run'.result.exportsFound ∧
        ∃ parts : List (Text × Path),
          (∀ part ∈ parts, part.2.isAbsolute = false) ∧
          run.result.findings = parts.map (fun part => ⟨part.1, root.join part.2⟩) ∧
          run'.result.findings = parts.map fun part => ⟨part.1, other.join part.2⟩) := by
  refine ⟨hroot.isDirectory_eq hother hsame, ?_⟩
  cases hresolve : config.resolve fs with
  | error failure =>
      refine .inl ⟨failure, ?_, ?_⟩
      · rw [runCheck, Config.resolve_root, hresolve]
        rfl
      · rw [runCheck, Config.resolve_root, hresolve]
        rfl
  | ok resolved =>
      have hplain : resolved.gitignore = false :=
        (Config.gitignore_of_resolve hresolve).trans hgitignore
      have hresolved : ∀ spelling : Path, Config.resolve fs { config with root := spelling } =
          .ok { resolved with root := spelling } := by
        intro spelling
        rw [Config.resolve_root, hresolve]
        rfl
      have hquery : ∀ spelling : Path, Config.query { resolved with root := spelling } =
          ⟨spelling, resolved.suffixes, false⟩ := by
        intro spelling
        rw [Config.query, hplain]
      obtain ⟨run, hrun, hresult⟩ := exists_runCheck_of_resolve (hresolved root)
      obtain ⟨run', hrun', hresult'⟩ := exists_runCheck_of_resolve (hresolved other)
      obtain ⟨ways, hways, hways', hall⟩ :=
        exists_ways_of_sameTrail hroot hother hsame resolved.suffixes
      have hnames : ∀ way ∈ ways, way ≠ [] ∧ ∀ name ∈ way, IsEntryName name := by
        intro way hway
        exact ⟨(hall way hway).1, (hall way hway).2.1⟩
      -- Both runs are described by the texts that the first one reads.
      let source := fun way => fs.sourceText (root.below way)
      obtain ⟨hscanned, hfound, hfindings⟩ :=
        CheckResult.specified_of_ways { resolved with root := root } source
          (by rw [hquery]; exact hways) hnames fun way _ => rfl
      obtain ⟨hscanned', hfound', hfindings'⟩ :=
        CheckResult.specified_of_ways { resolved with root := other } source
          (by rw [hquery]; exact hways') hnames fun way hway => (hall way hway).2.2.symm
      let unused := unusedNames source (fun name => decide (name ∈ resolved.exempt)) ways
      refine .inr ⟨run, run', hrun, hrun', ?_, ?_,
        unused.map fun part => (part.1, Path.below [] part.2), ?_, ?_, ?_⟩
      · rw [hresult, hresult', hscanned, hscanned']
      · rw [hresult, hresult', hfound, hfound']
      · rw [List.forall_mem_map]
        intro part hpart
        exact Path.isAbsolute_nil_below (hnames part.2 (snd_mem_of_mem_unusedNames hpart)).2
      · rw [hresult, hfindings, List.map_map]
        rfl
      · rw [hresult', hfindings', List.map_map]
        rfl

def nestedSources : Listing :=
  .cons (Bytes.ofString "a.ts") (.file (.ok (Bytes.ofString "export const alpha")))
    (.cons (Bytes.ofString "lib")
      (.directory
        (.cons (Bytes.ofString "b.ts") (.file (.ok (Bytes.ofString "export class beta"))) .nil))
      .nil)

/-- They are in the directory `src`. -/
def nestedTree : FileSystem where
  top := .cons (Bytes.ofString "src") (.directory nestedSources) .nil
  current := []
  wellFormed := by decide

/-- Two spellings of one directory that have different keys. -/
theorem runCheck_respelled_root_nestedTree :
    let root : Path := Bytes.ofString "src"
    let other : Path := Bytes.ofString ".//src/./"
    root.key ≠ other.key ∧ root.SameTrail other ∧
      nestedTree.IsScanRoot root ∧ nestedTree.IsScanRoot other ∧
      ∃ run run', runCheck nestedTree { greekScan with root := root } = .ok run ∧
        runCheck nestedTree { greekScan with root := other } = .ok run' ∧
        run.result.filesScanned = run'.result.filesScanned ∧
        run'.result.findings.map Finding.name = run.result.findings.map Finding.name := by
  intro root other
  have hdotted : Path.SameTrail (Path.here ++ Path.slash :: root) root :=
    Path.sameTrail_here (by decide)
  have hsame : root.SameTrail other := hdotted.symm.trans (.of_key_eq (by decide))
  have hlookup : nestedTree.lookup root = .ok (.directory nestedSources) := rfl
  have hlookup' : nestedTree.lookup other = .ok (.directory nestedSources) := rfl
  have hroot : nestedTree.IsScanRoot root := .of_directory (by decide) hlookup (by decide)
  have hother : nestedTree.IsScanRoot other := .of_directory (by decide) hlookup' (by decide)
  have hgitignore : greekScan.gitignore = false := rfl
  refine ⟨by decide, hsame, hroot, hother, ?_⟩
  obtain ⟨-, hruns⟩ := runCheck_respelled_root hgitignore hsame hroot hother
  rcases hruns with
    ⟨failure, hfailure, -⟩ | ⟨run, run', hrun, hrun', hscanned, -, parts, -, hparts, hparts'⟩
  · have hresolve : Config.resolve nestedTree { greekScan with root := root } = .ok _ := rfl
    obtain ⟨run, hrun, -⟩ := exists_runCheck_of_resolve hresolve
    rw [hfailure] at hrun
    cases hrun
  · refine ⟨run, run', hrun, hrun', hscanned, ?_⟩
    rw [hparts, hparts', List.map_map, List.map_map]
    rfl

end DeadExports
