import DeadExports.Proofs.ConfigHistory
import DeadExports.Proofs.Findings
import DeadExports.Proofs.ScanInputs

/-!
# Exempting more names

Exempt names act on the findings of a run and on nothing else: an export with an exempt name
is still counted, and its text can still mention another name. With more exempt names the
findings are therefore filtered and all else stays.

It does not matter which of the two sources the names come from, the options or the settings
file, as long as editing the settings file leaves the scan alone. `FileSystem.WritesApart`
says when it does. A settings file can be a source itself, and, where ignore files are
respected, it can be an ignore file. In the second case an added name is read as a rule too,
and the last part gives a tree in which a source disappears in this way.
-/

namespace DeadExports

/-! ## More exempt names on given texts -/

theorem CheckResult.ofTexts_congr
    {text other : Path → Text} {isExempt : Text → Bool} {corpus : List Path}
    (h : ∀ file ∈ corpus, other file = text file) :
    ofTexts other isExempt corpus = ofTexts text isExempt corpus := by
  have hunmentioned : Unmentioned other corpus = Unmentioned text corpus := by
    funext name file
    refine propext (forall₂_congr fun path hpath => ?_)
    rw [h path hpath]
  have hfindings : unusedExports other isExempt corpus = unusedExports text isExempt corpus := by
    rw [unusedExports, unusedExports, List.flatMap_def, List.flatMap_def]
    congr 1
    apply List.map_congr_left
    intro file hfile
    simp only [h file hfile, hunmentioned]
  have hcount : (corpus.map fun file => (exportsOf file (other file)).length) =
      corpus.map fun file => (exportsOf file (text file)).length := by
    apply List.map_congr_left
    intro file hfile
    rw [h file hfile]
  rw [ofTexts, ofTexts, hfindings, hcount]

/-- With more exempt names, the findings with one of these names go. -/
theorem filter_unusedExports_exempt
    (text : Path → Text) (isExempt more : Text → Bool) (extra : List Text)
    (hmore : ∀ name, more name = true ↔ isExempt name = true ∨ name ∈ extra)
    (corpus : List Path) :
    unusedExports text more corpus =
      (unusedExports text isExempt corpus).filter (·.name ∉ extra) := by
  rw [unusedExports_eq_filter, unusedExports_eq_filter, List.filter_map, List.filter_filter]
  congr 1
  apply List.filter_congr
  intro record _
  have hname := hmore record.name
  rw [← Bool.not_eq_false, ← Bool.not_eq_false] at hname
  simp only [Function.comp_apply, ← Bool.decide_and, decide_eq_decide]
  tauto

theorem CheckResult.specified_of_more_exempt
    {config more : Config} {extra : List Text} (hquery : more.query = config.query)
    (hexempt : ∀ name, name ∈ more.exempt ↔ name ∈ config.exempt ∨ name ∈ extra)
    (fs : FileSystem) :
    specified fs more =
      { specified fs config with
        findings := (specified fs config).findings.filter (·.name ∉ extra) } := by
  have hfindings := filter_unusedExports_exempt fs.sourceText
    (fun name => decide (name ∈ config.exempt)) (fun name => decide (name ∈ more.exempt)) extra
    (by simpa using hexempt) (findSources fs config.query).paths
  rw [specified, specified, hquery, ofTexts, ofTexts, hfindings]

theorem CheckResult.notMem_exempt_of_mem_findings
    {fs : FileSystem} {config : Config} {finding : Finding}
    (h : finding ∈ (specified fs config).findings) : finding.name ∉ config.exempt := by
  rw [findings_specified] at h
  obtain ⟨-, -, -, hexempt, -⟩ := of_mem_unusedExports h
  simpa using hexempt

/-! ## Resolved configurations -/

def Config.resolvedWith (config : Config) (settings : Settings) : Config :=
  { config with
    exempt := exemptNames config.toOptions settings
    suffixes := selectedSuffixes config.toOptions settings }

theorem Config.resolve_of_settingsOf
    {fs : FileSystem} {config : Config} {settings : Settings}
    (h : settingsOf fs config.toOptions = .ok settings) :
    config.resolve fs = .ok (config.resolvedWith settings) := by
  rw [resolve, h]
  rfl

theorem result_of_settingsOf
    {fs : FileSystem} {config : Config} {settings : Settings} {run : CheckRun}
    (hrun : runCheck fs config = .ok run)
    (hsettings : Config.settingsOf fs config.toOptions = .ok settings) :
    run.result = CheckResult.specified fs (config.resolvedWith settings) := by
  obtain ⟨resolved, hresolved, hresult⟩ := exists_resolve_of_runCheck hrun
  rw [Config.resolve_of_settingsOf hsettings] at hresolved
  cases hresolved
  exact hresult

/-! ## Editing the settings file -/

/-- One tree comes from another by writing to the file at a path, and the file is neither a
source that a query finds nor looked into for ignore rules. -/
structure FileSystem.WritesApart
    (path : Path) (query : SourceQuery) (fs changed : FileSystem) : Prop where
  written : ∃ contents, fs.write path contents = .ok changed
  unlisted : ∀ file ∈ (findSources fs query).paths, fs.canonical file ≠ fs.canonical path
  unconsulted : query.respectIgnoreFiles = true →
    ∀ file ∈ Ignore.consulted fs query.root, fs.canonical file ≠ fs.canonical path

namespace FileSystem

variable {fs changed : FileSystem}

theorem exists_place_of_read {path : Path} {content : Bytes} (h : fs.read path = .ok content) :
    ∃ place, fs.canonical path = .ok place ∧ fs.node? place = some (.file (.ok content)) := by
  have hlookup : fs.lookup path = .ok (.file (.ok content)) := by
    rw [read] at h
    cases hlookup : fs.lookup path with
    | error cause => simp [hlookup, bind, Except.bind] at h
    | ok node =>
        cases node with
        | file contents =>
            cases contents with
            | error fault => simp [hlookup, bind, Except.bind, Except.mapError] at h
            | ok other => simpa [hlookup, bind, Except.bind, Except.mapError] using h
        | link target => simp [hlookup, bind, Except.bind] at h
        | directory entries => simp [hlookup, bind, Except.bind] at h
  obtain ⟨place, hlocate, hnode⟩ := lookup_eq_ok_iff.mp hlookup
  exact ⟨place, canonical_eq_ok_iff.mpr ⟨hlocate, by rw [hnode]; rfl⟩, hnode⟩

theorem WritesApart.specified_eq
    {path : Path} {content : Bytes} {config : Config}
    (h : WritesApart path config.query fs changed) (hread : fs.read path = .ok content) :
    CheckResult.specified changed config = CheckResult.specified fs config := by
  obtain ⟨place, hplace, hnode⟩ := exists_place_of_read hread
  obtain ⟨written, hwrite⟩ := h.written
  have hrewrites : Rewrites place fs changed := rewrites_of_write hplace hnode hwrite
  have hsources : findSources changed config.query = findSources fs config.query := by
    apply hrewrites.findSources_eq
    intro hrespect file hfile
    rw [← hplace]
    exact h.unconsulted hrespect file hfile
  rw [CheckResult.specified, CheckResult.specified, hsources]
  apply CheckResult.ofTexts_congr
  intro file hfile
  rw [sourceText, sourceText, hrewrites.read_eq (hplace ▸ h.unlisted file hfile)]

end FileSystem

theorem write_eq_ok_apply
    {fs : FileSystem} {path : Path} {contents : Contents}
    (h : (fs.write path contents).toOption.isSome = true) :
    fs.write path contents = .ok (fs.apply (.write path contents)) := by
  obtain ⟨changed, hchanged⟩ := Option.isSome_iff_exists.mp h
  rw [FileSystem.apply, hchanged]
  exact eq_ok_of_toOption hchanged

theorem exists_read_of_settingsOf
    {fs : FileSystem} {options : Options} {settings : Settings} {path : Path}
    (hpath : options.config = some path) (h : Config.settingsOf fs options = .ok settings) :
    ∃ content, fs.read path = .ok content := by
  rw [Config.settingsOf, hpath] at h
  dsimp only at h
  rw [Settings.ofFile] at h
  cases hread : fs.read path with
  | error cause => simp [hread] at h
  | ok content => exact ⟨content, rfl⟩

/-! ## More exempt names in a run -/

/-- Names may be added to the options, to the settings file by an edit that leaves the scan
alone, or to both, and names may move between the two. Counts stay, and of the findings those
with an added name go. If every added name was exempt before, nothing changes. -/
theorem exemption_filters_findings
    {fs changed : FileSystem} {config : Config} {settings altered : Settings} {run : CheckRun}
    {allow extra : List Text}
    (hrun : runCheck fs config = .ok run)
    (hsettings : Config.settingsOf fs config.toOptions = .ok settings)
    (hchanged : changed = fs ∨ ∃ path, config.config = some path ∧
      FileSystem.WritesApart path (config.resolvedWith settings).query fs changed)
    (haltered : Config.settingsOf changed config.toOptions = .ok altered)
    (hextensions : altered.extensions = settings.extensions)
    (hnames : ∀ name, name ∈ allow ∨ name ∈ altered.allow ↔
      (name ∈ config.allow ∨ name ∈ settings.allow) ∨ name ∈ extra) :
    (∃ after, runCheck changed { config with allow := allow } = .ok after ∧
      after.result =
        { run.result with findings := run.result.findings.filter (·.name ∉ extra) } ∧
      ((∀ name ∈ extra, name ∈ config.allow ∨ name ∈ settings.allow) →
        after.result = run.result)) ∧
    ∀ finding ∈ run.result.findings, finding.name ∉ frameworkNames := by
  have hresult : run.result = CheckResult.specified fs (config.resolvedWith settings) :=
    result_of_settingsOf hrun hsettings
  have hkept : ∀ finding ∈ run.result.findings, finding.name ∉ frameworkNames ∧
      ¬(finding.name ∈ config.allow ∨ finding.name ∈ settings.allow) := by
    intro finding hfinding
    rw [hresult] at hfinding
    have hexempt := CheckResult.notMem_exempt_of_mem_findings hfinding
    rwa [Config.resolvedWith, Config.mem_exemptNames, not_or] at hexempt
  have hsame : CheckResult.specified changed (config.resolvedWith settings) = run.result := by
    rw [hresult]
    rcases hchanged with rfl | ⟨path, hpath, hapart⟩
    · rfl
    · obtain ⟨content, hread⟩ := exists_read_of_settingsOf hpath hsettings
      exact hapart.specified_eq hread
  let more : Config := { config with allow := allow }
  have hquery : (more.resolvedWith altered).query = (config.resolvedWith settings).query := by
    simp only [Config.query, Config.resolvedWith, Config.selectedSuffixes, hextensions, more]
  have hexempt : ∀ name, name ∈ (more.resolvedWith altered).exempt ↔
      name ∈ (config.resolvedWith settings).exempt ∨ name ∈ extra := by
    intro name
    simp only [Config.resolvedWith, Config.mem_exemptNames]
    rw [hnames name, ← or_assoc]
  have hresolves : more.resolve changed = .ok (more.resolvedWith altered) :=
    Config.resolve_of_settingsOf haltered
  obtain ⟨after, hafter, hresultAfter⟩ := exists_runCheck_of_resolve hresolves
  rw [CheckResult.specified_of_more_exempt hquery hexempt, hsame] at hresultAfter
  refine ⟨⟨after, hafter, hresultAfter, fun hold => ?_⟩, fun finding hfinding =>
    (hkept finding hfinding).1⟩
  have hall : run.result.findings.filter (·.name ∉ extra) = run.result.findings := by
    rw [List.filter_eq_self]
    intro finding hfinding
    have hnot : finding.name ∉ extra := fun hextra =>
      (hkept finding hfinding).2 (hold finding.name hextra)
    simpa using hnot
  rw [hresultAfter, hall]

/-- The current directory with two sources, an ignore file and settings that exempt a name. -/
def knownTree : FileSystem where
  top :=
    .cons (Bytes.ofString ".gitignore") (.file (.ok (Bytes.ofString "dist\n")))
      (.cons (Bytes.ofString "a.ts") (.file (.ok (Bytes.ofString "export const alpha")))
        (.cons (Bytes.ofString "b.ts")
            (.file (.ok (Bytes.ofString "export class beta; export type gamma")))
          (.cons (Bytes.ofString "known.json")
            (.file (.ok (Bytes.ofString "\x7b\"allow\":[\"alpha\"]\x7d"))) .nil)))
  current := []
  wellFormed := by decide

def knownPath : Path := Bytes.ofString "known.json"

/-- Settings that exempt another name. -/
def knownEdit : Bytes := Bytes.ofString "\x7b\"allow\":[\"gamma\"]\x7d"

def knownScan : Config :=
  .ofOptions { Options.default with root := Path.here, config := some knownPath, gitignore := true }

def knownRun : CheckRun where
  result :=
    ⟨[⟨"beta".toList, Bytes.ofString "./b.ts"⟩, ⟨"gamma".toList, Bytes.ofString "./b.ts"⟩], 2, 3⟩
  warnings := []

def editedTree : FileSystem :=
  knownTree.apply (.write knownPath (.ok knownEdit))

def knownQuery : SourceQuery :=
  (knownScan.resolvedWith ⟨["alpha".toList], []⟩).query

theorem exemption_filters_findings_knownTree :
    FileSystem.WritesApart knownPath knownQuery knownTree editedTree ∧
      ∃ after,
        runCheck editedTree { knownScan with allow := ["alpha".toList] } = .ok after ∧
          after.result = ⟨[⟨"beta".toList, Bytes.ofString "./b.ts"⟩], 2, 3⟩ := by
  have hrun : runCheck knownTree knownScan = .ok knownRun :=
    eq_ok_of_toOption (by decide +kernel)
  have hsettings : Config.settingsOf knownTree knownScan.toOptions = .ok ⟨["alpha".toList], []⟩ :=
    eq_ok_of_toOption (by decide +kernel)
  have haltered : Config.settingsOf editedTree knownScan.toOptions = .ok ⟨["gamma".toList], []⟩ :=
    eq_ok_of_toOption (by decide +kernel)
  have hapart : FileSystem.WritesApart knownPath knownQuery knownTree editedTree :=
    { written := ⟨.ok knownEdit, write_eq_ok_apply (by decide +kernel)⟩
      unlisted := by decide +kernel
      unconsulted := by decide +kernel }
  have hnames : ∀ name, name ∈ ["alpha".toList] ∨ name ∈ ["gamma".toList] ↔
      (name ∈ knownScan.allow ∨ name ∈ ["alpha".toList]) ∨ name ∈ ["gamma".toList] := by
    simp [knownScan, Config.ofOptions, Options.default]
  obtain ⟨⟨after, hafter, hresult, -⟩, -⟩ :=
    exemption_filters_findings hrun hsettings (.inr ⟨knownPath, rfl, hapart⟩) haltered rfl hnames
  exact ⟨hapart, after, hafter, by rw [hresult]; decide⟩

/-! ## Settings that are read as ignore rules -/

/-- The current directory with one source, in a directory whose name is in quotes, and settings
that exempt nothing. The settings file has the name of an ignore file. -/
def quotedTree : FileSystem where
  top :=
    .cons (Bytes.ofString "src")
      (.directory
        (.cons (Bytes.ofString "\"d\"")
          (.directory
            (.cons (Bytes.ofString "b.ts") (.file (.ok (Bytes.ofString "export const Foo"))) .nil))
          (.cons (Bytes.ofString ".gitignore")
            (.file (.ok (Bytes.ofString "\x7b\"allow\":[\n]\x7d"))) .nil)))
      .nil
  current := []
  wellFormed := by decide

def quotedPath : Path := Bytes.ofString "src/.gitignore"

/-- Settings that exempt `d`, on a line of its own, which as a rule is the name of the
directory. -/
def quotedEdit : Bytes := Bytes.ofString "\x7b\"allow\":[\n\"d\"\n]\x7d"

def quotedScan : Config :=
  .ofOptions
    { Options.default with
      root := Bytes.ofString "src", config := some quotedPath, gitignore := true }

/-- Exempting a name in the settings file makes the scan pass over a source. -/
theorem exemption_hides_source :
    ∃ changed run after,
      quotedTree.write quotedPath (.ok quotedEdit) = .ok changed ∧
      (∀ file ∈ (findSources quotedTree (quotedScan.resolvedWith .empty).query).paths,
        quotedTree.canonical file ≠ quotedTree.canonical quotedPath) ∧
      Config.settingsOf quotedTree quotedScan.toOptions = .ok ⟨[], []⟩ ∧
      Config.settingsOf changed quotedScan.toOptions = .ok ⟨["d".toList], []⟩ ∧
      runCheck quotedTree quotedScan = .ok run ∧
      runCheck changed quotedScan = .ok after ∧
      run.result = ⟨[⟨"Foo".toList, Bytes.ofString "src/\"d\"/b.ts"⟩], 1, 1⟩ ∧
      after.result = ⟨[], 0, 0⟩ := by
  refine ⟨quotedTree.apply (.write quotedPath (.ok quotedEdit)), ⟨_, []⟩,
    ⟨_, [.noSources (Bytes.ofString "src")]⟩, write_eq_ok_apply (by decide +kernel),
    by decide +kernel, ?_, ?_, ?_, ?_, rfl, rfl⟩
  · exact eq_ok_of_toOption (by decide +kernel)
  · exact eq_ok_of_toOption (by decide +kernel)
  · exact eq_ok_of_toOption (by decide +kernel)
  · exact eq_ok_of_toOption (by decide +kernel)

end DeadExports
