import DeadExports.Proofs.Occurrences
import DeadExports.Proofs.SequentialPass
import Mathlib.Data.List.Perm.Subperm

/-!
# Laws of findings

A name is exported where it stands in a text, so it is not empty and occurs in the text of
its own file. Together with the search for mentions this relates findings of different
files: if the name of one were a part of the name of another, it would be mentioned in the
file of the other.

The second part compares two corpora, one of which is a part of the other. The smaller one
has fewer exports and fewer places where an export can be mentioned. Files with an empty
text make no difference at all, because no exported name is empty.
-/

namespace DeadExports

/-! ## Exported names -/

theorem Occurrence.Spells.name_within
    {opening text : Text} {keywords : List Text} {occurrence : Occurrence}
    (h : occurrence.Spells opening keywords text) : occurrence.name <:+: text := by
  obtain ⟨keyword, -, rest, htext, -⟩ := h
  refine ⟨text.take occurrence.start ++ (opening ++ keyword ++ [' ']), rest, ?_⟩
  calc
    text.take occurrence.start ++ (opening ++ keyword ++ [' ']) ++ occurrence.name ++ rest
        = text.take occurrence.start ++ (opening ++ keyword ++ ' ' :: occurrence.name ++ rest) := by
          simp
    _ = text.take occurrence.start ++ text.drop occurrence.start := by rw [htext]
    _ = text := List.take_append_drop _ _

theorem ExportForm.exists_spells_of_mem_allNames
    {form : ExportForm} (hform : form.Spaceless) {text name : Text}
    (h : name ∈ form.allNames text) :
    ∃ occurrence : Occurrence,
      occurrence.Spells form.opening form.keywords text ∧ occurrence.name = name := by
  obtain ⟨listed, hnames, hlists⟩ := exists_lists_allNames hform text
  rw [hnames] at h
  obtain ⟨occurrence, hlisted, hname⟩ := List.mem_map.mp h
  exact ⟨occurrence, hlists.spells occurrence hlisted, hname⟩

theorem exists_spells_of_mem_exportsOf
    {file : Path} {text : Text} {record : ExportRecord} (h : record ∈ exportsOf file text) :
    ∃ (opening : Text) (keywords : List Text) (occurrence : Occurrence),
      occurrence.Spells opening keywords text ∧ occurrence.name = record.name := by
  have hnames :
      record.name ∈ ExportForm.named.allNames text ∨
        record.name ∈ ExportForm.default.allNames text := by
    rw [exportsOf, List.mem_append] at h
    rcases h with h | h
    · obtain ⟨name, hname, rfl⟩ := List.mem_map.mp h
      exact .inl hname
    · obtain ⟨name, hname, rfl⟩ := List.mem_map.mp h
      rw [Option.mem_toList, ExportForm.firstName?_eq_head? ExportForm.default_spaceless] at hname
      exact .inr (List.mem_of_mem_head? hname)
  rcases hnames with hname | hname
  · exact ⟨_, _, ExportForm.exists_spells_of_mem_allNames ExportForm.named_spaceless hname⟩
  · exact ⟨_, _, ExportForm.exists_spells_of_mem_allNames ExportForm.default_spaceless hname⟩

theorem name_of_mem_exportsOf
    {file : Path} {text : Text} {record : ExportRecord} (h : record ∈ exportsOf file text) :
    record.name ≠ [] ∧ record.name <:+: text := by
  obtain ⟨opening, keywords, occurrence, hspells, hname⟩ := exists_spells_of_mem_exportsOf h
  have hne : occurrence.name ≠ [] := by
    obtain ⟨keyword, -, rest, -, hne, -⟩ := hspells
    exact hne
  rw [← hname]
  exact ⟨hne, hspells.name_within⟩

theorem exportsOf_nil (file : Path) : exportsOf file [] = [] := rfl

/-! ## Findings of a run -/

theorem CheckResult.findings_specified (fs : FileSystem) (config : Config) :
    (specified fs config).findings =
      unusedExports fs.sourceText (fun name => decide (name ∈ config.exempt))
        (findSources fs config.query).paths := rfl

theorem exists_runCheck_of_resolve
    {fs : FileSystem} {config resolved : Config} (h : config.resolve fs = .ok resolved) :
    ∃ run, runCheck fs config = .ok run ∧ run.result = CheckResult.specified fs resolved := by
  have hcorpus :
      (checkCorpus fs resolved.isExempt (findSources fs resolved.query).paths).result =
        CheckResult.specified fs resolved := by
    rw [Config.isExempt_eq]
    exact checkCorpus_result (findSources_keys_nodup fs resolved.query) _
  rw [runCheck, h]
  dsimp only
  split
  next hempty =>
    refine ⟨_, rfl, ?_⟩
    rw [← hcorpus, List.isEmpty_iff.mp hempty]
    rfl
  next => exact ⟨_, rfl, hcorpus⟩

theorem exists_resolve_of_runCheck
    {fs : FileSystem} {config : Config} {run : CheckRun} (h : runCheck fs config = .ok run) :
    ∃ resolved, config.resolve fs = .ok resolved ∧
      run.result = CheckResult.specified fs resolved := by
  cases hresolve : config.resolve fs with
  | error failure =>
      rw [runCheck, hresolve] at h
      cases h
  | ok resolved =>
      obtain ⟨other, hother, hresult⟩ := exists_runCheck_of_resolve hresolve
      rw [h] at hother
      cases hother
      exact ⟨resolved, rfl, hresult⟩

/-- What is reported is an export of a listed file that is neither exempt nor mentioned. -/
theorem of_mem_unusedExports
    {text : Path → Text} {isExempt : Text → Bool} {corpus : List Path} {finding : Finding}
    (h : finding ∈ unusedExports text isExempt corpus) :
    finding.file ∈ corpus ∧ finding.name ≠ [] ∧ finding.name <:+: text finding.file ∧
      isExempt finding.name = false ∧ Unmentioned text corpus finding.name finding.file := by
  obtain ⟨file, hfile, hmem⟩ := List.mem_flatMap.mp h
  obtain ⟨record, hrecord, rfl⟩ := List.mem_map.mp hmem
  obtain ⟨hexport, hkept⟩ := List.mem_filter.mp hrecord
  rw [decide_eq_true_eq] at hkept
  obtain ⟨hne, hwithin⟩ := name_of_mem_exportsOf hexport
  exact ⟨hfile, hne, hwithin, hkept.1, hkept.2⟩

/-- Findings of different files have names of which neither is a part of the other. So no
name is reported for two files, and nothing is reported for a file whose text is a part of
the text of another file. -/
theorem findings_of_different_files
    {fs : FileSystem} {config : Config} {run : CheckRun} (hrun : runCheck fs config = .ok run) :
    (∀ first ∈ run.result.findings, ∀ second ∈ run.result.findings,
      first.file.key ≠ second.file.key →
        ¬first.name <:+: second.name ∧ ¬second.name <:+: first.name) ∧
    (∀ first ∈ run.result.findings, ∀ second ∈ run.result.findings,
      first.name = second.name → first.file.key = second.file.key) ∧
    ∀ resolved, config.resolve fs = .ok resolved →
      ∀ file ∈ (findSources fs resolved.query).paths,
        ∀ other ∈ (findSources fs resolved.query).paths, other.key ≠ file.key →
          fs.sourceText file <:+: fs.sourceText other →
            ∀ finding ∈ run.result.findings, finding.file.key ≠ file.key := by
  obtain ⟨resolved, hresolved, hresult⟩ := exists_resolve_of_runCheck hrun
  have hspec : ∀ finding ∈ run.result.findings,
      finding.file ∈ (findSources fs resolved.query).paths ∧
        finding.name <:+: fs.sourceText finding.file ∧
        Unmentioned fs.sourceText (findSources fs resolved.query).paths finding.name
          finding.file := by
    intro finding hfinding
    rw [hresult, CheckResult.findings_specified] at hfinding
    obtain ⟨hfile, -, hwithin, -, hunmentioned⟩ := of_mem_unusedExports hfinding
    exact ⟨hfile, hwithin, hunmentioned⟩
  have hseparate : ∀ first ∈ run.result.findings, ∀ second ∈ run.result.findings,
      first.file.key ≠ second.file.key → ¬first.name <:+: second.name := by
    intro first hfirst second hsecond hkey hpart
    obtain ⟨hfile, hwithin, -⟩ := hspec second hsecond
    obtain ⟨-, -, hunmentioned⟩ := hspec first hfirst
    exact hunmentioned second.file hfile (Ne.symm hkey) (hpart.trans hwithin)
  refine ⟨?_, ?_, ?_⟩
  · intro first hfirst second hsecond hkey
    exact ⟨hseparate first hfirst second hsecond hkey,
      hseparate second hsecond first hfirst (Ne.symm hkey)⟩
  · intro first hfirst second hsecond hname
    by_contra hkey
    exact hseparate first hfirst second hsecond hkey (hname ▸ List.infix_refl _)
  · intro again hagain file hfile other hother hkey hpart finding hfinding hsame
    rw [hresolved, Except.ok.injEq] at hagain
    subst hagain
    obtain ⟨hmem, hwithin, hunmentioned⟩ := hspec finding hfinding
    have hkeys : KeysDistinct (findSources fs resolved.query).paths :=
      findSources_keys_nodup fs resolved.query
    have heq : finding.file = file := hkeys.eq_of_key_eq hmem hfile hsame
    rw [heq] at hwithin hunmentioned
    exact hunmentioned other hother hkey (hwithin.trans hpart)

theorem eq_ok_of_toOption
    {ε α : Type} {result : Except ε α} {a : α} (h : result.toOption = some a) :
    result = .ok a := by
  cases result with
  | error cause => cases h
  | ok b =>
      cases h
      rfl

/-- The current directory with three sources, of which the second is contained in the third,
and an empty one. -/
def greekTree : FileSystem where
  top :=
    .cons (Bytes.ofString "a.ts") (.file (.ok (Bytes.ofString "export const alpha")))
      (.cons (Bytes.ofString "b.ts") (.file (.ok (Bytes.ofString "export class beta")))
        (.cons (Bytes.ofString "c.ts")
            (.file (.ok (Bytes.ofString "export class beta; export type gamma")))
          (.cons (Bytes.ofString "d.ts") (.file (.ok [])) .nil)))
  current := []
  wellFormed := by decide

def greekScan : Config :=
  .ofOptions { Options.default with root := Path.here }

def greekRun : CheckRun where
  result :=
    ⟨[⟨"alpha".toList, Bytes.ofString "./a.ts"⟩, ⟨"gamma".toList, Bytes.ofString "./c.ts"⟩], 4, 4⟩
  warnings := []

theorem findings_of_different_files_greekTree :
    runCheck greekTree greekScan = .ok greekRun ∧
      ¬"alpha".toList <:+: "gamma".toList ∧
      ∀ finding ∈ greekRun.result.findings,
        finding.file.key ≠ Path.key (Bytes.ofString "./b.ts") := by
  have hrun : runCheck greekTree greekScan = .ok greekRun :=
    eq_ok_of_toOption (by decide +kernel)
  obtain ⟨hseparate, -, hcontained⟩ := findings_of_different_files hrun
  have halpha : ⟨"alpha".toList, Bytes.ofString "./a.ts"⟩ ∈ greekRun.result.findings := by decide
  have hgamma : ⟨"gamma".toList, Bytes.ofString "./c.ts"⟩ ∈ greekRun.result.findings := by decide
  refine ⟨hrun, (hseparate _ halpha _ hgamma (by decide)).1, ?_⟩
  exact hcontained _ rfl (Bytes.ofString "./b.ts") (by decide +kernel) (Bytes.ofString "./c.ts")
    (by decide +kernel) (by decide) (by decide +kernel)

/-! ## Narrower corpora -/

/-- The exports of a corpus, file by file. -/
def corpusExports (text : Path → Text) (corpus : List Path) : List ExportRecord :=
  corpus.flatMap fun file => exportsOf file (text file)

theorem filter_corpusExports (text : Path → Text) (keep : Path → Bool) (corpus : List Path) :
    (corpusExports text corpus).filter (fun record => keep record.file) =
      corpusExports text (corpus.filter keep) := by
  induction corpus with
  | nil => rfl
  | cons file corpus ih =>
      have hsplit : corpusExports text (file :: corpus) =
          exportsOf file (text file) ++ corpusExports text corpus := rfl
      rw [hsplit, List.filter_append, ih]
      by_cases hfile : keep file = true
      · have hall : (exportsOf file (text file)).filter (fun record => keep record.file) =
            exportsOf file (text file) := by
          rw [List.filter_eq_self]
          intro record hrecord
          rw [file_of_mem_exportsOf hrecord, hfile]
        rw [hall, List.filter_cons_of_pos hfile]
        rfl
      · have hnone : (exportsOf file (text file)).filter (fun record => keep record.file) = [] := by
          rw [List.filter_eq_nil_iff]
          intro record hrecord
          rwa [file_of_mem_exportsOf hrecord]
        rw [hnone, List.filter_cons_of_neg hfile, List.nil_append]

theorem filter_mem_of_sublist
    {α : Type} [BEq α] [LawfulBEq α] {part whole : List α}
    (hpart : part.Sublist whole) (hwhole : whole.Nodup) : whole.filter (· ∈ part) = part := by
  have hsub : part.Sublist (whole.filter (· ∈ part)) := by
    have h := hpart.filter (· ∈ part)
    rwa [List.filter_eq_self.mpr (by simp)] at h
  have hlength : (whole.filter (· ∈ part)).length ≤ part.length := by
    apply (List.Nodup.subperm (hwhole.filter _) ?_).length_le
    intro a ha
    simpa using (List.mem_filter.mp ha).2
  exact (hsub.eq_of_length_le hlength).symm

theorem Unmentioned.mono
    {text : Path → Text} {narrow wide : List Path} {name : Text} {file : Path}
    (h : Unmentioned text wide name file) (hsubset : narrow ⊆ wide) :
    Unmentioned text narrow name file := by
  intro other hother
  exact h other (hsubset hother)

/-- No mention is lost with files that have no text. -/
theorem Unmentioned.of_narrow
    {text : Path → Text} {narrow wide : List Path} {name : Text} {file : Path}
    (h : Unmentioned text narrow name file) (hname : name ≠ [])
    (hempty : ∀ path ∈ wide, path ∉ narrow → text path = []) :
    Unmentioned text wide name file := by
  intro other hother hkey hmention
  by_cases hmem : other ∈ narrow
  · exact h other hmem hkey hmention
  · rw [hempty other hother hmem, List.infix_nil] at hmention
    exact hname hmention

section Narrower

variable {text : Path → Text} {isExempt : Text → Bool} {narrow wide : List Path}
  (hwide : wide.Nodup) (hsub : narrow.Sublist wide)

include hwide hsub

/-- The findings in files that are still there are findings of the narrower corpus. -/
theorem filter_unusedExports_sublist :
    ((unusedExports text isExempt wide).filter fun finding => finding.file ∈ narrow).Sublist
      (unusedExports text isExempt narrow) := by
  have hexports : (corpusExports text wide).filter (fun record => record.file ∈ narrow) =
      corpusExports text narrow := by
    rw [filter_corpusExports text (· ∈ narrow), filter_mem_of_sublist hsub hwide]
  rw [unusedExports_eq_filter, unusedExports_eq_filter, List.filter_map, List.filter_filter]
  refine List.Sublist.map _ ?_
  change List.Sublist _ ((corpusExports text narrow).filter _)
  rw [← hexports, List.filter_filter]
  apply List.monotone_filter_right
  intro record
  simp only [Function.comp, Bool.and_eq_true, decide_eq_true_eq]
  rintro ⟨hfile, hexempt, hunmentioned⟩
  exact ⟨⟨hexempt, hunmentioned.mono hsub.subset⟩, hfile⟩

/-- Files without text make no difference. -/
theorem unusedExports_eq_of_empty (hempty : ∀ path ∈ wide, path ∉ narrow → text path = []) :
    unusedExports text isExempt wide = unusedExports text isExempt narrow := by
  have hexports : corpusExports text wide = corpusExports text narrow := by
    rw [← filter_mem_of_sublist hsub hwide, ← filter_corpusExports text (· ∈ narrow),
      eq_comm, List.filter_eq_self]
    intro record hrecord
    obtain ⟨file, hfile, hexport⟩ := List.mem_flatMap.mp hrecord
    rw [file_of_mem_exportsOf hexport, decide_eq_true_eq]
    by_contra hmissing
    rw [hempty file hfile hmissing, exportsOf_nil] at hexport
    cases hexport
  rw [unusedExports_eq_filter, unusedExports_eq_filter]
  change ((corpusExports text wide).filter _).map _ = ((corpusExports text narrow).filter _).map _
  rw [hexports]
  congr 1
  apply List.filter_congr
  intro record hrecord
  obtain ⟨file, -, hexport⟩ := List.mem_flatMap.mp hrecord
  have hname : record.name ≠ [] := (name_of_mem_exportsOf hexport).1
  rw [decide_eq_decide]
  refine and_congr_right fun _ => ?_
  exact ⟨fun h => h.mono hsub.subset, fun h => h.of_narrow hname hempty⟩

end Narrower

/-- What a smaller corpus leaves of the findings are findings of the smaller corpus too, in
the same order. When all files that are left out cannot be read or have no text, the findings
are the same. -/
theorem findings_of_narrower_corpus
    (fs : FileSystem) (isExempt : Text → Bool) {narrow wide : List Path}
    (hwide : KeysDistinct wide) (hsub : narrow.Sublist wide) :
    ((checkCorpus fs isExempt wide).result.findings.filter
        fun finding => finding.file ∈ narrow).Sublist
      (checkCorpus fs isExempt narrow).result.findings ∧
    ((∀ path ∈ wide, path ∉ narrow →
        (∃ cause, fs.read path = .error cause) ∨
          ∃ content, fs.read path = .ok content ∧ Utf8.decodeDropping content = []) →
      (checkCorpus fs isExempt wide).result.findings =
        (checkCorpus fs isExempt narrow).result.findings) := by
  have hnarrow : KeysDistinct narrow := List.Nodup.sublist (hsub.map Path.key) hwide
  rw [checkCorpus_result hwide, checkCorpus_result hnarrow]
  refine ⟨filter_unusedExports_sublist hwide.nodup hsub, ?_⟩
  intro hempty
  apply unusedExports_eq_of_empty hwide.nodup hsub
  intro path hpath hmissing
  rw [FileSystem.sourceText]
  rcases hempty path hpath hmissing with ⟨cause, hread⟩ | ⟨content, hread, htext⟩
  · rw [hread]
  · rw [hread]
    exact htext

/-- The empty source and one that does not exist can be left out. -/
theorem findings_of_narrower_corpus_greekTree :
    let sources := ["a.ts", "b.ts", "c.ts"].map Bytes.ofString
    let others := ["d.ts", "e.ts"].map Bytes.ofString
    KeysDistinct (sources ++ others) ∧ sources.Sublist (sources ++ others) ∧
      (checkCorpus greekTree (fun _ => false) (sources ++ others)).result.findings =
        (checkCorpus greekTree (fun _ => false) sources).result.findings := by
  intro sources others
  have hkeys : KeysDistinct (sources ++ others) := by decide
  have hsub : sources.Sublist (sources ++ others) := List.sublist_append_left _ _
  refine ⟨hkeys, hsub, (findings_of_narrower_corpus greekTree _ hkeys hsub).2 ?_⟩
  intro path hpath hmissing
  have hother : path ∈ others := (List.mem_append.mp hpath).resolve_left hmissing
  rcases List.mem_pair.mp hother with rfl | rfl
  · exact .inr ⟨[], rfl, rfl⟩
  · exact .inl ⟨.notFound, rfl⟩

/-! ## Narrower scans -/

theorem discover_paths_sublist (fs : FileSystem) (root : Path) (respectIgnoreFiles : Bool) :
    (discover fs root respectIgnoreFiles).paths.Sublist (discover fs root false).paths := by
  rw [discover, discover]
  split
  · exact List.Sublist.refl _
  cases fs.lookupEntry root with
  | error cause => exact List.Sublist.refl _
  | ok entry =>
      cases fs.lookup root with
      | error cause => exact List.Sublist.refl _
      | ok node =>
          cases node with
          | file content => exact List.Sublist.refl _
          | link target => exact List.Sublist.refl _
          | directory entries =>
              exact discoverBelow_paths_sublist fs root respectIgnoreFiles entries

theorem findSources_paths_sublist
    (fs : FileSystem) {narrow wide : SourceQuery} (hroot : narrow.root = wide.root)
    (hsuffixes : narrow.suffixes ⊆ wide.suffixes)
    (hignore : wide.respectIgnoreFiles = true → narrow.respectIgnoreFiles = true) :
    (findSources fs narrow).paths.Sublist (findSources fs wide).paths := by
  have hdiscover : (discover fs narrow.root narrow.respectIgnoreFiles).paths.Sublist
      (discover fs wide.root wide.respectIgnoreFiles).paths := by
    rw [hroot]
    cases hwide : wide.respectIgnoreFiles with
    | false => exact discover_paths_sublist fs wide.root _
    | true => rw [hignore hwide]
  rw [findSources_paths, findSources_paths]
  refine (hdiscover.filter _).trans (List.monotone_filter_right _ ?_)
  intro path
  rw [Bool.and_eq_true, Bool.and_eq_true, hasSuffix_iff, hasSuffix_iff]
  rintro ⟨hfile, name, hname, suffix, hsuffix, hend⟩
  exact ⟨hfile, name, hname, suffix, hsuffixes hsuffix, hend⟩

/-- Narrowing a scan hides no unused export of a file that is still listed. -/
theorem findings_of_narrower_scan
    {fs : FileSystem} {narrow wide : Config} (hroot : narrow.root = wide.root)
    (hsuffixes : narrow.suffixes ⊆ wide.suffixes)
    (hignore : wide.gitignore = true → narrow.gitignore = true)
    (hexempt : narrow.exempt = wide.exempt) :
    ((CheckResult.specified fs wide).findings.filter
        fun finding => finding.file ∈ (findSources fs narrow.query).paths).Sublist
      (CheckResult.specified fs narrow).findings := by
  have hsub : (findSources fs narrow.query).paths.Sublist (findSources fs wide.query).paths :=
    findSources_paths_sublist fs hroot hsuffixes hignore
  have hwide : KeysDistinct (findSources fs wide.query).paths :=
    findSources_keys_nodup fs wide.query
  rw [CheckResult.findings_specified, CheckResult.findings_specified, hexempt]
  exact filter_unusedExports_sublist hwide.nodup hsub

end DeadExports
