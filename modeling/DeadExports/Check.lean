import DeadExports.Config
import DeadExports.Export.Basic
import DeadExports.Source.Cache
import DeadExports.Sources

/-!
# The check

A check resolves its configuration, lists the source files, extracts the exports
of every file, and then tests each export that is not exempt for a mention in
another file. All texts come from one cache: the extraction fills it and the tests
read it, so every file is decoded once.

An export counts as used when its name occurs anywhere in another file of the
corpus. This is a plain search for a block of characters: `Item` is used where
`ItemList` is mentioned. The files are visited in order and the search stops at
the first hit, so later files are not loaded on its account.
-/

namespace DeadExports

/-- An exported name that no other file mentions. -/
structure Finding where
  name : Text
  file : Path
  deriving DecidableEq, Repr

structure CheckResult where
  findings : List Finding
  filesScanned : Nat
  exportsFound : Nat
  deriving DecidableEq, Repr

def CheckResult.empty : CheckResult := ⟨[], 0, 0⟩

inductive Warning where
  | unreadableEntry (root : Path) (problem : WalkProblem)
  | unreadableSource (failure : UnreadableSource)
  | noSources (root : Path)
  deriving DecidableEq, Repr

def Warning.message : Warning → String
  | .unreadableEntry root problem =>
      let root := root.shown
      let problem := problem.message
      s!"Skipping unreadable entry under {root}: {problem}"
  | .unreadableSource failure => failure.message
  | .noSources root =>
      let root := root.shown
      s!"No source files found under {root}"

/-! ## Mentions -/

structure MentionSearch where
  found : Bool
  cache : SourceCache
  failures : List UnreadableSource

/-- Searches the files of a corpus, other than the exporting one, for a mention
of an exported name. -/
def searchMention
    (fs : FileSystem) (record : ExportRecord) :
    SourceCache → List Path → MentionSearch
  | cache, [] => ⟨false, cache, []⟩
  | cache, path :: corpus =>
      if path.same record.file then searchMention fs record cache corpus
      else
        let answer := cache.text fs path
        if occursIn record.name answer.text then ⟨true, answer.cache, answer.failures⟩
        else
          let search := searchMention fs record answer.cache corpus
          { search with failures := answer.failures ++ search.failures }

/-! ## Exports and findings -/

structure Extraction where
  records : List ExportRecord
  cache : SourceCache
  failures : List UnreadableSource

def extractAll (fs : FileSystem) : SourceCache → List Path → Extraction
  | cache, [] => ⟨[], cache, []⟩
  | cache, path :: paths =>
      let answer := cache.text fs path
      let rest := extractAll fs answer.cache paths
      ⟨exportsOf path answer.text ++ rest.records, rest.cache, answer.failures ++ rest.failures⟩

structure Sifting where
  findings : List Finding
  cache : SourceCache
  failures : List UnreadableSource

/-- Keeps the exports that are neither exempt nor mentioned in another file. -/
def siftUnused
    (fs : FileSystem) (isExempt : Text → Bool) (corpus : List Path) :
    SourceCache → List ExportRecord → Sifting
  | cache, [] => ⟨[], cache, []⟩
  | cache, record :: records =>
      if isExempt record.name then siftUnused fs isExempt corpus cache records
      else
        let search := searchMention fs record cache corpus
        let rest := siftUnused fs isExempt corpus search.cache records
        { rest with
          findings :=
            if search.found then rest.findings
            else ⟨record.name, record.file⟩ :: rest.findings
          failures := search.failures ++ rest.failures }

structure CheckRun where
  result : CheckResult
  warnings : List Warning
  deriving DecidableEq, Repr

def checkCorpus (fs : FileSystem) (isExempt : Text → Bool) (corpus : List Path) : CheckRun :=
  let extraction := extractAll fs .empty corpus
  let sifting := siftUnused fs isExempt corpus extraction.cache extraction.records
  ⟨⟨sifting.findings, corpus.length, extraction.records.length⟩,
    (extraction.failures ++ sifting.failures).map .unreadableSource⟩

def Config.query (config : Config) : SourceQuery :=
  ⟨config.root, config.suffixes, config.gitignore⟩

def runCheck (fs : FileSystem) (config : Config) : Except Settings.Failure CheckRun :=
  match config.resolve fs with
  | .error failure => .error failure
  | .ok config =>
      let discovery := findSources fs config.query
      let warnings := discovery.problems.map (.unreadableEntry config.root)
      if discovery.paths.isEmpty then
        .ok ⟨.empty, warnings ++ [.noSources config.root]⟩
      else
        let run := checkCorpus fs config.isExempt discovery.paths
        .ok { run with warnings := warnings ++ run.warnings }

end DeadExports
