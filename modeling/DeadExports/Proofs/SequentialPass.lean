import DeadExports.Proofs.SourceListing
import DeadExports.Proofs.Tasks

/-!
# The check without its cache

While the file tree stays as it is, the cache that the two phases of a check share is
harmless, because different files of a corpus have different keys. An entry that holds
the text of one file can then never be asked for on behalf of another, and
`SourceCache.Agrees` is kept by every request. Every task that stays within the corpus
therefore comes to what it comes to for the texts of the tree, and the check of a whole
configuration is the plain pass over the files that a scan lists.
-/

namespace DeadExports

/-- The text of a file; empty if the file cannot be read. -/
def FileSystem.sourceText (fs : FileSystem) (path : Path) : Text :=
  match fs.read path with
  | .ok content => Utf8.decodeDropping content
  | .error _ => []

theorem loaded_readText (fs : FileSystem) (path : Path) :
    loaded (fs.readText path) = fs.sourceText path := by
  simp only [FileSystem.readText, FileSystem.sourceText, bind, Except.bind]
  cases fs.read path <;> rfl

/-- A list of paths in which no path occurs twice, whatever the spelling. -/
def KeysDistinct (corpus : List Path) : Prop :=
  (corpus.map Path.key).Nodup

instance (corpus : List Path) : Decidable (KeysDistinct corpus) :=
  inferInstanceAs (Decidable (corpus.map Path.key).Nodup)

theorem KeysDistinct.nodup {corpus : List Path} (h : KeysDistinct corpus) : corpus.Nodup :=
  List.Nodup.of_map Path.key h

theorem KeysDistinct.eq_of_key_eq
    {corpus : List Path} (h : KeysDistinct corpus) {path other : Path}
    (hpath : path ∈ corpus) (hother : other ∈ corpus) (hkey : path.key = other.key) :
    path = other :=
  List.inj_on_of_nodup_map h hpath hother hkey

/-! ## The cache -/

/-- What a cache remembers for the files of a corpus is their text. -/
def SourceCache.Agrees (cache : SourceCache) (text : Path → Text) (corpus : List Path) : Prop :=
  ∀ path ∈ corpus, ∀ remembered, cache.find? path = some remembered → remembered = text path

theorem SourceCache.agrees_empty (text : Path → Text) (corpus : List Path) :
    SourceCache.empty.Agrees text corpus := by
  intro path _ remembered h
  simp [find?, empty] at h

theorem SourceCache.Agrees.insert
    {cache : SourceCache} {text : Path → Text} {corpus : List Path}
    (h : cache.Agrees text corpus) (hkeys : KeysDistinct corpus)
    {path : Path} (hpath : path ∈ corpus) :
    (cache.insert path (text path)).Agrees text corpus := by
  intro other hother remembered hfind
  by_cases hkey : other.key = path.key
  · rw [find?_insert_of_key_eq _ _ hkey, Option.some.injEq] at hfind
    rw [hkeys.eq_of_key_eq hother hpath hkey, hfind]
  · rw [find?_insert_of_key_ne _ _ hkey] at hfind
    exact h other hother remembered hfind

section Unchanging

variable {α : Type} {fs : FileSystem} {corpus : List Path} (hkeys : KeysDistinct corpus)
  {cache : SourceCache}

include hkeys

theorem SourceCache.Agrees.text
    (h : cache.Agrees fs.sourceText corpus) {path : Path} (hpath : path ∈ corpus) :
    (cache.text fs path).text = fs.sourceText path ∧
      (cache.text fs path).cache.Agrees fs.sourceText corpus := by
  rw [SourceCache.text]
  cases hfind : cache.find? path with
  | some remembered => exact ⟨h path hpath remembered hfind, h⟩
  | none =>
      dsimp only
      rw [loaded_readText]
      exact ⟨rfl, h.insert hkeys hpath⟩

/-- A task within the corpus comes to what it comes to for the texts of the tree. -/
theorem SourceCache.Agrees.perform
    (h : cache.Agrees fs.sourceText corpus) {task : Task α} (htask : task.Within corpus) :
    (task.perform fs cache).result = task.result fs.sourceText ∧
      (task.perform fs cache).cache.Agrees fs.sourceText corpus := by
  induction task generalizing cache with
  | done result => exact ⟨rfl, h⟩
  | ask path resume ih =>
      obtain ⟨htext, hcache⟩ := h.text hkeys htask.1
      rw [Task.perform, Task.result, ← htext]
      exact ih _ hcache (htask.2 _)

theorem SourceCache.Agrees.performAll
    (h : cache.Agrees fs.sourceText corpus)
    {tasks : List (Task α)} (htasks : ∀ task ∈ tasks, task.Within corpus) :
    (Task.performAll fs cache tasks).result = tasks.map (·.result fs.sourceText) ∧
      (Task.performAll fs cache tasks).cache.Agrees fs.sourceText corpus := by
  induction tasks generalizing cache with
  | nil => exact ⟨rfl, h⟩
  | cons task tasks ih =>
      obtain ⟨hfirst, hcache⟩ := h.perform hkeys (htasks task List.mem_cons_self)
      obtain ⟨hrest, hagrees⟩ :=
        ih hcache fun other hother => htasks other (List.mem_cons_of_mem _ hother)
      rw [Task.performAll, List.map_cons]
      dsimp only
      rw [hfirst, hrest]
      exact ⟨rfl, hagrees⟩

/-- On an unchanging tree, checking a corpus is the plain pass over it. -/
theorem checkCorpus_result (isExempt : Text → Bool) :
    (checkCorpus fs isExempt corpus).result =
      CheckResult.ofTexts fs.sourceText isExempt corpus := by
  obtain ⟨hextracted, hagrees⟩ :=
    (SourceCache.agrees_empty fs.sourceText corpus).performAll hkeys
      (extractions_within corpus)
  rw [checkCorpus]
  dsimp only
  rw [extractAll_eq_performAll, siftUnused_eq_performAll]
  dsimp only
  rw [(hagrees.performAll hkeys (usageTests_within isExempt corpus _)).1, hextracted,
    List.map_map, List.map_map]
  exact (CheckResult.ofTexts_eq fs.sourceText isExempt corpus rfl).symm

end Unchanging

/-! ## The check of a configuration -/

theorem Config.isExempt_eq (config : Config) :
    config.isExempt = fun name => decide (name ∈ config.exempt) := by
  funext name
  simp [isExempt]

/-- What a check of a resolved configuration is to come to. -/
def CheckResult.specified (fs : FileSystem) (config : Config) : CheckResult :=
  CheckResult.ofTexts fs.sourceText (fun name => decide (name ∈ config.exempt))
    (findSources fs config.query).paths

/-- A check fails exactly when its configuration cannot be resolved, with the same
failure, and otherwise comes to the plain pass over the files that a scan with the
resolved configuration lists. -/
theorem runCheck_result (fs : FileSystem) (config : Config) :
    (runCheck fs config).map CheckRun.result =
      (config.resolve fs).map (CheckResult.specified fs) := by
  rw [runCheck]
  cases hresolve : config.resolve fs with
  | error failure => rfl
  | ok resolved =>
      have hresult :
          (checkCorpus fs resolved.isExempt (findSources fs resolved.query).paths).result =
            CheckResult.specified fs resolved := by
        rw [Config.isExempt_eq]
        exact checkCorpus_result (findSources_keys_nodup fs resolved.query) _
      dsimp only
      split
      next hempty =>
        rw [List.isEmpty_iff] at hempty
        simp [Except.map, CheckResult.specified, hempty, CheckResult.ofTexts, CheckResult.empty,
          unusedExports]
      next => simp only [Except.map, hresult]

/-- A tree of two sources, one of which its readers may not open. -/
def sealedTree : FileSystem where
  top :=
    .cons (Bytes.ofString "a.ts") (.file (.ok (Bytes.ofString "export const Open = Sealed")))
      (.cons (Bytes.ofString "b.ts") (.file (.error .permissionDenied)) .nil)
  current := []
  wellFormed := by decide

/-- The source that cannot be read counts as scanned and mentions nothing. -/
example :
    (runCheck sealedTree (.ofOptions { Options.default with root := Path.here })).toOption =
      some
        ⟨⟨[⟨"Open".toList, Bytes.ofString "./a.ts"⟩], 2, 1⟩,
          [.unreadableSource ⟨Bytes.ofString "./b.ts", .unreadable .permissionDenied⟩]⟩ := by
  decide +kernel

end DeadExports
