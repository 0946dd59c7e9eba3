import DeadExports.Check
import Mathlib.Algebra.GroupWithZero.Nat
import Mathlib.Data.List.ReduceOption

/-!
# The tasks of a check

A check is made of two families of tasks: one extraction for every file, and one usage
test for every export. Either kind of task only computes between its requests for
source texts, so a task is a tree that branches at the text it is given. The tree does
not say where the texts come from, and three readings of it are used. `Task.result`
takes every text from one fixed assignment; `Task.perform` asks a cache, request by
request; and tasks may be taken apart at their requests and interleaved.

The two phases of a check are their tasks performed one after another. What the tasks
come to for fixed texts is `CheckResult.ofTexts`, one pass over the files in order which
keeps every export that is neither exempt nor mentioned in another file.
-/

namespace DeadExports

/-! ## Tasks -/

/-- A computation that asks for source texts, one at a time. -/
inductive Task (α : Type) where
  | done (result : α)
  | ask (path : Path) (resume : Text → Task α)

structure Performed (α : Type) where
  result : α
  cache : SourceCache
  failures : List UnreadableSource

namespace Task

variable {α β : Type}

def map (f : α → β) : Task α → Task β
  | done result => done (f result)
  | ask path resume => ask path fun text => (resume text).map f

def result (text : Path → Text) : Task α → α
  | done result => result
  | ask path resume => (resume (text path)).result text

/-- A task that asks for no files but those of a corpus. -/
def Within (corpus : List Path) : Task α → Prop
  | done _ => True
  | ask path resume => path ∈ corpus ∧ ∀ text, (resume text).Within corpus

/-- Performs a task, every request being answered through the cache. -/
def perform (fs : FileSystem) : SourceCache → Task α → Performed α
  | cache, done result => ⟨result, cache, []⟩
  | cache, ask path resume =>
      let answer := cache.text fs path
      let rest := (resume answer.text).perform fs answer.cache
      { rest with failures := answer.failures ++ rest.failures }

def performAll (fs : FileSystem) : SourceCache → List (Task α) → Performed (List α)
  | cache, [] => ⟨[], cache, []⟩
  | cache, task :: tasks =>
      let first := task.perform fs cache
      let rest := performAll fs first.cache tasks
      ⟨first.result :: rest.result, rest.cache, first.failures ++ rest.failures⟩

theorem result_map (f : α → β) (text : Path → Text) (task : Task α) :
    (task.map f).result text = f (task.result text) := by
  induction task with
  | done result => rfl
  | ask path resume ih => exact ih (text path)

theorem Within.map
    {corpus : List Path} {task : Task α} (h : task.Within corpus) (f : α → β) :
    (task.map f).Within corpus := by
  induction task with
  | done result => trivial
  | ask path resume ih => exact ⟨h.1, fun text => ih text (h.2 text)⟩

theorem perform_map (f : α → β) (fs : FileSystem) (cache : SourceCache) (task : Task α) :
    (task.map f).perform fs cache =
      ⟨f (task.perform fs cache).result, (task.perform fs cache).cache,
        (task.perform fs cache).failures⟩ := by
  induction task generalizing cache with
  | done result => rfl
  | ask path resume ih =>
      rw [Task.map, perform, perform]
      dsimp only
      rw [ih]

end Task

def extraction (file : Path) : Task (List ExportRecord) :=
  .ask file fun text => .done (exportsOf file text)

/-- Searches files, other than the exporting one, for a mention of an exported name. -/
def mentionSearch (record : ExportRecord) : List Path → Task Bool
  | [] => .done false
  | path :: corpus =>
      if path.same record.file then mentionSearch record corpus
      else
        .ask path fun text =>
          if occursIn record.name text then .done true else mentionSearch record corpus

def usageTest
    (isExempt : Text → Bool) (corpus : List Path) (record : ExportRecord) :
    Task (Option Finding) :=
  if isExempt record.name then .done none
  else
    (mentionSearch record corpus).map fun found =>
      if found then none else some ⟨record.name, record.file⟩

/-! ## The phases of a check -/

theorem searchMention_eq_perform
    (fs : FileSystem) (record : ExportRecord) (cache : SourceCache) (corpus : List Path) :
    searchMention fs record cache corpus =
      ⟨((mentionSearch record corpus).perform fs cache).result,
        ((mentionSearch record corpus).perform fs cache).cache,
        ((mentionSearch record corpus).perform fs cache).failures⟩ := by
  induction corpus generalizing cache with
  | nil => rfl
  | cons path corpus ih =>
      rw [searchMention, mentionSearch]
      by_cases hsame : path.same record.file = true
      · rw [if_pos hsame, if_pos hsame]
        exact ih cache
      · rw [if_neg hsame, if_neg hsame, Task.perform]
        dsimp only
        by_cases hoccurs : occursIn record.name (cache.text fs path).text = true
        · rw [if_pos hoccurs, if_pos hoccurs]
          simp [Task.perform]
        · rw [if_neg hoccurs, if_neg hoccurs, ih]

theorem extractAll_eq_performAll
    (fs : FileSystem) (cache : SourceCache) (files : List Path) :
    extractAll fs cache files =
      ⟨(Task.performAll fs cache (files.map extraction)).result.flatten,
        (Task.performAll fs cache (files.map extraction)).cache,
        (Task.performAll fs cache (files.map extraction)).failures⟩ := by
  induction files generalizing cache with
  | nil => rfl
  | cons file files ih =>
      rw [extractAll, List.map_cons, Task.performAll]
      dsimp only
      rw [ih]
      simp [extraction, Task.perform]

theorem siftUnused_eq_performAll
    (fs : FileSystem) (isExempt : Text → Bool) (corpus : List Path)
    (cache : SourceCache) (records : List ExportRecord) :
    siftUnused fs isExempt corpus cache records =
      ⟨(Task.performAll fs cache (records.map (usageTest isExempt corpus))).result.reduceOption,
        (Task.performAll fs cache (records.map (usageTest isExempt corpus))).cache,
        (Task.performAll fs cache (records.map (usageTest isExempt corpus))).failures⟩ := by
  induction records generalizing cache with
  | nil => rfl
  | cons record records ih =>
      rw [siftUnused, List.map_cons, Task.performAll, usageTest]
      by_cases hexempt : isExempt record.name = true
      · rw [if_pos hexempt, if_pos hexempt, ih]
        simp [Task.perform]
      · rw [if_neg hexempt, if_neg hexempt, Task.perform_map, searchMention_eq_perform]
        dsimp only
        rw [ih]
        cases ((mentionSearch record corpus).perform fs cache).result <;> simp

/-! ## The plain pass -/

/-- No file of a corpus mentions a name, other than the file that exports it. -/
def Unmentioned (text : Path → Text) (corpus : List Path) (name : Text) (file : Path) : Prop :=
  ∀ other ∈ corpus, other.key ≠ file.key → ¬name <:+: text other

instance (text : Path → Text) (corpus : List Path) (name : Text) (file : Path) :
    Decidable (Unmentioned text corpus name file) :=
  decidable_of_iff
    (∀ other ∈ corpus, other.key ≠ file.key → ¬occursIn name (text other) = true)
    (by simp only [Unmentioned, occursIn_iff])

/-- The exports of a corpus that are neither exempt nor mentioned in another file,
file by file and in the order in which they are exported. -/
def unusedExports
    (text : Path → Text) (isExempt : Text → Bool) (corpus : List Path) : List Finding :=
  corpus.flatMap fun file =>
    ((exportsOf file (text file)).filter fun record =>
      isExempt record.name = false ∧ Unmentioned text corpus record.name file).map fun record =>
        ⟨record.name, file⟩

/-- What a check of a corpus comes to when the texts are given. -/
def CheckResult.ofTexts
    (text : Path → Text) (isExempt : Text → Bool) (corpus : List Path) : CheckResult where
  findings := unusedExports text isExempt corpus
  filesScanned := corpus.length
  exportsFound := (corpus.map fun file => (exportsOf file (text file)).length).sum

theorem file_of_mem_exportsOf
    {file : Path} {text : Text} {record : ExportRecord} (h : record ∈ exportsOf file text) :
    record.file = file := by
  rw [exportsOf, List.mem_append] at h
  rcases h with h | h
  · obtain ⟨name, -, rfl⟩ := List.mem_map.mp h
    rfl
  · obtain ⟨name, -, rfl⟩ := List.mem_map.mp h
    rfl

/-- The plain pass as a filter on the exports of all files. -/
theorem unusedExports_eq_filter
    (text : Path → Text) (isExempt : Text → Bool) (corpus : List Path) :
    unusedExports text isExempt corpus =
      ((corpus.flatMap fun file => exportsOf file (text file)).filter fun record =>
        isExempt record.name = false ∧
          Unmentioned text corpus record.name record.file).map fun record =>
            ⟨record.name, record.file⟩ := by
  rw [unusedExports, List.filter_flatMap, List.map_flatMap]
  congr 1
  funext file
  have hfilter :
      ((exportsOf file (text file)).filter fun record =>
        isExempt record.name = false ∧ Unmentioned text corpus record.name file) =
      (exportsOf file (text file)).filter fun record =>
        isExempt record.name = false ∧ Unmentioned text corpus record.name record.file := by
    apply List.filter_congr
    intro record hrecord
    rw [file_of_mem_exportsOf hrecord]
  rw [hfilter]
  apply List.map_congr_left
  intro record hrecord
  rw [file_of_mem_exportsOf (List.mem_of_mem_filter hrecord)]

/-! ## What the tasks come to -/

theorem extractions_within (corpus : List Path) :
    ∀ task ∈ corpus.map extraction, task.Within corpus := by
  intro task htask
  obtain ⟨file, hfile, rfl⟩ := List.mem_map.mp htask
  exact ⟨hfile, fun _ => trivial⟩

theorem mentionSearch_within
    (record : ExportRecord) {corpus todo : List Path} (h : ∀ path ∈ todo, path ∈ corpus) :
    (mentionSearch record todo).Within corpus := by
  induction todo with
  | nil => trivial
  | cons path todo ih =>
      have hrest := ih fun other hother => h other (List.mem_cons_of_mem _ hother)
      rw [mentionSearch]
      split
      · exact hrest
      · refine ⟨h path List.mem_cons_self, fun text => ?_⟩
        dsimp only
        split
        · trivial
        · exact hrest

theorem usageTests_within
    (isExempt : Text → Bool) (corpus : List Path) (records : List ExportRecord) :
    ∀ task ∈ records.map (usageTest isExempt corpus), task.Within corpus := by
  intro task htask
  obtain ⟨record, -, rfl⟩ := List.mem_map.mp htask
  rw [usageTest]
  split
  · trivial
  · exact (mentionSearch_within record fun _ hpath => hpath).map _

theorem mentionSearch_result_iff
    (text : Path → Text) (record : ExportRecord) (todo : List Path) :
    (mentionSearch record todo).result text = true ↔
      ¬Unmentioned text todo record.name record.file := by
  induction todo with
  | nil => simp [mentionSearch, Task.result, Unmentioned]
  | cons path todo ih =>
      rw [mentionSearch]
      by_cases hsame : path.same record.file = true
      · have hkey : path.key = record.file.key := by
          simpa [Path.same] using hsame
        rw [if_pos hsame, ih, Unmentioned, Unmentioned, List.forall_mem_cons]
        simp [hkey]
      · have hkey : path.key ≠ record.file.key := by
          simpa [Path.same] using hsame
        rw [if_neg hsame, Task.result]
        by_cases hoccurs : occursIn record.name (text path) = true
        · rw [if_pos hoccurs]
          simp [Task.result, Unmentioned, hkey, occursIn_iff.mp hoccurs]
        · rw [if_neg hoccurs, ih, Unmentioned, Unmentioned, List.forall_mem_cons]
          rw [occursIn_iff] at hoccurs
          simp [hoccurs]

theorem usageTest_result
    (text : Path → Text) (isExempt : Text → Bool) (corpus : List Path) (record : ExportRecord) :
    (usageTest isExempt corpus record).result text =
      if isExempt record.name = false ∧ Unmentioned text corpus record.name record.file then
        some ⟨record.name, record.file⟩
      else none := by
  rw [usageTest]
  by_cases hexempt : isExempt record.name = true
  · rw [if_pos hexempt, if_neg (by simp [hexempt])]
    rfl
  · rw [if_neg hexempt, Task.result_map]
    rw [Bool.not_eq_true] at hexempt
    by_cases hunused : Unmentioned text corpus record.name record.file
    · have hnot : ¬(mentionSearch record corpus).result text = true :=
        fun hfound => (mentionSearch_result_iff text record corpus).mp hfound hunused
      rw [if_neg hnot, if_pos ⟨hexempt, hunused⟩]
    · rw [if_pos ((mentionSearch_result_iff text record corpus).mpr hunused),
        if_neg (fun h => hunused h.2)]

theorem reduceOption_usageTest
    (text : Path → Text) (isExempt : Text → Bool) (corpus : List Path)
    (records : List ExportRecord) :
    (records.map fun record => (usageTest isExempt corpus record).result text).reduceOption =
      (records.filter fun record =>
        isExempt record.name = false ∧
          Unmentioned text corpus record.name record.file).map fun record =>
            ⟨record.name, record.file⟩ := by
  induction records with
  | nil => rfl
  | cons record records ih =>
      rw [List.map_cons, usageTest_result]
      by_cases hkept :
          isExempt record.name = false ∧ Unmentioned text corpus record.name record.file
      · rw [if_pos hkept, List.reduceOption_cons_of_some, ih,
          List.filter_cons_of_pos (by simpa using hkept), List.map_cons]
      · rw [if_neg hkept, List.reduceOption_cons_of_none, ih,
          List.filter_cons_of_neg (by simpa using hkept)]

/-- For given texts, extracting from every file and testing every export is the plain
pass. -/
theorem CheckResult.ofTexts_eq
    (text : Path → Text) (isExempt : Text → Bool) (corpus : List Path)
    {records : List ExportRecord}
    (h : records = (corpus.map fun file => (extraction file).result text).flatten) :
    CheckResult.ofTexts text isExempt corpus =
      ⟨(records.map fun record => (usageTest isExempt corpus record).result text).reduceOption,
        corpus.length, records.length⟩ := by
  have hrecords : records = corpus.flatMap fun file => exportsOf file (text file) := by
    rw [h, List.flatMap_def]
    rfl
  rw [CheckResult.ofTexts, reduceOption_usageTest, unusedExports_eq_filter, hrecords,
    List.length_flatMap]

end DeadExports
