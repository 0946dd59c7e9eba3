import DeadExports.Proofs.Schedules
import Mathlib.Logic.Function.Basic

/-!
# Interleaved checks

Two tasks that ask for one file could both miss it, read different texts and overwrite
each other's entry in the cache. This does not happen in a check. Every file is asked
for by one extraction only, no test starts before all extractions are done, and from
then on every lookup succeeds.

`Stage` records how far the extraction of each file has come; it determines the tasks,
the cache and what was read, and `CheckState.Faithful` says so of a whole state. Whatever
the schedule and whatever happens to the files meanwhile, the texts that were read form
one snapshot, and the check comes to the plain pass over it.
-/

namespace DeadExports

/-! ## Extractions -/

/-- How far the extraction of one file has come. -/
inductive Stage where
  | waiting
  | missed
  | holding (text : Text)
  | finished (text : Text)

namespace Stage

/-- The extraction of a file at a stage. -/
def progress (file : Path) : Stage → Progress (List ExportRecord)
  | waiting => .ready (extraction file)
  | missed => .missed file fun text => .done (exportsOf file text)
  | holding text => .holding file text fun text => .done (exportsOf file text)
  | finished text => .ready (.done (exportsOf file text))

def remembered : Stage → Option Text
  | finished text => some text
  | _ => none

def reads : Stage → List Text
  | holding text => [text]
  | finished text => [text]
  | _ => []

def answers : Stage → List Text
  | finished text => [text]
  | _ => []

end Stage

/-- A step of one extraction: its file passes to another stage, the cache changes for
no other path, and all events are about the file. -/
structure Stage.Passes
    (file : Path) (cache : SourceCache) (before after : Stage)
    (next : Advance (List ExportRecord)) : Prop where
  progress_eq : next.progress = after.progress file
  remembered_eq : next.cache.find? file = after.remembered
  frame : ∀ other, other.key ≠ file.key → next.cache.find? other = cache.find? other
  reads_eq : before.reads ++ readsOf file next.events = after.reads
  answers_eq : before.answers ++ answersOf file next.events = after.answers
  quiet : ∀ other, other ≠ file →
    readsOf other next.events = [] ∧ answersOf other next.events = []

/-- What one step of an extraction does, as long as the cache is right about its file. -/
theorem Stage.exists_passes
    {tree : FileSystem} {cache : SourceCache} {file : Path} {before : Stage}
    {next : Advance (List ExportRecord)}
    (hcache : cache.find? file = before.remembered)
    (h : (before.progress file).advance tree cache = some next) :
    (∀ text, before ≠ .finished text) ∧ ∃ after, before.Passes file cache after next := by
  have hpending : ∀ text, before ≠ .finished text := by
    rintro text rfl
    cases h
  refine ⟨hpending, ?_⟩
  cases before with
  | waiting =>
      simp only [Stage.progress, extraction, Progress.advance, hcache, Stage.remembered,
        Option.some.injEq] at h
      subst h
      exact ⟨.missed, rfl, hcache, fun _ _ => rfl, rfl, rfl, fun _ _ => ⟨rfl, rfl⟩⟩
  | missed =>
      simp only [Stage.progress, Progress.advance, Option.some.injEq] at h
      subst h
      refine ⟨.holding (loaded (tree.readText file)), rfl, hcache, fun _ _ => rfl,
        by simp [Stage.reads, readsOf], rfl, fun other hother => ?_⟩
      simp [readsOf, answersOf, hother.symm]
  | holding text =>
      simp only [Stage.progress, Progress.advance, Option.some.injEq] at h
      subst h
      refine ⟨.finished text, rfl, SourceCache.find?_insert_of_key_eq _ _ rfl,
        fun _ hkey => SourceCache.find?_insert_of_key_ne _ _ hkey, rfl,
        by simp [Stage.answers, answersOf], fun other hother => ?_⟩
      simp [readsOf, answersOf, hother.symm]
  | finished text => exact absurd rfl (hpending text)

theorem readsOf_append (file : Path) (log events : List Event) :
    readsOf file (log ++ events) = readsOf file log ++ readsOf file events :=
  List.filterMap_append

theorem answersOf_append (file : Path) (log events : List Event) :
    answersOf file (log ++ events) = answersOf file log ++ answersOf file events :=
  List.filterMap_append

/-- The extractions of a corpus and the cache are as the stages of the files say. -/
structure Extracting
    (corpus : List Path) (stage : Path → Stage)
    (cache : SourceCache) (crew : Crew (List ExportRecord)) : Prop where
  outside : ∀ file ∉ corpus, stage file = .waiting
  tasks_eq : crew.tasks = corpus.map fun file => (stage file).progress file
  remembered : ∀ file ∈ corpus, cache.find? file = (stage file).remembered
  reads : ∀ file, readsOf file crew.log = (stage file).reads
  answers : ∀ file, answersOf file crew.log = (stage file).answers

theorem Extracting.initial (corpus : List Path) :
    Extracting corpus (fun _ => .waiting) .empty (.fresh (corpus.map extraction)) where
  outside _ _ := rfl
  tasks_eq := by
    simp [Crew.fresh, Stage.progress]
  remembered _ _ := rfl
  reads _ := rfl
  answers _ := rfl

theorem map_update_stage
    {corpus : List Path} (hnodup : corpus.Nodup) (stage : Path → Stage) (after : Stage)
    {position : Nat} {file : Path} (h : corpus[position]? = some file) :
    (corpus.map fun other => (Function.update stage file after other).progress other) =
      (corpus.map fun other => (stage other).progress other).set position
        (after.progress file) := by
  apply List.ext_getElem?
  intro index
  rw [List.getElem?_set, List.getElem?_map, List.getElem?_map, List.length_map]
  obtain ⟨hposition, rfl⟩ := List.getElem?_eq_some_iff.mp h
  by_cases hindex : position = index
  · subst hindex
    rw [if_pos rfl, if_pos hposition, h, Option.map_some, Function.update_self]
  · rw [if_neg hindex]
    apply Option.map_congr
    intro other hother
    have hne : other ≠ corpus[position] := by
      rintro rfl
      exact hindex (hnodup.getElem_inj_iff.mp
        (List.getElem?_eq_some_iff.mp hother).choose_spec).symm
    rw [Function.update_of_ne hne]

/-- An extraction that takes a step moves the stage of its file on. -/
theorem Extracting.step
    {corpus : List Path} (hkeys : KeysDistinct corpus) {stage : Path → Stage}
    {tree : FileSystem} {cache cache' : SourceCache} {crew crew' : Crew (List ExportRecord)}
    {position : Nat}
    (h : Extracting corpus stage cache crew)
    (hstep : crew.step tree cache position = some (cache', crew')) :
    (∃ file ∈ corpus, ∀ text, stage file ≠ .finished text) ∧
      ∃ stage', Extracting corpus stage' cache' crew' := by
  rw [Crew.step, h.tasks_eq, List.getElem?_map] at hstep
  cases hfile : corpus[position]? with
  | none => simp [hfile] at hstep
  | some file =>
      have hmem : file ∈ corpus := List.mem_of_getElem? hfile
      rw [hfile] at hstep
      dsimp only [Option.map_some] at hstep
      cases hadvance : ((stage file).progress file).advance tree cache with
      | none => simp [hadvance] at hstep
      | some next =>
          obtain ⟨hpending, after, hpasses⟩ :=
            Stage.exists_passes (h.remembered file hmem) hadvance
          simp only [hadvance, Option.some.injEq, Prod.mk.injEq] at hstep
          obtain ⟨rfl, rfl⟩ := hstep
          refine ⟨⟨file, hmem, hpending⟩, Function.update stage file after, ?_, ?_, ?_, ?_, ?_⟩
          · intro other hother
            have hne : other ≠ file := fun heq => hother (heq ▸ hmem)
            rw [Function.update_of_ne hne]
            exact h.outside other hother
          · rw [map_update_stage hkeys.nodup stage after hfile, hpasses.progress_eq]
          · intro other hother
            by_cases heq : other = file
            · subst heq
              rw [Function.update_self, hpasses.remembered_eq]
            · rw [Function.update_of_ne heq, ← h.remembered other hother]
              exact hpasses.frame other
                fun hkey => heq (hkeys.eq_of_key_eq hother hmem hkey)
          · intro other
            rw [readsOf_append, h.reads other]
            by_cases heq : other = file
            · subst heq
              rw [Function.update_self, hpasses.reads_eq]
            · rw [Function.update_of_ne heq, (hpasses.quiet other heq).1, List.append_nil]
          · intro other
            rw [answersOf_append, h.answers other]
            by_cases heq : other = file
            · subst heq
              rw [Function.update_self, hpasses.answers_eq]
            · rw [Function.update_of_ne heq, (hpasses.quiet other heq).2, List.append_nil]

/-- When every file has its text, the results are the exports of these texts. -/
theorem Extracting.results?_of_finished
    {corpus : List Path} {stage : Path → Stage} {cache : SourceCache}
    {crew : Crew (List ExportRecord)} {snapshot : Path → Text}
    (h : Extracting corpus stage cache crew)
    (hfinished : ∀ file ∈ corpus, stage file = .finished (snapshot file)) :
    crew.results? = some (corpus.map fun file => exportsOf file (snapshot file)) := by
  rw [Crew.results?_eq_some_iff, h.tasks_eq, List.map_map]
  apply List.map_congr_left
  intro file hfile
  rw [hfinished file hfile]
  rfl

theorem Extracting.exists_snapshot
    {corpus : List Path} {stage : Path → Stage} {cache : SourceCache}
    {crew : Crew (List ExportRecord)} {records : List (List ExportRecord)}
    (h : Extracting corpus stage cache crew) (hresults : crew.results? = some records) :
    ∃ snapshot : Path → Text, ∀ file ∈ corpus, stage file = .finished (snapshot file) := by
  refine ⟨fun file => (stage file).remembered.getD [], fun file hfile => ?_⟩
  have hmem : (stage file).progress file ∈ crew.tasks := by
    rw [h.tasks_eq]
    exact List.mem_map_of_mem hfile
  rw [Crew.results?_eq_some_iff.mp hresults] at hmem
  obtain ⟨result, -, hdone⟩ := List.mem_map.mp hmem
  cases hstage : stage file with
  | waiting => simp [hstage, Stage.progress, extraction] at hdone
  | missed => simp [hstage, Stage.progress] at hdone
  | holding text => simp [hstage, Stage.progress] at hdone
  | finished text => simp only [hstage, Stage.remembered, Option.getD_some]

/-! ## Tests -/

/-- A crew whose tasks received nothing but the texts of a snapshot, and that comes to
fixed results as long as this goes on. -/
structure Crew.Follows
    {α : Type} (corpus : List Path) (snapshot : Path → Text) (results : List α)
    (crew : Crew α) : Prop where
  exists_tasks : ∃ tasks : List (Task α),
    crew.tasks = tasks.map .ready ∧ (∀ task ∈ tasks, task.Within corpus) ∧
      tasks.map (·.result snapshot) = results
  log_answered : ∀ event ∈ crew.log, ∃ file ∈ corpus, event = .answered file (snapshot file)

namespace Crew.Follows

variable {α : Type} {corpus : List Path} {snapshot : Path → Text} {results : List α}
  {crew : Crew α}

theorem fresh {tasks : List (Task α)} (h : ∀ task ∈ tasks, task.Within corpus) :
    (Crew.fresh tasks).Follows corpus snapshot (tasks.map (·.result snapshot)) where
  exists_tasks := ⟨tasks, rfl, h, rfl⟩
  log_answered := nofun

/-- When the cache remembers the whole snapshot, a step leaves the cache alone and the
results as they were. -/
theorem step
    {tree : FileSystem} {cache cache' : SourceCache} {crew' : Crew α} {position : Nat}
    (h : crew.Follows corpus snapshot results)
    (hcache : ∀ file ∈ corpus, cache.find? file = some (snapshot file))
    (hstep : crew.step tree cache position = some (cache', crew')) :
    cache' = cache ∧ crew'.Follows corpus snapshot results := by
  obtain ⟨tasks, htasks, hwithin, hresults⟩ := h.exists_tasks
  rw [Crew.step, htasks, List.getElem?_map] at hstep
  cases htask : tasks[position]? with
  | none => simp [htask] at hstep
  | some task =>
      cases task with
      | done result => simp [htask, Progress.advance] at hstep
      | ask path resume =>
          obtain ⟨hpath, hresume⟩ := hwithin _ (List.mem_of_getElem? htask)
          simp only [htask, Option.map_some, Progress.advance, hcache path hpath,
            Option.some.injEq, Prod.mk.injEq] at hstep
          obtain ⟨rfl, rfl⟩ := hstep
          refine ⟨rfl, ⟨tasks.set position (resume (snapshot path)), ?_, ?_, ?_⟩, ?_⟩
          · rw [List.map_set]
          · intro other hother
            rcases List.mem_or_eq_of_mem_set hother with hold | rfl
            · exact hwithin other hold
            · exact hresume _
          · have hsame : results[position]? = some ((resume (snapshot path)).result snapshot) := by
              rw [← hresults, List.getElem?_map, htask]
              rfl
            obtain ⟨hposition, heq⟩ := List.getElem?_eq_some_iff.mp hsame
            rw [List.map_set, hresults, ← heq, List.set_getElem_self]
          · intro event hevent
            rcases List.mem_append.mp hevent with hold | hnew
            · exact h.log_answered event hold
            · rw [List.mem_singleton] at hnew
              exact ⟨path, hpath, hnew⟩

theorem eq_of_results?
    (h : crew.Follows corpus snapshot results) {others : List α}
    (hresults : crew.results? = some others) :
    others = results := by
  obtain ⟨tasks, htasks, -, hmap⟩ := h.exists_tasks
  rw [Crew.results?_eq_some_iff, htasks] at hresults
  have hdone : tasks = others.map Task.done := by
    apply List.map_injective_iff.mpr (fun _ _ => Progress.ready.inj)
    rw [hresults, List.map_map]
    rfl
  rw [← hmap, hdone, List.map_map]
  simp [Function.comp_def, Task.result]

theorem readsOf_log (h : crew.Follows corpus snapshot results) (file : Path) :
    readsOf file crew.log = [] := by
  rw [readsOf, List.filterMap_eq_nil_iff]
  intro event hevent
  obtain ⟨other, -, rfl⟩ := h.log_answered event hevent
  rfl

end Crew.Follows

/-! ## The invariant -/

/-- What the usage tests of a corpus come to for given texts. -/
def verdicts
    (isExempt : Text → Bool) (corpus : List Path) (text : Path → Text) : List (Option Finding) :=
  (corpus.flatMap fun file => exportsOf file (text file)).map fun record =>
    (usageTest isExempt corpus record).result text

/-- A state in which the extractions are at the given stages, and in which tests have
started only if all of them are finished and their texts are all that the tests saw. -/
structure CheckState.Faithful
    (isExempt : Text → Bool) (corpus : List Path) (stage : Path → Stage)
    (state : CheckState) : Prop where
  extracting : Extracting corpus stage state.cache state.extractions
  testing : ∀ tests, state.tests = some tests → ∃ snapshot : Path → Text,
    (∀ file ∈ corpus, stage file = .finished (snapshot file)) ∧
      tests.Follows corpus snapshot (verdicts isExempt corpus snapshot)

namespace CheckState.Faithful

variable {isExempt : Text → Bool} {corpus : List Path} {stage : Path → Stage}
  {state next : CheckState}

theorem initial (isExempt : Text → Bool) (corpus : List Path) (tree : FileSystem) :
    (CheckState.initial corpus tree).Faithful isExempt corpus fun _ => .waiting where
  extracting := Extracting.initial corpus
  testing := nofun

/-- Extractions only move while no test has started. -/
theorem extract
    (hkeys : KeysDistinct corpus) (h : state.Faithful isExempt corpus stage)
    {position : Nat} (hstep : state.step isExempt corpus (.extract position) = some next) :
    ∃ stage', next.Faithful isExempt corpus stage' := by
  rw [CheckState.step, Option.map_eq_some_iff] at hstep
  obtain ⟨⟨cache, extractions⟩, hcrew, rfl⟩ := hstep
  obtain ⟨⟨file, hfile, hpending⟩, stage', hextracting⟩ := h.extracting.step hkeys hcrew
  refine ⟨stage', hextracting, fun tests htests => ?_⟩
  obtain ⟨snapshot, hfinished, -⟩ := h.testing tests htests
  exact absurd (hfinished file hfile) (hpending (snapshot file))

/-- The tests start from a complete snapshot. -/
theorem startTests
    (h : state.Faithful isExempt corpus stage)
    (hstep : state.step isExempt corpus .startTests = some next) :
    next.Faithful isExempt corpus stage := by
  rw [CheckState.step] at hstep
  split at hstep
  next records _ hrecords =>
    obtain rfl := Option.some.inj hstep
    refine ⟨h.extracting, fun tests htests => ?_⟩
    obtain rfl := Option.some.inj htests
    obtain ⟨snapshot, hfinished⟩ := h.extracting.exists_snapshot hrecords
    obtain rfl := Option.some.inj
      (hrecords.symm.trans (h.extracting.results?_of_finished hfinished))
    refine ⟨snapshot, hfinished, ?_⟩
    rw [← List.flatMap_def, verdicts]
    have hfollows :
        (Crew.fresh ((corpus.flatMap fun file => exportsOf file (snapshot file)).map
          (usageTest isExempt corpus))).Follows corpus snapshot _ :=
      Crew.Follows.fresh (usageTests_within isExempt corpus _)
    rwa [List.map_map] at hfollows
  next => cases hstep

theorem test
    (h : state.Faithful isExempt corpus stage)
    {position : Nat} (hstep : state.step isExempt corpus (.test position) = some next) :
    next.Faithful isExempt corpus stage := by
  rw [CheckState.step] at hstep
  cases htests : state.tests with
  | none => simp [htests] at hstep
  | some tests =>
      simp only [htests, Option.map_eq_some_iff] at hstep
      obtain ⟨⟨cache, tests'⟩, hcrew, rfl⟩ := hstep
      obtain ⟨snapshot, hfinished, hfollows⟩ := h.testing tests htests
      have hcache : ∀ file ∈ corpus, state.cache.find? file = some (snapshot file) := by
        intro file hfile
        rw [h.extracting.remembered file hfile, hfinished file hfile]
        rfl
      obtain ⟨rfl, hfollows'⟩ := hfollows.step hcache hcrew
      refine ⟨h.extracting, fun other hother => ?_⟩
      obtain rfl := Option.some.inj hother
      exact ⟨snapshot, hfinished, hfollows'⟩

/-- Every move keeps a state faithful. -/
theorem step
    (hkeys : KeysDistinct corpus) (h : state.Faithful isExempt corpus stage)
    {move : Move} (hstep : state.step isExempt corpus move = some next) :
    ∃ stage', next.Faithful isExempt corpus stage' := by
  cases move with
  | edit tree =>
      obtain rfl := Option.some.inj hstep
      exact ⟨stage, h.extracting, h.testing⟩
  | extract position => exact h.extract hkeys hstep
  | startTests => exact ⟨stage, h.startTests hstep⟩
  | test position => exact ⟨stage, h.test hstep⟩

theorem run
    (hkeys : KeysDistinct corpus) (h : state.Faithful isExempt corpus stage)
    {schedule : List Move} (hrun : state.run isExempt corpus schedule = some next) :
    ∃ stage', next.Faithful isExempt corpus stage' := by
  induction schedule generalizing state stage with
  | nil =>
      obtain rfl := Option.some.inj hrun
      exact ⟨stage, h⟩
  | cons move schedule ih =>
      rw [CheckState.run] at hrun
      cases hstep : state.step isExempt corpus move with
      | none => simp [hstep] at hrun
      | some middle =>
          obtain ⟨stage', hmiddle⟩ := h.step hkeys hstep
          rw [hstep] at hrun
          exact ih hmiddle hrun

/-- A faithful check can be completed from wherever it is. -/
theorem exists_run_result (h : state.Faithful isExempt corpus stage) :
    ∃ schedule final result, state.run isExempt corpus schedule = some final ∧
      final.result? corpus = some result := by
  cases htests : state.tests with
  | none =>
      obtain ⟨schedule, final, hrun, hresult⟩ :=
        state.exists_run_finishing isExempt corpus htests rfl
      exact ⟨schedule, final, _, hrun, hresult⟩
  | some tests =>
      obtain ⟨snapshot, hfinished, -⟩ := h.testing tests htests
      obtain ⟨schedule, final, hrun, hresult⟩ :=
        state.exists_run_finishing_tests isExempt corpus
          (h.extracting.results?_of_finished hfinished) htests
      exact ⟨schedule, final, _, hrun, hresult⟩

/-- All reads are made by the extractions. -/
theorem readsOf_log (h : state.Faithful isExempt corpus stage) (file : Path) :
    readsOf file state.log = (stage file).reads := by
  rw [CheckState.log, readsOf_append, h.extracting.reads file]
  cases htests : state.tests with
  | none => exact List.append_nil _
  | some tests =>
      obtain ⟨snapshot, -, hfollows⟩ := h.testing tests htests
      rw [Option.map_some, Option.getD_some, hfollows.readsOf_log file, List.append_nil]

/-- A faithful check comes to the plain pass over its snapshot. -/
theorem eq_of_result?
    (h : state.Faithful isExempt corpus stage) {snapshot : Path → Text}
    (hfinished : ∀ file ∈ corpus, stage file = .finished (snapshot file))
    {tests : Crew (Option Finding)} (htests : state.tests = some tests)
    (hfollows : tests.Follows corpus snapshot (verdicts isExempt corpus snapshot))
    {result : CheckResult} (hresult : state.result? corpus = some result) :
    result = CheckResult.ofTexts snapshot isExempt corpus := by
  rw [CheckState.result?, htests, h.extracting.results?_of_finished hfinished] at hresult
  cases hverdicts : tests.results? with
  | none => simp [hverdicts] at hresult
  | some results =>
      obtain rfl := hfollows.eq_of_results? hverdicts
      simp only [hverdicts, Option.some.injEq] at hresult
      rw [← hresult, CheckResult.ofTexts_eq snapshot isExempt corpus rfl, verdicts,
        List.flatMap_def]
      rfl

end CheckState.Faithful

/-! ## Every schedule -/

theorem Stage.length_reads_le (stage : Stage) : stage.reads.length ≤ 1 := by
  cases stage <;> simp [reads]

/-- Whatever the schedule and whatever the world does to the files meanwhile, no file is
read twice, and every check under way can be completed. Once the tests have started,
every file of the corpus was read once and nothing else was; the texts that were read
are those from which the exports were extracted, and those that the tests see, which
read nothing themselves; and the check can come to nothing but the plain pass over these
texts. -/
theorem run_follows_snapshot
    {isExempt : Text → Bool} {corpus : List Path} (hkeys : KeysDistinct corpus)
    {tree : FileSystem} {schedule : List Move} {state : CheckState}
    (hrun : (CheckState.initial corpus tree).run isExempt corpus schedule = some state) :
    (∀ file, (readsOf file state.log).length ≤ 1) ∧
    (∃ rest final result, state.run isExempt corpus rest = some final ∧
      final.result? corpus = some result) ∧
    ∀ tests, state.tests = some tests → ∃ snapshot : Path → Text,
      (∀ file, readsOf file state.log = if file ∈ corpus then [snapshot file] else []) ∧
      (∀ file ∈ corpus, answersOf file state.extractions.log = [snapshot file]) ∧
      state.extractions.results? =
        some (corpus.map fun file => exportsOf file (snapshot file)) ∧
      (∀ event ∈ tests.log, ∃ file ∈ corpus, event = .answered file (snapshot file)) ∧
      ∀ result, state.result? corpus = some result →
        result = CheckResult.ofTexts snapshot isExempt corpus := by
  obtain ⟨stage, h⟩ := (CheckState.Faithful.initial isExempt corpus tree).run hkeys hrun
  refine ⟨fun file => ?_, h.exists_run_result, fun tests htests => ?_⟩
  · rw [h.readsOf_log file]
    exact (stage file).length_reads_le
  · obtain ⟨snapshot, hfinished, hfollows⟩ := h.testing tests htests
    refine ⟨snapshot, fun file => ?_, fun file hfile => ?_,
      h.extracting.results?_of_finished hfinished, hfollows.log_answered,
      fun result hresult => h.eq_of_result? hfinished htests hfollows hresult⟩
    · rw [h.readsOf_log file]
      by_cases hfile : file ∈ corpus
      · rw [if_pos hfile, hfinished file hfile]
        rfl
      · rw [if_neg hfile, h.extracting.outside file hfile]
        rfl
    · rw [h.extracting.answers file, hfinished file hfile]
      rfl

/-- A directory with the files `a` and `b`. -/
def pairTree (first second : String) : FileSystem where
  top :=
    .cons (Bytes.ofString "a") (.file (.ok (Bytes.ofString first)))
      (.cons (Bytes.ofString "b") (.file (.ok (Bytes.ofString second))) .nil)
  current := []
  wellFormed :=
    have hlt : Bytes.ofString "a" < Bytes.ofString "b" := by decide
    ⟨by decide, ⟨hlt, trivial⟩, trivial, by decide, trivial, trivial, trivial⟩

/-- Both extractions miss their file before either is read, and the files change before
and between the reads and before the tests. -/
def racingSchedule : List Move :=
  [.extract 0, .extract 1, .edit (pairTree "export const x" "x"), .extract 1,
    .edit (pairTree "export const y" ""), .extract 0, .extract 0, .extract 1,
    .edit (pairTree "" "y"), .startTests, .test 0]

/-- In a race of this kind, `a` is taken from the second change and `b` from the first. -/
theorem run_follows_snapshot_racing :
    ∃ state tests snapshot,
      (CheckState.initial [Bytes.ofString "a", Bytes.ofString "b"] (pairTree "" "")).run
        (fun _ => false) [Bytes.ofString "a", Bytes.ofString "b"] racingSchedule = some state ∧
      state.tests = some tests ∧
      readsOf (Bytes.ofString "a") state.log = [snapshot (Bytes.ofString "a")] ∧
      CheckResult.ofTexts snapshot (fun _ => false) [Bytes.ofString "a", Bytes.ofString "b"] =
        ⟨[⟨['y'], Bytes.ofString "a"⟩], 2, 1⟩ := by
  have hfinal :
      ((CheckState.initial [Bytes.ofString "a", Bytes.ofString "b"] (pairTree "" "")).run
        (fun _ => false) [Bytes.ofString "a", Bytes.ofString "b"] racingSchedule).bind
          (·.result? [Bytes.ofString "a", Bytes.ofString "b"]) =
        some ⟨[⟨['y'], Bytes.ofString "a"⟩], 2, 1⟩ := by
    decide +kernel
  obtain ⟨state, hrun, hresult⟩ := Option.bind_eq_some_iff.mp hfinal
  obtain ⟨tests, htests⟩ : ∃ tests, state.tests = some tests := by
    cases htests : state.tests with
    | none => simp [CheckState.result?, htests] at hresult
    | some tests => exact ⟨tests, rfl⟩
  obtain ⟨-, -, hsnapshot⟩ := run_follows_snapshot (by decide) hrun
  obtain ⟨snapshot, hreads, -, -, -, hplain⟩ := hsnapshot tests htests
  exact ⟨state, tests, snapshot, hrun, htests, hreads _, (hplain _ hresult).symm⟩

end DeadExports
