import DeadExports.Proofs.SequentialPass
import Mathlib.Logic.Relation

/-!
# Schedules of a check

The tasks of a check run side by side over one cache. A request for a text is not one
step but up to three: the lookup, the read when the lookup finds nothing, and the
insertion of what was read. Other tasks may act in between, and so may the world, which
can replace the whole file tree at any moment. The usage tests are set up once all
extractions are done.

A schedule is a list of such moves, in any order that is possible at all. A task that is
left to itself comes to what performing it comes to, so the check of a corpus, one task
after another, is the outcome of one of the schedules.
-/

namespace DeadExports

/-! ## Single steps -/

/-- How far a task has come. -/
inductive Progress (α : Type) where
  /-- About to continue, with a lookup if the task asks for a text. -/
  | ready (task : Task α)
  /-- The lookup found nothing; the file is to be read. -/
  | missed (path : Path) (resume : Text → Task α)
  /-- The file was read; its text is to be inserted. -/
  | holding (path : Path) (text : Text) (resume : Text → Task α)

/-- What a task does that others might notice: it reads a file, or it receives the
answer to a request. -/
inductive Event where
  | read (path : Path) (text : Text)
  | answered (path : Path) (text : Text)
  deriving DecidableEq, Repr

structure Advance (α : Type) where
  progress : Progress α
  cache : SourceCache
  events : List Event

namespace Progress

variable {α : Type}

/-- One step of a task; there is none when the task is done. -/
def advance (tree : FileSystem) (cache : SourceCache) : Progress α → Option (Advance α)
  | ready (.done _) => none
  | ready (.ask path resume) =>
      match cache.find? path with
      | some text => some ⟨ready (resume text), cache, [.answered path text]⟩
      | none => some ⟨missed path resume, cache, []⟩
  | missed path resume =>
      let text := loaded (tree.readText path)
      some ⟨holding path text resume, cache, [.read path text]⟩
  | holding path text resume =>
      some ⟨ready (resume text), cache.insert path text, [.answered path text]⟩

def result? : Progress α → Option α
  | ready (.done result) => some result
  | _ => none

end Progress

/-- Tasks that run side by side, with everything that they did so far. -/
structure Crew (α : Type) where
  tasks : List (Progress α)
  log : List Event

namespace Crew

variable {α : Type}

def fresh (tasks : List (Task α)) : Crew α :=
  ⟨tasks.map .ready, []⟩

def step
    (tree : FileSystem) (cache : SourceCache) (crew : Crew α) (position : Nat) :
    Option (SourceCache × Crew α) :=
  match crew.tasks[position]? with
  | none => none
  | some progress =>
      match progress.advance tree cache with
      | none => none
      | some next =>
          some (next.cache, ⟨crew.tasks.set position next.progress, crew.log ++ next.events⟩)

/-- The results in the order of the tasks, once all tasks are done. -/
def results? (crew : Crew α) : Option (List α) :=
  crew.tasks.mapM Progress.result?

end Crew

/-! ## Schedules -/

/-- A check under way. -/
structure CheckState where
  tree : FileSystem
  cache : SourceCache
  extractions : Crew (List ExportRecord)
  tests : Option (Crew (Option Finding))

/-- What can happen next in a check: the world replaces the file tree, the task at a
position takes a step, or the usage tests are set up. -/
inductive Move where
  | edit (tree : FileSystem)
  | extract (position : Nat)
  | startTests
  | test (position : Nat)

namespace CheckState

variable (isExempt : Text → Bool) (corpus : List Path)

def initial (tree : FileSystem) : CheckState where
  tree := tree
  cache := .empty
  extractions := .fresh (corpus.map extraction)
  tests := none

/-- The state after a move, if the move is possible. The usage tests are set up once,
from the results of all extractions. -/
def step (state : CheckState) : Move → Option CheckState
  | .edit tree => some { state with tree }
  | .extract position =>
      (state.extractions.step state.tree state.cache position).map fun (cache, extractions) =>
        { state with cache, extractions }
  | .startTests =>
      match state.tests, state.extractions.results? with
      | none, some records =>
          let tests := Crew.fresh (records.flatten.map (usageTest isExempt corpus))
          some { state with tests := some tests }
      | _, _ => none
  | .test position =>
      match state.tests with
      | none => none
      | some tests =>
          (tests.step state.tree state.cache position).map fun (cache, tests) =>
            { state with cache, tests := some tests }

/-- The state after the moves of a schedule, if all of them are possible. -/
def run (state : CheckState) : List Move → Option CheckState
  | [] => some state
  | move :: schedule =>
      match state.step isExempt corpus move with
      | none => none
      | some next => next.run schedule

/-- The result of a check, once all its tests are done. -/
def result? (state : CheckState) : Option CheckResult :=
  match state.tests with
  | none => none
  | some tests =>
      match state.extractions.results?, tests.results? with
      | some records, some verdicts =>
          some ⟨verdicts.reduceOption, corpus.length, records.flatten.length⟩
      | _, _ => none

def log (state : CheckState) : List Event :=
  state.extractions.log ++ (state.tests.map Crew.log).getD []

end CheckState

def readsOf (file : Path) (log : List Event) : List Text :=
  log.filterMap fun
    | .read path text => if path = file then some text else none
    | .answered _ _ => none

def answersOf (file : Path) (log : List Event) : List Text :=
  log.filterMap fun
    | .read _ _ => none
    | .answered path text => if path = file then some text else none

/-! ## Results -/

theorem Progress.result?_eq_some_iff {α : Type} {progress : Progress α} {result : α} :
    progress.result? = some result ↔ progress = .ready (.done result) := by
  constructor
  · intro h
    cases progress with
    | ready task =>
        cases task with
        | done other => rw [Option.some.inj h]
        | ask path resume => cases h
    | missed path resume => cases h
    | holding path text resume => cases h
  · rintro rfl
    rfl

theorem Crew.results?_eq_some_iff {α : Type} {crew : Crew α} {results : List α} :
    crew.results? = some results ↔
      crew.tasks = results.map fun result => .ready (.done result) := by
  obtain ⟨tasks, log⟩ := crew
  change tasks.mapM Progress.result? = some results ↔ _
  dsimp only
  induction tasks generalizing results with
  | nil => cases results <;> simp
  | cons progress tasks ih =>
      cases results with
      | nil => simp [Option.bind_eq_some_iff]
      | cons result results =>
          rw [List.map_cons, List.cons.injEq, ← ih, ← Progress.result?_eq_some_iff]
          simp [Option.bind_eq_some_iff]

/-! ## Finishing a check -/

/-- Some steps of the tasks of a crew lead from one situation to another. -/
def Crew.Reaches
    {α : Type} (tree : FileSystem) : SourceCache × Crew α → SourceCache × Crew α → Prop :=
  Relation.ReflTransGen fun before after =>
    ∃ position, before.2.step tree before.1 position = some after

theorem Crew.Reaches.trans
    {α : Type} {tree : FileSystem} {first second third : SourceCache × Crew α}
    (h : Crew.Reaches tree first second) (h' : Crew.Reaches tree second third) :
    Crew.Reaches tree first third :=
  Relation.ReflTransGen.trans h h'

/-- Completes a task from where it is, with no other task in between. -/
def Progress.finish
    {α : Type} (tree : FileSystem) (cache : SourceCache) : Progress α → Performed α
  | ready task => task.perform tree cache
  | missed path resume =>
      let text := loaded (tree.readText path)
      (resume text).perform tree (cache.insert path text)
  | holding path text resume => (resume text).perform tree (cache.insert path text)

def Progress.finishAll
    {α : Type} (tree : FileSystem) : SourceCache → List (Progress α) → SourceCache × List α
  | cache, [] => (cache, [])
  | cache, progress :: pending =>
      let first := progress.finish tree cache
      let rest := finishAll tree first.cache pending
      (rest.1, first.result :: rest.2)

theorem Progress.finishAll_ready
    {α : Type} (tree : FileSystem) (cache : SourceCache) (tasks : List (Task α)) :
    finishAll tree cache (tasks.map ready) =
      ((Task.performAll tree cache tasks).cache, (Task.performAll tree cache tasks).result) := by
  induction tasks generalizing cache with
  | nil => rfl
  | cons task tasks ih =>
      rw [List.map_cons, finishAll, Task.performAll]
      dsimp only [finish]
      rw [ih]

section Reaching

variable {α : Type} (tree : FileSystem) (before after : List (Progress α))

theorem Crew.reaches_of_advance
    {cache : SourceCache} {progress : Progress α} {next : Advance α} (log : List Event)
    (h : progress.advance tree cache = some next) :
    Crew.Reaches tree (cache, ⟨before ++ progress :: after, log⟩)
      (next.cache, ⟨before ++ next.progress :: after, log ++ next.events⟩) := by
  apply Relation.ReflTransGen.single
  refine ⟨before.length, ?_⟩
  simp [Crew.step, h]

theorem Crew.reaches_loaded
    (cache : SourceCache) (path : Path) (resume : Text → Task α) (log : List Event) :
    ∃ log', Crew.Reaches tree (cache, ⟨before ++ .missed path resume :: after, log⟩)
      (cache.insert path (loaded (tree.readText path)),
        ⟨before ++ .ready (resume (loaded (tree.readText path))) :: after, log'⟩) := by
  have hread := Crew.reaches_of_advance tree before after log
    (rfl : (Progress.missed path resume).advance tree cache = some _)
  have hinsert := Crew.reaches_of_advance tree before after
    (log ++ [.read path (loaded (tree.readText path))])
    (rfl : (Progress.holding path (loaded (tree.readText path)) resume).advance tree cache = some _)
  exact ⟨_, hread.trans hinsert⟩

/-- A task can be performed step by step, its requests taking up to three steps each. -/
theorem Crew.reaches_perform (cache : SourceCache) (task : Task α) (log : List Event) :
    ∃ log', Crew.Reaches tree (cache, ⟨before ++ .ready task :: after, log⟩)
      ((task.perform tree cache).cache,
        ⟨before ++ .ready (.done (task.perform tree cache).result) :: after, log'⟩) := by
  induction task generalizing cache log with
  | done result => exact ⟨log, .refl⟩
  | ask path resume ih =>
      rw [Task.perform, SourceCache.text]
      cases hfind : cache.find? path with
      | some text =>
          have hlookup :
              (Progress.ready (.ask path resume)).advance tree cache =
                some ⟨.ready (resume text), cache, [.answered path text]⟩ := by
            simp only [Progress.advance, hfind]
          obtain ⟨log', hrest⟩ := ih text cache (log ++ [.answered path text])
          exact ⟨log', (Crew.reaches_of_advance tree before after log hlookup).trans hrest⟩
      | none =>
          have hlookup :
              (Progress.ready (.ask path resume)).advance tree cache =
                some ⟨.missed path resume, cache, []⟩ := by
            simp only [Progress.advance, hfind]
          obtain ⟨middle, hloaded⟩ :=
            Crew.reaches_loaded tree before after cache path resume (log ++ [])
          obtain ⟨log', hrest⟩ := ih (loaded (tree.readText path))
            (cache.insert path (loaded (tree.readText path))) middle
          exact ⟨log', (Crew.reaches_of_advance tree before after log hlookup).trans
            (hloaded.trans hrest)⟩

theorem Crew.reaches_finish (cache : SourceCache) (progress : Progress α) (log : List Event) :
    ∃ log', Crew.Reaches tree (cache, ⟨before ++ progress :: after, log⟩)
      ((progress.finish tree cache).cache,
        ⟨before ++ .ready (.done (progress.finish tree cache).result) :: after, log'⟩) := by
  cases progress with
  | ready task => exact Crew.reaches_perform tree before after cache task log
  | missed path resume =>
      obtain ⟨middle, hloaded⟩ := Crew.reaches_loaded tree before after cache path resume log
      obtain ⟨log', hrest⟩ := Crew.reaches_perform tree before after
        (cache.insert path (loaded (tree.readText path))) (resume (loaded (tree.readText path)))
        middle
      exact ⟨log', hloaded.trans hrest⟩
  | holding path text resume =>
      have hinsert := Crew.reaches_of_advance tree before after log
        (rfl : (Progress.holding path text resume).advance tree cache = some _)
      obtain ⟨log', hrest⟩ := Crew.reaches_perform tree before after
        (cache.insert path text) (resume text) (log ++ [.answered path text])
      exact ⟨log', hinsert.trans hrest⟩

/-- Whatever its tasks have done so far, a crew can complete them in order. -/
theorem Crew.reaches_finishAll
    (cache : SourceCache) (pending : List (Progress α)) (log : List Event) :
    ∃ log', Crew.Reaches tree (cache, ⟨before ++ pending, log⟩)
      ((Progress.finishAll tree cache pending).1,
        ⟨before ++ (Progress.finishAll tree cache pending).2.map fun result =>
          .ready (.done result), log'⟩) := by
  induction pending generalizing before cache log with
  | nil => exact ⟨log, .refl⟩
  | cons progress pending ih =>
      obtain ⟨middle, hfirst⟩ := Crew.reaches_finish tree before pending cache progress log
      obtain ⟨log', hrest⟩ :=
        ih (before ++ [.ready (.done (progress.finish tree cache).result)])
          (progress.finish tree cache).cache middle
      rw [List.append_assoc, List.append_assoc] at hrest
      exact ⟨log', hfirst.trans hrest⟩

end Reaching

namespace CheckState

variable (isExempt : Text → Bool) (corpus : List Path)

theorem run_append (state : CheckState) (first second : List Move) :
    state.run isExempt corpus (first ++ second) =
      (state.run isExempt corpus first).bind (·.run isExempt corpus second) := by
  induction first generalizing state with
  | nil => rfl
  | cons move first ih =>
      rw [List.cons_append, run, run]
      cases state.step isExempt corpus move with
      | none => rfl
      | some next => exact ih next

/-- Steps of the extractions are moves of the check, and so are steps of the tests. -/
theorem exists_run_of_extractions
    (state : CheckState) {cache : SourceCache} {extractions : Crew (List ExportRecord)}
    (h : Crew.Reaches state.tree (state.cache, state.extractions) (cache, extractions)) :
    ∃ schedule, state.run isExempt corpus schedule = some { state with cache, extractions } := by
  generalize hlast : (cache, extractions) = last at h
  induction h generalizing cache extractions with
  | refl =>
      obtain ⟨rfl, rfl⟩ := Prod.mk.inj hlast
      exact ⟨[], rfl⟩
  | tail _ hstep ih =>
      subst hlast
      obtain ⟨schedule, hrun⟩ := ih rfl
      obtain ⟨position, hposition⟩ := hstep
      refine ⟨schedule ++ [.extract position], ?_⟩
      rw [run_append, hrun]
      simp [run, step, hposition]

theorem exists_run_of_tests
    (state : CheckState) {tests : Crew (Option Finding)} (htests : state.tests = some tests)
    {cache : SourceCache} {tests' : Crew (Option Finding)}
    (h : Crew.Reaches state.tree (state.cache, tests) (cache, tests')) :
    ∃ schedule, state.run isExempt corpus schedule =
      some { state with cache, tests := some tests' } := by
  generalize hlast : (cache, tests') = last at h
  induction h generalizing cache tests' with
  | refl =>
      obtain ⟨rfl, rfl⟩ := Prod.mk.inj hlast
      exact ⟨[], by rw [← htests]; rfl⟩
  | tail _ hstep ih =>
      subst hlast
      obtain ⟨schedule, hrun⟩ := ih rfl
      obtain ⟨position, hposition⟩ := hstep
      refine ⟨schedule ++ [.test position], ?_⟩
      rw [run_append, hrun]
      simp [run, step, hposition]

theorem exists_run_finishing_tests
    (state : CheckState) {records : List (List ExportRecord)}
    (hrecords : state.extractions.results? = some records)
    {tests : Crew (Option Finding)} (htests : state.tests = some tests) :
    ∃ schedule final, state.run isExempt corpus schedule = some final ∧
      final.result? corpus =
        some ⟨(Progress.finishAll state.tree state.cache tests.tasks).2.reduceOption,
          corpus.length, records.flatten.length⟩ := by
  obtain ⟨log, hreaches⟩ :=
    Crew.reaches_finishAll state.tree [] state.cache tests.tasks tests.log
  obtain ⟨schedule, hrun⟩ := state.exists_run_of_tests isExempt corpus htests hreaches
  refine ⟨schedule, _, hrun, ?_⟩
  rw [result?]
  dsimp only
  rw [hrecords, Crew.results?_eq_some_iff.mpr rfl]

/-- A check that has no tests yet can complete its extractions, start its tests and
complete them. -/
theorem exists_run_finishing
    (state : CheckState) (htests : state.tests = none)
    {cache : SourceCache} {records : List (List ExportRecord)}
    (hextracted :
      Progress.finishAll state.tree state.cache state.extractions.tasks = (cache, records)) :
    ∃ schedule final, state.run isExempt corpus schedule = some final ∧
      final.result? corpus =
        some ⟨(Progress.finishAll state.tree cache
            ((records.flatten.map (usageTest isExempt corpus)).map .ready)).2.reduceOption,
          corpus.length, records.flatten.length⟩ := by
  obtain ⟨log, hreaches⟩ :=
    Crew.reaches_finishAll state.tree [] state.cache state.extractions.tasks state.extractions.log
  rw [hextracted] at hreaches
  obtain ⟨first, hfirst⟩ := state.exists_run_of_extractions isExempt corpus hreaches
  have hrecords :
      (Crew.mk ([] ++ records.map fun result => .ready (.done result)) log).results? =
        some records :=
    Crew.results?_eq_some_iff.mpr rfl
  obtain ⟨second, final, hsecond, hresult⟩ :=
    exists_run_finishing_tests isExempt corpus
      ⟨state.tree, cache, ⟨[] ++ records.map fun result => .ready (.done result), log⟩,
        some (.fresh (records.flatten.map (usageTest isExempt corpus)))⟩ hrecords rfl
  refine ⟨first ++ .startTests :: second, final, ?_, hresult⟩
  rw [run_append, hfirst, Option.bind_some, run, step]
  dsimp only
  rw [htests, hrecords]
  exact hsecond

/-- The sequential check is one of the ways in which its tasks can be interleaved. -/
theorem exists_run_checkCorpus (tree : FileSystem) :
    ∃ schedule final, (initial corpus tree).run isExempt corpus schedule = some final ∧
      final.result? corpus = some (checkCorpus tree isExempt corpus).result := by
  obtain ⟨schedule, final, hrun, hresult⟩ :=
    (initial corpus tree).exists_run_finishing isExempt corpus rfl
      (Progress.finishAll_ready tree .empty (corpus.map extraction))
  refine ⟨schedule, final, hrun, hresult.trans ?_⟩
  rw [Progress.finishAll_ready, checkCorpus, extractAll_eq_performAll, siftUnused_eq_performAll]
  rfl

end CheckState

end DeadExports
