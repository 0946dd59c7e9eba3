import DeadExports.FileTree.Edit
import DeadExports.Proofs.PathRespelling
import DeadExports.Proofs.SequentialPass
import Mathlib.Data.Finset.Card

/-!
# The life of a source cache

A cache is asked for texts while the files it reads from are written and removed. Only the
first request of a key reaches the tree, so what the cache remembers is decided by the tree
and by the spelling at that moment, and nothing that happens later can change it. The
invariant says this of every key that was requested, and that the cache has one entry for
each of them. It is kept by every step: a change of the tree leaves the cache alone, and a
request either finds its key or adds it.
-/

namespace DeadExports

theorem SourceCache.find?_eq_none_iff {cache : SourceCache} {path : Path} :
    cache.find? path = none ↔ path.key ∉ cache.entries.map Prod.fst := by
  simp only [find?, List.lookup_eq_none_iff, List.mem_map, bne_iff_ne]
  constructor
  · rintro h ⟨entry, hentry, hkey⟩
    exact h entry hentry hkey.symm
  · intro h entry hentry hkey
    exact h ⟨entry, hentry, hkey.symm⟩

theorem SourceCache.entries_insert_of_find?_eq_none
    {cache : SourceCache} {path : Path} (h : cache.find? path = none) (text : Text) :
    (cache.insert path text).entries = (path.key, text) :: cache.entries := by
  rw [insert, List.filter_eq_self.mpr]
  intro entry hentry
  have hkey : entry.1 ≠ path.key := by
    intro hkey
    exact find?_eq_none_iff.mp h (List.mem_map.mpr ⟨entry, hentry, hkey⟩)
  simpa using hkey

/-- What happens to a cache or around it. -/
inductive CacheStep where
  | request (path : Path)
  | change (change : FileSystem.Change)

def CacheStep.requested (steps : List CacheStep) : List Path :=
  steps.filterMap fun
    | request path => some path
    | change _ => none

/-- A cache together with the tree it reads from. -/
structure CacheSession where
  tree : FileSystem
  cache : SourceCache

namespace CacheSession

def fresh (tree : FileSystem) : CacheSession :=
  ⟨tree, .empty⟩

def answer (session : CacheSession) (path : Path) : SourceCache.Answer :=
  session.cache.text session.tree path

def after (session : CacheSession) : CacheStep → CacheSession
  | .request path => { session with cache := (session.answer path).cache }
  | .change change => { session with tree := session.tree.apply change }

/-- What is reported during a step. -/
def reports (session : CacheSession) : CacheStep → List UnreadableSource
  | .request path => (session.answer path).failures
  | .change _ => []

/-- The session that starts with a tree and goes through some steps. -/
def run (tree : FileSystem) (steps : List CacheStep) : CacheSession :=
  steps.foldl after (fresh tree)

/-- Among some steps is a request of a path, and the first one, under whatever spelling, was
answered with a given text: the one that was there to be read. -/
def FirstAnswer (tree : FileSystem) (steps : List CacheStep) (path : Path) (text : Text) : Prop :=
  ∃ (before : List CacheStep) (first : Path) (later : List CacheStep),
    steps = before ++ .request first :: later ∧ first.key = path.key ∧
      path.key ∉ (CacheStep.requested before).map Path.key ∧
      text = (run tree before).tree.sourceText first

variable {tree : FileSystem} {steps : List CacheStep}

theorem run_concat (tree : FileSystem) (steps : List CacheStep) (step : CacheStep) :
    run tree (steps ++ [step]) = (run tree steps).after step := by
  simp [run]

theorem requested_concat_request (steps : List CacheStep) (path : Path) :
    CacheStep.requested (steps ++ [.request path]) = CacheStep.requested steps ++ [path] := by
  simp [CacheStep.requested]

theorem requested_concat_change (steps : List CacheStep) (change : FileSystem.Change) :
    CacheStep.requested (steps ++ [.change change]) = CacheStep.requested steps := by
  simp [CacheStep.requested]

/-- Later steps do not change the first answer. -/
theorem FirstAnswer.concat
    {path : Path} {text : Text} (h : FirstAnswer tree steps path text) (step : CacheStep) :
    FirstAnswer tree (steps ++ [step]) path text := by
  obtain ⟨before, first, later, rfl, hkey, hnew, htext⟩ := h
  exact ⟨before, first, later ++ [step], by simp, hkey, hnew, htext⟩

theorem FirstAnswer.of_key_eq
    {path other : Path} {text : Text} (h : FirstAnswer tree steps path text)
    (hkey : path.key = other.key) : FirstAnswer tree steps other text := by
  obtain ⟨before, first, later, hsteps, hfirst, hnew, htext⟩ := h
  exact ⟨before, first, later, hsteps, hfirst.trans hkey, hkey ▸ hnew, htext⟩

/-- A cache that went through some steps remembers the first answers and nothing else. -/
structure Follows (tree : FileSystem) (steps : List CacheStep) : Prop where
  nodup : ((run tree steps).cache.entries.map Prod.fst).Nodup
  mem_iff (key : Path.Key) :
    key ∈ (run tree steps).cache.entries.map Prod.fst ↔
      key ∈ (CacheStep.requested steps).map Path.key
  firstAnswer (path : Path) (text : Text) (h : (run tree steps).cache.find? path = some text) :
    FirstAnswer tree steps path text

theorem Follows.initial (tree : FileSystem) : Follows tree [] where
  nodup := List.nodup_nil
  mem_iff _ := Iff.rfl
  firstAnswer path text h := by simp [run, fresh, SourceCache.empty, SourceCache.find?] at h

theorem Follows.find?_eq_none_iff (h : Follows tree steps) (path : Path) :
    (run tree steps).cache.find? path = none ↔
      path.key ∉ (CacheStep.requested steps).map Path.key := by
  rw [← h.mem_iff, SourceCache.find?_eq_none_iff]

theorem Follows.firstAnswer_answer (h : Follows tree steps) (path : Path) :
    FirstAnswer tree (steps ++ [.request path]) path ((run tree steps).answer path).text := by
  rw [answer, SourceCache.text]
  cases hfind : (run tree steps).cache.find? path with
  | some text => exact (h.firstAnswer path text hfind).concat _
  | none =>
      have hnew := (h.find?_eq_none_iff path).mp hfind
      exact ⟨steps, path, [], rfl, rfl, hnew, loaded_readText _ _⟩

theorem Follows.change (h : Follows tree steps) (change : FileSystem.Change) :
    Follows tree (steps ++ [.change change]) where
  nodup := by
    rw [run_concat]
    exact h.nodup
  mem_iff key := by
    rw [run_concat, requested_concat_change]
    exact h.mem_iff key
  firstAnswer path text hfind := by
    rw [run_concat] at hfind
    exact (h.firstAnswer path text hfind).concat _

theorem Follows.request (h : Follows tree steps) (path : Path) :
    Follows tree (steps ++ [.request path]) := by
  cases hfind : (run tree steps).cache.find? path with
  | some text =>
      have hafter : (run tree steps).after (.request path) = run tree steps := by
        rw [after, answer, SourceCache.text, hfind]
      have hknown : path.key ∈ (CacheStep.requested steps).map Path.key := by
        by_contra hnew
        rw [(h.find?_eq_none_iff path).mpr hnew] at hfind
        cases hfind
      refine ⟨?_, fun key => ?_, fun other text hother => ?_⟩
      · rw [run_concat, hafter]
        exact h.nodup
      · rw [run_concat, hafter, h.mem_iff, requested_concat_request, List.map_append,
          List.mem_append]
        constructor
        · exact .inl
        · rintro (hmem | hmem)
          · exact hmem
          · rwa [List.mem_singleton.mp hmem]
      · rw [run_concat, hafter] at hother
        exact (h.firstAnswer other text hother).concat _
  | none =>
      have hanswer := h.firstAnswer_answer path
      have hafter : ((run tree steps).after (.request path)).cache =
          (run tree steps).cache.insert path ((run tree steps).answer path).text := by
        rw [after, answer, SourceCache.text, hfind]
      refine ⟨?_, fun key => ?_, fun other text hother => ?_⟩
      · rw [run_concat, hafter, SourceCache.entries_insert_of_find?_eq_none hfind, List.map_cons,
          List.nodup_cons]
        exact ⟨SourceCache.find?_eq_none_iff.mp hfind, h.nodup⟩
      · rw [run_concat, hafter, SourceCache.entries_insert_of_find?_eq_none hfind, List.map_cons,
          List.mem_cons, h.mem_iff, requested_concat_request, List.map_append, List.mem_append,
          or_comm]
        exact or_congr_right List.mem_singleton.symm
      · rw [run_concat, hafter] at hother
        by_cases hkey : other.key = path.key
        · rw [SourceCache.find?_insert_of_key_eq _ _ hkey] at hother
          rw [← Option.some.inj hother]
          exact hanswer.of_key_eq hkey.symm
        · rw [SourceCache.find?_insert_of_key_ne _ _ hkey] at hother
          exact (h.firstAnswer other text hother).concat _

theorem follows_run (tree : FileSystem) (steps : List CacheStep) : Follows tree steps := by
  induction steps using List.reverseRecOn with
  | nil => exact .initial tree
  | append_singleton steps step ih =>
      cases step with
      | request path => exact ih.request path
      | change change => exact ih.change change

/-! ## Size and reports -/

theorem size_run (tree : FileSystem) (steps : List CacheStep) :
    (run tree steps).cache.size = ((CacheStep.requested steps).map Path.key).toFinset.card := by
  have h := follows_run tree steps
  have hkeys : ((run tree steps).cache.entries.map Prod.fst).toFinset =
      ((CacheStep.requested steps).map Path.key).toFinset := by
    ext key
    rw [List.mem_toFinset, List.mem_toFinset, h.mem_iff]
  rw [← hkeys, List.toFinset_card_of_nodup h.nodup, List.length_map, SourceCache.size]

theorem isEmpty_run_iff (tree : FileSystem) (steps : List CacheStep) :
    (run tree steps).cache.isEmpty = true ↔ CacheStep.requested steps = [] := by
  have h := follows_run tree steps
  rw [SourceCache.isEmpty, List.isEmpty_iff, ← List.map_eq_nil_iff, List.eq_nil_iff_forall_not_mem,
    ← List.map_eq_nil_iff, List.eq_nil_iff_forall_not_mem]
  exact forall_congr' fun key => not_congr (h.mem_iff key)

/-- A request reports a failure when it is the first one of its key and the file cannot be
read. -/
theorem reports_request (tree : FileSystem) (steps : List CacheStep) (path : Path) :
    (run tree steps).reports (.request path) =
      if path.key ∈ (CacheStep.requested steps).map Path.key then []
      else
        match (run tree steps).tree.read path with
        | .ok _ => []
        | .error cause => [⟨path, cause⟩] := by
  have hnew := (follows_run tree steps).find?_eq_none_iff path
  rw [reports, answer, SourceCache.text]
  cases hfind : (run tree steps).cache.find? path with
  | some text =>
      rw [if_pos]
      by_contra hmem
      rw [hnew.mpr hmem] at hfind
      cases hfind
  | none =>
      rw [if_neg (hnew.mp hfind), FileSystem.readText]
      cases (run tree steps).tree.read path <;> rfl

/-- At every point of every history: the cache counts the keys that were requested, it is
empty as long as there was no request, a request is answered with what could be read under
the first spelling at the first request of its key, and a failure is reported by that first
request and by no other step. A key is shared by the spellings of one path. -/
theorem run_characterization (tree : FileSystem) (steps : List CacheStep) :
    (run tree steps).cache.size = ((CacheStep.requested steps).map Path.key).toFinset.card ∧
      ((run tree steps).cache.isEmpty = true ↔ CacheStep.requested steps = []) ∧
      (∀ path, FirstAnswer tree (steps ++ [.request path]) path
        ((run tree steps).answer path).text) ∧
      (∀ path, (run tree steps).reports (.request path) =
        if path.key ∈ (CacheStep.requested steps).map Path.key then []
        else
          match (run tree steps).tree.read path with
          | .ok _ => []
          | .error cause => [⟨path, cause⟩]) ∧
      (∀ change, (run tree steps).reports (.change change) = []) ∧
      ∀ path other : Path, path.key = other.key ↔ Path.Respelled path other := by
  have hanswer (path : Path) := (follows_run tree steps).firstAnswer_answer path
  exact ⟨size_run tree steps, isEmpty_run_iff tree steps, hanswer, reports_request tree steps,
    fun change => rfl, fun path other => Path.key_eq_iff_respelled⟩

end CacheSession

end DeadExports
