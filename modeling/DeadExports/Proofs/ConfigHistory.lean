import DeadExports.Config
import DeadExports.FileTree.Edit
import Mathlib.Data.List.Basic
import Mathlib.Data.List.Forall2
import Mathlib.Data.List.Induction

/-!
# The life of a configuration

A configuration is edited, the files around it are written, and now and then it is resolved
against the tree. Resolving in place reads the settings file first and assigns afterwards, so
there is nothing to take back when the settings cannot be read. It computes both fields from
the options and the settings alone. At every point of a history the two fields therefore
belong to the last resolution that succeeded, and everything before it is forgotten.
-/

namespace DeadExports

/-! ## Sets of names -/

theorem mem_insertName {name other : Text} {names : List Text} :
    other ∈ insertName name names ↔ other = name ∨ other ∈ names := by
  induction names with
  | nil => rw [insertName, List.mem_singleton, List.mem_nil_iff, or_false]
  | cons first names ih =>
      rw [insertName]
      split
      next hname => rw [List.mem_cons, hname, ← or_assoc, or_self]
      next =>
        split
        next => rw [List.mem_cons]
        next => rw [List.mem_cons, ih, List.mem_cons, or_left_comm]

theorem mem_nameSet {name : Text} {names : List Text} : name ∈ nameSet names ↔ name ∈ names := by
  induction names with
  | nil => exact Iff.rfl
  | cons first names ih =>
      rw [nameSet, List.foldr_cons, mem_insertName, List.mem_cons]
      exact or_congr_right ih

theorem pairwise_insertName {name : Text} {names : List Text} (h : names.Pairwise (· < ·)) :
    (insertName name names).Pairwise (· < ·) := by
  induction names with
  | nil => exact List.pairwise_singleton _ _
  | cons first names ih =>
      obtain ⟨hfirst, hnames⟩ := List.pairwise_cons.mp h
      rw [insertName]
      split
      next => exact h
      next hne =>
        split
        next hlt =>
          refine List.pairwise_cons.mpr ⟨fun other hother => ?_, h⟩
          rcases List.mem_cons.mp hother with rfl | hother
          · exact hlt
          · exact List.lt_trans hlt (hfirst other hother)
        next hge =>
          refine List.pairwise_cons.mpr ⟨fun other hother => ?_, ih hnames⟩
          rcases mem_insertName.mp hother with rfl | hother
          · by_contra hnot
            exact hne (List.le_antisymm hnot hge)
          · exact hfirst other hother

/-- A set of names is in ascending order, so equal sets are equal lists. -/
theorem pairwise_nameSet (names : List Text) : (nameSet names).Pairwise (· < ·) := by
  induction names with
  | nil => exact List.Pairwise.nil
  | cons name names ih => exact pairwise_insertName ih

/-! ## What is resolved -/

namespace Config

/-- A configuration exempts the framework's names and those of options and settings, and
selects the first of the suffix lists of options, settings and defaults that is not empty.
Of this list an entry that starts with a dot is kept, any other gets one in front. -/
structure ResolvedFrom (config : Config) (options : Options) (settings : Settings) : Prop where
  mem_exempt (name : Text) : name ∈ config.exempt ↔
    name ∈ frameworkNames ∨ name ∈ options.allow ∨ name ∈ settings.allow
  ascending : config.exempt.Pairwise (· < ·)
  suffixes : ∃ chosen,
    [options.extensions, settings.extensions, sourceSuffixes].find? (· ≠ []) = some chosen ∧
      chosen.Forall₂
        (fun given scanned =>
          ['.'] <+: given ∧ scanned = given ∨ ¬['.'] <+: given ∧ scanned = '.' :: given)
        config.suffixes

theorem mem_exemptNames {options : Options} {settings : Settings} {name : Text} :
    name ∈ exemptNames options settings ↔
      name ∈ frameworkNames ∨ name ∈ options.allow ∨ name ∈ settings.allow := by
  rw [exemptNames, mem_nameSet, List.mem_append, List.mem_append, or_assoc]

theorem dotted_cases (suffix : Text) :
    ['.'] <+: suffix ∧ dotted suffix = suffix ∨
      ¬['.'] <+: suffix ∧ dotted suffix = '.' :: suffix := by
  have hprefix : ['.'] <+: suffix ↔ suffix.head? = some '.' := by
    cases suffix <;> simp [eq_comm]
  rw [dotted, hprefix]
  split
  next hdot => exact .inl ⟨hdot, rfl⟩
  next hnot => exact .inr ⟨hnot, rfl⟩

theorem dotted_eq_self {suffix : Text} (h : ['.'] <+: suffix) : dotted suffix = suffix := by
  rcases dotted_cases suffix with ⟨-, hsame⟩ | ⟨hnot, -⟩
  · exact hsame
  · exact absurd h hnot

theorem exists_selectedSuffixes (options : Options) (settings : Settings) :
    ∃ chosen,
      [options.extensions, settings.extensions, sourceSuffixes].find? (· ≠ []) = some chosen ∧
        selectedSuffixes options settings = chosen.map dotted := by
  rw [selectedSuffixes]
  cases hoptions : options.extensions with
  | cons first rest => exact ⟨first :: rest, rfl, rfl⟩
  | nil =>
      cases hsettings : settings.extensions with
      | cons first rest => exact ⟨first :: rest, rfl, rfl⟩
      | nil => exact ⟨sourceSuffixes, rfl, rfl⟩

theorem ResolvedFrom.starts_with_dot
    {config : Config} {options : Options} {settings : Settings}
    (h : config.ResolvedFrom options settings) : ∀ suffix ∈ config.suffixes, ['.'] <+: suffix := by
  obtain ⟨chosen, -, hscanned⟩ := h.suffixes
  generalize config.suffixes = scanned at hscanned
  induction hscanned with
  | nil => simp
  | cons hfirst _ ih =>
      refine List.forall_mem_cons.mpr ⟨?_, ih⟩
      rcases hfirst with ⟨hdot, rfl⟩ | ⟨-, rfl⟩
      · exact hdot
      · exact ⟨_, rfl⟩

/-- Suffixes that were selected before are selected again, whatever the settings. -/
theorem ResolvedFrom.selectedSuffixes_eq
    {config : Config} {options : Options} {settings : Settings}
    (h : config.ResolvedFrom options settings) {again : Options}
    (hagain : again.extensions = config.suffixes) (other : Settings) :
    selectedSuffixes again other = config.suffixes := by
  obtain ⟨chosen, hchosen, hscanned⟩ := h.suffixes
  have hgiven : again.extensions ≠ [] := by
    rw [hagain, ← List.length_pos_iff, ← hscanned.length_eq, List.length_pos_iff]
    simpa using List.find?_some hchosen
  have hdotted : again.extensions.map dotted = again.extensions := by
    rw [hagain]
    calc config.suffixes.map dotted
        = config.suffixes.map id :=
          List.map_congr_left fun suffix hmem => dotted_eq_self (h.starts_with_dot suffix hmem)
      _ = config.suffixes := List.map_id _
  rw [selectedSuffixes, if_pos (by simpa using hgiven), hdotted, hagain]

/-! ## Resolving in place -/

theorem run_resolveInPlace (fs : FileSystem) (config : Config) :
    (resolveInPlace fs).run config =
      match config.resolve fs with
      | .ok resolved => .ok () resolved
      | .error failure => .error failure config := by
  rw [resolve, resolveInPlace]
  cases hsettings : settingsOf fs config.toOptions with
  | ok settings => simp [hsettings, ofExcept]
  | error failure =>
      simp only [hsettings, ofExcept, EStateM.run_bind, EStateM.run_get]
      rfl

/-- The configuration that resolving in place leaves, whether it succeeds or fails. -/
def afterResolving (fs : FileSystem) (config : Config) : Config :=
  match (resolveInPlace fs).run config with
  | .ok _ config => config
  | .error _ config => config

theorem afterResolving_of_ok
    {fs : FileSystem} {config : Config} {settings : Settings}
    (h : settingsOf fs config.toOptions = .ok settings) :
    afterResolving fs config =
      { config with
        exempt := exemptNames config.toOptions settings
        suffixes := selectedSuffixes config.toOptions settings } := by
  rw [afterResolving, run_resolveInPlace, resolve, h]

theorem afterResolving_of_error
    {fs : FileSystem} {config : Config} {failure : Settings.Failure}
    (h : settingsOf fs config.toOptions = .error failure) : afterResolving fs config = config := by
  rw [afterResolving, run_resolveInPlace, resolve, h]

theorem afterResolving_afterResolving (fs : FileSystem) (config : Config) :
    afterResolving fs (afterResolving fs config) = afterResolving fs config := by
  cases h : settingsOf fs config.toOptions with
  | ok settings =>
      rw [afterResolving_of_ok h]
      exact afterResolving_of_ok h
  | error failure => rw [afterResolving_of_error h, afterResolving_of_error h]

theorem resolvedFrom_afterResolving
    {fs : FileSystem} {config : Config} {settings : Settings}
    (h : settingsOf fs config.toOptions = .ok settings) :
    (afterResolving fs config).ResolvedFrom config.toOptions settings := by
  rw [afterResolving_of_ok h]
  refine ⟨fun name => mem_exemptNames, pairwise_nameSet _, ?_⟩
  obtain ⟨chosen, hchosen, hselected⟩ := exists_selectedSuffixes config.toOptions settings
  refine ⟨chosen, hchosen, ?_⟩
  dsimp only
  rw [hselected, List.forall₂_map_right_iff]
  exact List.forall₂_same.mpr fun suffix _ => dotted_cases suffix

end Config

/-! ## Histories -/

inductive ConfigStep where
  | setAllow (names : List Text)
  | setExtensions (suffixes : List Text)
  | setConfig (path : Option Path)
  | change (change : FileSystem.Change)
  | resolve

/-- A configuration together with the tree it is resolved against. -/
structure ConfigSession where
  tree : FileSystem
  config : Config

namespace ConfigSession

def after (session : ConfigSession) : ConfigStep → ConfigSession
  | .setAllow names => { session with config.allow := names }
  | .setExtensions suffixes => { session with config.extensions := suffixes }
  | .setConfig path => { session with config.config := path }
  | .change change => { session with tree := session.tree.apply change }
  | .resolve => { session with config := session.config.afterResolving session.tree }

def run (tree : FileSystem) (options : Options) (steps : List ConfigStep) : ConfigSession :=
  steps.foldl after ⟨tree, .ofOptions options⟩

def settings (session : ConfigSession) : Except Settings.Failure Settings :=
  Config.settingsOf session.tree session.config.toOptions

def Resolves (session : ConfigSession) : Prop :=
  ∃ config, (Config.resolveInPlace session.tree).run session.config = .ok () config

theorem resolves_iff {session : ConfigSession} :
    session.Resolves ↔ ∃ settings, session.settings = .ok settings := by
  rw [Resolves, Config.run_resolveInPlace, Config.resolve, settings]
  cases Config.settingsOf session.tree session.config.toOptions <;> simp

variable {tree : FileSystem} {options : Options} {before later : List ConfigStep}

theorem run_concat (tree : FileSystem) (options : Options) (steps : List ConfigStep)
    (step : ConfigStep) :
    run tree options (steps ++ [step]) = (run tree options steps).after step := by
  simp [run]

/-- No resolution among the later steps succeeds. -/
def NoneResolves (tree : FileSystem) (options : Options) (before later : List ConfigStep) : Prop :=
  ∀ middle rest, later = middle ++ .resolve :: rest →
    ¬(run tree options (before ++ middle)).Resolves

theorem NoneResolves.nil : NoneResolves tree options before [] := by
  intro middle rest h
  simp at h

theorem NoneResolves.concat
    (h : NoneResolves tree options before later) {step : ConfigStep}
    (hstep : step = .resolve → ¬(run tree options (before ++ later)).Resolves) :
    NoneResolves tree options before (later ++ [step]) := by
  intro middle rest hlater
  rcases List.eq_nil_or_concat rest with rfl | ⟨rest, last, rfl⟩
  · obtain ⟨rfl, hresolve⟩ := List.append_inj' hlater rfl
    exact hstep (List.cons.inj hresolve).1
  · rw [List.concat_eq_append, ← List.cons_append, ← List.append_assoc] at hlater
    exact h middle rest (List.append_inj' hlater rfl).1

/-- The two resolved fields belong to the last resolution that succeeded. -/
def HoldsLastResolution (tree : FileSystem) (options : Options) (steps : List ConfigStep) : Prop :=
  (NoneResolves tree options [] steps ∧
      (run tree options steps).config.exempt = [] ∧ (run tree options steps).config.suffixes = []) ∨
    ∃ before later settings, steps = before ++ .resolve :: later ∧
      (run tree options before).settings = .ok settings ∧
      NoneResolves tree options (before ++ [.resolve]) later ∧
      (run tree options steps).config.ResolvedFrom
        (run tree options before).config.toOptions settings

/-- A step that is not a successful resolution leaves both fields alone. -/
theorem after_of_not_resolves
    {session : ConfigSession} {step : ConfigStep} (h : step = .resolve → ¬session.Resolves) :
    (session.after step).config.exempt = session.config.exempt ∧
      (session.after step).config.suffixes = session.config.suffixes := by
  cases step with
  | setAllow names => exact ⟨rfl, rfl⟩
  | setExtensions suffixes => exact ⟨rfl, rfl⟩
  | setConfig path => exact ⟨rfl, rfl⟩
  | change change => exact ⟨rfl, rfl⟩
  | resolve =>
      have hfails := mt resolves_iff.mpr (h rfl)
      cases hsettings : session.settings with
      | ok settings => exact absurd ⟨settings, hsettings⟩ hfails
      | error failure =>
          rw [after, Config.afterResolving_of_error hsettings]
          exact ⟨rfl, rfl⟩

theorem HoldsLastResolution.of_not_resolves
    {steps : List ConfigStep} (h : HoldsLastResolution tree options steps) {step : ConfigStep}
    (hstep : step = .resolve → ¬(run tree options steps).Resolves) :
    HoldsLastResolution tree options (steps ++ [step]) := by
  obtain ⟨hexempt, hsuffixes⟩ := after_of_not_resolves hstep
  rw [← run_concat] at hexempt hsuffixes
  rcases h with ⟨hnone, hnames, hlist⟩ | ⟨before, later, settings, rfl, hsettings, hnone, hresolved⟩
  · exact .inl ⟨hnone.concat hstep, hexempt.trans hnames, hsuffixes.trans hlist⟩
  · refine .inr ⟨before, later ++ [step], settings, by simp, hsettings, hnone.concat ?_, ?_⟩
    · simpa using hstep
    · obtain ⟨hmem, hascending, hchosen⟩ := hresolved
      refine ⟨?_, ?_, ?_⟩
      · rwa [hexempt]
      · rwa [hexempt]
      · rwa [hsuffixes]

theorem HoldsLastResolution.step
    {steps : List ConfigStep} (h : HoldsLastResolution tree options steps) (step : ConfigStep) :
    HoldsLastResolution tree options (steps ++ [step]) := by
  by_cases hresolves : step = .resolve ∧ (run tree options steps).Resolves
  · obtain ⟨rfl, hresolves⟩ := hresolves
    obtain ⟨settings, hsettings⟩ := resolves_iff.mp hresolves
    refine .inr ⟨steps, [], settings, rfl, hsettings, .nil, ?_⟩
    rw [run_concat]
    exact Config.resolvedFrom_afterResolving hsettings
  · exact h.of_not_resolves fun hstep hresolve => hresolves ⟨hstep, hresolve⟩

theorem holdsLastResolution_run (tree : FileSystem) (options : Options) (steps : List ConfigStep) :
    HoldsLastResolution tree options steps := by
  induction steps using List.reverseRecOn with
  | nil => exact .inl ⟨.nil, rfl, rfl⟩
  | append_singleton steps step ih => exact ih.step step

/-- Once a resolution has succeeded, giving the selected suffixes as options selects them
again, whatever happened since. -/
theorem suffixes_setExtensions_resolve
    {steps : List ConfigStep}
    (hresolved : ∃ before later, steps = before ++ .resolve :: later ∧
      (run tree options before).Resolves) :
    (run tree options (steps ++
        [.setExtensions (run tree options steps).config.suffixes, .resolve])).config.suffixes =
      (run tree options steps).config.suffixes := by
  rcases holdsLastResolution_run tree options steps with
    ⟨hnone, -, -⟩ | ⟨before, later, settings, -, -, -, hfrom⟩
  · obtain ⟨before, later, hsteps, hresolves⟩ := hresolved
    exact absurd hresolves (hnone before later hsteps)
  · rw [← List.singleton_append, ← List.append_assoc, run_concat, run_concat]
    generalize hsession : (run tree options steps).after
      (.setExtensions (run tree options steps).config.suffixes) = session
    have hextensions : session.config.extensions = (run tree options steps).config.suffixes := by
      rw [← hsession, after]
    have hsuffixes : session.config.suffixes = (run tree options steps).config.suffixes := by
      rw [← hsession, after]
    cases h : Config.settingsOf session.tree session.config.toOptions with
    | ok settings =>
        rw [after, Config.afterResolving_of_ok h]
        exact hfrom.selectedSuffixes_eq hextensions settings
    | error failure => rw [after, Config.afterResolving_of_error h, hsuffixes]

/-- At every point of every history: the resolved fields belong to the last resolution that
succeeded, a resolution that fails leaves the configuration as it was, one that succeeds
changes nothing but the resolved fields, resolving twice is resolving once, and the selected
suffixes given as options are selected again. -/
theorem resolution_history (tree : FileSystem) (options : Options) (steps : List ConfigStep) :
    HoldsLastResolution tree options steps ∧
      (match (Config.resolveInPlace (run tree options steps).tree).run
          (run tree options steps).config with
        | .ok _ resolved => resolved.toOptions = (run tree options steps).config.toOptions
        | .error _ left => left = (run tree options steps).config) ∧
      run tree options (steps ++ [.resolve, .resolve]) = run tree options (steps ++ [.resolve]) ∧
      ((∃ before later, steps = before ++ .resolve :: later ∧
          (run tree options before).Resolves) →
        (run tree options (steps ++
            [.setExtensions (run tree options steps).config.suffixes, .resolve])).config.suffixes =
          (run tree options steps).config.suffixes) := by
  refine ⟨holdsLastResolution_run tree options steps, ?_, ?_, suffixes_setExtensions_resolve⟩
  · rw [Config.run_resolveInPlace, Config.resolve]
    cases Config.settingsOf (run tree options steps).tree (run tree options steps).config.toOptions
    · rfl
    · rfl
  · rw [← List.singleton_append, ← List.append_assoc, run_concat, run_concat, after, after,
      Config.afterResolving_afterResolving]

/-- Suffixes are given with and without a dot, and resolved. -/
def dotlessSteps : List ConfigStep :=
  [.setExtensions ["mts".toList, ".cts".toList], .resolve]

theorem resolution_history_dotlessSteps :
    HoldsLastResolution ⟨.nil, [], trivial⟩ .default dotlessSteps ∧
      (run ⟨.nil, [], trivial⟩ .default dotlessSteps).config.suffixes =
        [".mts".toList, ".cts".toList] :=
  ⟨(resolution_history _ _ _).1, by decide +kernel⟩

end ConfigSession

end DeadExports
