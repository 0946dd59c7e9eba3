import DeadExports.Config
import DeadExports.Proofs.OptionReading
import DeadExports.Proofs.Utf8Encoding
import Mathlib.Data.Bool.Basic
import Mathlib.Data.List.Forall2

/-!
# Command lines that spell out options

The same options can be given by many command lines. A value stands behind an equals sign or is
the next word, a switch may have a letter, the root can be left out when it is the usual one, and
what is given may stand in any order, as long as repeated values keep theirs. The root and the
settings file are any bytes, the repeated values are encoded texts.
`Options.Renders` says that some words give some options in one of these ways. The order is left
open by saying what each option takes from the whole: for every option its values in order, and
for every switch whether it occurs.

Reading takes all these command lines back to the options. A word that gives something does to a
draft what `Draft.give` does, and the draft that is wanted bounds the drafts on the way to it: a
root is never recorded twice because the wanted draft has only one.
-/

namespace DeadExports.Options

/-! ## What a command line gives -/

/-- One thing that a command line gives. -/
inductive Gift where
  | value (option : Valued) (given : Bytes)
  | switch (switch : Switch)
  deriving DecidableEq, Repr

/-- The value that is given to an option. -/
def Gift.valueFor? (option : Valued) : Gift → Option Bytes
  | .value other given => if other = option then some given else none
  | .switch _ => none

/-- The words that give one thing. A value that begins like an option has to be attached. -/
inductive Gift.Spells : Gift → List Bytes → Prop
  | attached (option : Valued) (value : Bytes) :
      Spells (.value option value) [option.attached value]
  | apart (option : Valued) (value : Bytes) (hplain : value.head? ≠ some dash) :
      Spells (.value option value) [option.word, value]
  | switch (switch : Switch) (word : Bytes) (hword : word ∈ switch.words) :
      Spells (.switch switch) [word]

/-- The values of an option in a draft, as they are given. -/
def Draft.values (draft : Draft) : Valued → List Bytes
  | .root => draft.root.toList
  | .allow => draft.allow.map Text.encode
  | .extension => draft.extensions.map Text.encode
  | .config => draft.config.toList

/-- What is given makes up a draft: every option has its values in the order in which they are
given, and a switch is given once if it is on and never if it is off. -/
structure Draft.GivenBy (draft : Draft) (gifts : List Gift) : Prop where
  values : ∀ option, gifts.filterMap (·.valueFor? option) = draft.values option
  switches : ∀ switch, gifts.count (.switch switch) = (draft.isOn switch).toNat

/-- Words give options, in any order and in any spelling. -/
def Renders (options : Options) (words : List Bytes) : Prop :=
  ∃ (draft : Draft) (gifts : List Gift) (groups : List (List Bytes)),
    draft.options = options ∧ draft.GivenBy gifts ∧
      List.Forall₂ Gift.Spells gifts groups ∧ words = groups.flatten

/-! ## One rendering -/

def Gift.longForm : Gift → List Bytes
  | .value option given => [option.attached given]
  | .switch toggled => [dash :: dash :: (Named.switch toggled).name]

theorem Gift.spells_longForm (gift : Gift) : gift.Spells gift.longForm := by
  cases gift with
  | value option given => exact .attached option given
  | switch toggled =>
      have hword : dash :: dash :: (Named.switch toggled).name ∈ toggled.words := by
        cases toggled <;> decide
      exact .switch toggled _ hword

/-- What a draft holds, option by option. -/
def Draft.gifts (draft : Draft) : List Gift :=
  [Valued.root, .allow, .extension, .config].flatMap
      (fun option => (draft.values option).map (.value option)) ++
    ([Switch.gitignore, .failOnUnused, .quiet].filter draft.isOn).map .switch

theorem Draft.givenBy_gifts (draft : Draft) : draft.GivenBy draft.gifts := by
  constructor
  · intro option
    cases option <;> simp [gifts, values, Gift.valueFor?, List.filterMap_append]
  · intro switch
    have hvalues (option : Valued) (values : List Bytes) :
        (values.map (Gift.value option)).count (.switch switch) = 0 := by
      simp [List.count_eq_zero]
    cases switch <;> cases hgitignore : draft.gitignore <;> cases hfail : draft.failOnUnused <;>
      cases hquiet : draft.quiet <;>
        simp [gifts, isOn, hvalues, hgitignore, hfail, hquiet, List.count_append]

theorem exists_renders (draft : Draft) : ∃ words, Renders draft.options words := by
  have hspells : List.Forall₂ Gift.Spells draft.gifts (draft.gifts.map Gift.longForm) := by
    rw [List.forall₂_map_right_iff, List.forall₂_same]
    intro gift _
    exact gift.spells_longForm
  exact ⟨_, draft, draft.gifts, _, rfl, draft.givenBy_gifts, hspells, rfl⟩

/-! ## Giving one thing -/

def Draft.give (draft : Draft) : Gift → Except Problem Draft
  | .value option given => draft.record option given
  | .switch switch => draft.turnOn switch

theorem Word.ofBytes_of_head? {word : Bytes} (h : word.head? ≠ some dash) :
    Word.ofBytes word = .plain word := by
  cases word with
  | nil => rfl
  | cons byte rest =>
      have hne : dash ≠ byte := by
        rintro rfl
        exact h rfl
      simp [Word.ofBytes, after?, hne]

theorem Reads.of_spells
    {gift : Gift} {words more : List Bytes} {state : State} {draft next final : Draft}
    (hspells : gift.Spells words) (hsettle : state.settle = .ok draft)
    (hgive : draft.give gift = .ok next)
    (hmore : ∀ after : State, after.settle = .ok next → Reads after more final) :
    Reads state (words ++ more) final := by
  cases hspells with
  | attached option value =>
      have hrest : Reads ⟨next, none⟩ more final := hmore ⟨next, none⟩ rfl
      exact .attached hsettle hgive hrest
  | apart option value hplain =>
      -- The value waits for the next option before it is recorded.
      have hrest : Reads ⟨draft, some ⟨option, some value⟩⟩ more final := hmore _ hgive
      exact .named hsettle (.value (Word.ofBytes_of_head? hplain) hrest)
  | switch switch word hword =>
      have hrest : Reads ⟨next, none⟩ more final := hmore ⟨next, none⟩ rfl
      exact .switch hword hsettle hgive hrest

/-- Words that give one thing after the other are read as giving all of them. -/
theorem Reads.of_forall₂_spells
    {gifts : List Gift} {groups : List (List Bytes)} {state : State} {draft final : Draft}
    (hspells : List.Forall₂ Gift.Spells gifts groups) (hsettle : state.settle = .ok draft)
    (hgive : gifts.foldlM Draft.give draft = .ok final) :
    Reads state groups.flatten final := by
  induction hspells generalizing state draft with
  | nil =>
      have hsame : draft = final := by
        simpa [pure, Except.pure] using hgive
      exact .done (hsame ▸ hsettle)
  | @cons gift words gifts groups hfirst _ ih =>
      rw [List.foldlM_cons] at hgive
      rw [List.flatten_cons]
      cases hnext : draft.give gift with
      | error problem => simp [hnext, bind, Except.bind] at hgive
      | ok next =>
          simp only [hnext, bind, Except.bind] at hgive
          exact Reads.of_spells hfirst hsettle hnext fun after hafter => ih hafter hgive

/-! ## What a gift changes -/

theorem recordOnce_of_none {option : Valued} {value : Bytes} (h : value ≠ []) :
    recordOnce option none value = .ok (some value) := by
  simp [recordOnce, h]

theorem recordText_encode (given : List Text) (text : Text) :
    recordText given (Text.encode text) = .ok (given ++ [text]) := by
  rw [recordText, Utf8.decode?, Text.isValid_encode, if_pos rfl, Text.decodeDropping_encode]

/-- A value can be recorded if its option may be repeated and it is a text, or if its option has
no value yet and it is not empty. It becomes the last value of the option. -/
theorem Draft.exists_record
    {draft : Draft} {option : Valued} {value : Bytes}
    (honce : option = .root ∨ option = .config → draft.values option = [] ∧ value ≠ [])
    (htext : option = .allow ∨ option = .extension → ∃ text, value = Text.encode text) :
    ∃ next, draft.record option value = .ok next ∧ ∀ other,
      next.values other =
        draft.values other ++ ((Gift.value option value).valueFor? other).toList := by
  cases option with
  | root =>
      obtain ⟨hfree, hvalue⟩ := honce (.inl rfl)
      have hnone : draft.root = none := by
        simpa [values] using hfree
      refine ⟨{ draft with root := some value }, ?_, fun other => ?_⟩
      · rw [record, hnone, recordOnce_of_none hvalue]
        rfl
      · cases other <;> simp [values, Gift.valueFor?, hnone]
  | config =>
      obtain ⟨hfree, hvalue⟩ := honce (.inr rfl)
      have hnone : draft.config = none := by
        simpa [values] using hfree
      refine ⟨{ draft with config := some value }, ?_, fun other => ?_⟩
      · rw [record, hnone, recordOnce_of_none hvalue]
        rfl
      · cases other <;> simp [values, Gift.valueFor?, hnone]
  | allow =>
      obtain ⟨text, rfl⟩ := htext (.inl rfl)
      refine ⟨{ draft with allow := draft.allow ++ [text] }, ?_, fun other => ?_⟩
      · rw [record, recordText_encode]
        rfl
      · cases other <;> simp [values, Gift.valueFor?]
  | extension =>
      obtain ⟨text, rfl⟩ := htext (.inr rfl)
      refine ⟨{ draft with extensions := draft.extensions ++ [text] }, ?_, fun other => ?_⟩
      · rw [record, recordText_encode]
        rfl
      · cases other <;> simp [values, Gift.valueFor?]

theorem Draft.values_turnOn
    {draft next : Draft} {switch : Switch} (h : draft.turnOn switch = .ok next) (option : Valued) :
    next.values option = draft.values option := by
  cases switch <;> cases option <;> grind [Draft.turnOn, Draft.values]

theorem Draft.exists_turnOn
    {draft : Draft} {switch : Switch} (hoff : draft.isOn switch = false) (hhelp : switch ≠ .help) :
    ∃ next, draft.turnOn switch = .ok next := by
  cases switch with
  | gitignore => exact ⟨_, if_neg (by simpa [isOn] using hoff)⟩
  | failOnUnused => exact ⟨_, if_neg (by simpa [isOn] using hoff)⟩
  | quiet => exact ⟨_, if_neg (by simpa [isOn] using hoff)⟩
  | help => exact absurd rfl hhelp

/-- A draft is determined by the values of its options and the switches that are on. -/
theorem Draft.ext_values
    {draft other : Draft} (hvalues : ∀ option, draft.values option = other.values option)
    (hswitches : ∀ switch, draft.isOn switch = other.isOn switch) : draft = other := by
  have honce {first second : Option Path} (h : first.toList = second.toList) : first = second := by
    rw [← Option.head?_toList (o := first), h, Option.head?_toList]
  have htexts : Function.Injective (List.map Text.encode) :=
    List.map_injective_iff.mpr Text.encode_injective
  have hroot : draft.root = other.root := honce (hvalues .root)
  have hconfig : draft.config = other.config := honce (hvalues .config)
  have hallow : draft.allow = other.allow := htexts (hvalues .allow)
  have hextensions : draft.extensions = other.extensions := htexts (hvalues .extension)
  have hgitignore : draft.gitignore = other.gitignore := hswitches .gitignore
  have hfail : draft.failOnUnused = other.failOnUnused := hswitches .failOnUnused
  have hquiet : draft.quiet = other.quiet := hswitches .quiet
  obtain ⟨root, allow, extensions, config, gitignore, failOnUnused, quiet⟩ := draft
  simp_all

/-! ## Giving everything -/

/-- What is still to be given leads from one draft to another. -/
structure Draft.Completes (draft : Draft) (gifts : List Gift) (final : Draft) : Prop where
  values : ∀ option,
    final.values option = draft.values option ++ gifts.filterMap (·.valueFor? option)
  switches : ∀ switch,
    (final.isOn switch).toNat = (draft.isOn switch).toNat + gifts.count (.switch switch)

/-- The options that can be given once have at most one value, and it is not empty. -/
structure Draft.IsProper (draft : Draft) : Prop where
  root_ne : draft.root ≠ some []
  config_ne : draft.config ≠ some []

/-- Nothing stands before or behind the only value of an option that is given once. -/
theorem Draft.IsProper.of_values_eq
    {draft : Draft} (h : draft.IsProper) {option : Valued} {front back : List Bytes} {value : Bytes}
    (honce : option = .root ∨ option = .config)
    (hvalues : draft.values option = front ++ value :: back) : front = [] ∧ value ≠ [] := by
  have honly (given : Option Path) (hne : given ≠ some [])
      (hgiven : given.toList = front ++ value :: back) : front = [] ∧ value ≠ [] := by
    cases given with
    | none => simp at hgiven
    | some only =>
        obtain ⟨rfl, hrest⟩ | ⟨rest, rfl, hrest⟩ := List.cons_eq_append_iff.mp hgiven
        · cases hrest
          exact ⟨rfl, by simpa using hne⟩
        · simp at hrest
  rcases honce with rfl | rfl
  · exact honly draft.root h.root_ne hvalues
  · exact honly draft.config h.config_ne hvalues

theorem Draft.exists_text_of_mem_values
    {draft : Draft} {option : Valued} {value : Bytes}
    (hrepeated : option = .allow ∨ option = .extension) (hvalue : value ∈ draft.values option) :
    ∃ text, value = Text.encode text := by
  rcases hrepeated with rfl | rfl
  · obtain ⟨text, -, rfl⟩ := List.mem_map.mp hvalue
    exact ⟨text, rfl⟩
  · obtain ⟨text, -, rfl⟩ := List.mem_map.mp hvalue
    exact ⟨text, rfl⟩

/-- On the way to a proper draft the next thing can be given. -/
theorem Draft.Completes.exists_give
    {draft final : Draft} {gift : Gift} {gifts : List Gift}
    (h : draft.Completes (gift :: gifts) final) (hfinal : final.IsProper) :
    ∃ next, draft.give gift = .ok next ∧ next.Completes gifts final := by
  cases gift with
  | value option value =>
      have hvalues := h.values option
      rw [List.filterMap_cons_some (b := value) (by simp [Gift.valueFor?])] at hvalues
      have hmem : value ∈ final.values option := by
        simp [hvalues]
      obtain ⟨next, hnext, hgrown⟩ := draft.exists_record
        (fun honce => hfinal.of_values_eq honce hvalues)
        (fun hrepeated => exists_text_of_mem_values hrepeated hmem)
      refine ⟨next, hnext, ?_, ?_⟩
      · intro other
        have hvalues := h.values other
        rw [hgrown other, List.append_assoc, hvalues, List.filterMap_cons]
        cases (Gift.value option value).valueFor? other <;> rfl
      · intro switch
        have hswitches := h.switches switch
        rwa [List.count_cons_of_ne (by simp), ← isOn_record hnext switch] at hswitches
  | switch switch =>
      have hcount := h.switches switch
      rw [List.count_cons_self] at hcount
      have hbound : (final.isOn switch).toNat ≤ 1 := Bool.toNat_le _
      have hoff : draft.isOn switch = false := by
        rw [← Bool.toNat_eq_zero]
        omega
      have hon : final.isOn switch = true := by
        rw [← Bool.toNat_eq_one]
        omega
      have hhelp : switch ≠ .help := by
        rintro rfl
        cases hon
      obtain ⟨next, hnext⟩ := exists_turnOn hoff hhelp
      refine ⟨next, hnext, ?_, ?_⟩
      · intro option
        have hvalues := h.values option
        rwa [List.filterMap_cons_none (by rfl), ← values_turnOn hnext option] at hvalues
      · intro other
        have hswitches := h.switches other
        have hturned := isOn_turnOn hnext other
        by_cases hsame : switch = other
        · subst hsame
          have hnow : next.isOn switch = true := hturned.mpr (.inr rfl)
          rw [hcount, hoff, hnow]
          simp [Nat.add_comm]
        · have hkept : next.isOn other = draft.isOn other := by
            rw [Bool.eq_iff_iff, hturned]
            simp [hsame]
          rwa [List.count_cons_of_ne (by simpa using hsame), ← hkept] at hswitches

theorem Draft.Completes.foldlM_give
    {draft final : Draft} {gifts : List Gift} (h : draft.Completes gifts final)
    (hfinal : final.IsProper) : gifts.foldlM Draft.give draft = .ok final := by
  induction gifts generalizing draft with
  | nil =>
      have hsame : draft = final := by
        apply ext_values
        · intro option
          have hvalues := h.values option
          simpa using hvalues.symm
        · intro switch
          have hswitches := h.switches switch
          rw [List.count_nil, Nat.add_zero] at hswitches
          rw [← Bool.ofNat_toNat (draft.isOn switch), ← hswitches, Bool.ofNat_toNat]
      rw [List.foldlM_nil, hsame]
      rfl
  | cons gift gifts ih =>
      obtain ⟨next, hnext, hrest⟩ := h.exists_give hfinal
      rw [List.foldlM_cons, hnext]
      exact ih hrest

theorem Draft.GivenBy.completes {draft : Draft} {gifts : List Gift} (h : draft.GivenBy gifts) :
    Draft.empty.Completes gifts draft := by
  constructor
  · intro option
    rw [h.values option]
    cases option <;> rfl
  · intro switch
    rw [h.switches switch]
    cases switch <;> simp [Draft.isOn, Draft.empty]

/-! ## Reading what is given -/

/-- However options are spelled out, reading gives them back, and nothing is resolved yet. -/
theorem parse_of_renders
    {options : Options} {words : List Bytes} (hroot : options.root ≠ [])
    (hconfig : options.config ≠ some []) (h : Renders options words) :
    (parse words).map Config.ofOptions = .ok { options with exempt := [], suffixes := [] } := by
  obtain ⟨draft, gifts, groups, rfl, hgiven, hspells, rfl⟩ := h
  have hproper : draft.IsProper := by
    constructor
    · intro hempty
      exact hroot (by simp [Draft.options, hempty])
    · intro hempty
      exact hconfig (by simp [Draft.options, hempty])
  have hgive : gifts.foldlM Draft.give Draft.empty = .ok draft :=
    hgiven.completes.foldlM_give hproper
  have hreads : Reads ⟨Draft.empty, none⟩ groups.flatten draft :=
    Reads.of_forall₂_spells hspells rfl hgive
  have hparse : parse groups.flatten = .ok draft.options :=
    parse_eq_ok_iff.mpr ⟨draft, hreads, rfl⟩
  rw [hparse]
  rfl

/-- A root with an equals sign and a byte that belongs to no text. -/
def tornRoot : Path := [0x61, equalsSign, 0xFF]

/-- Words in a mixed order, with values that look like options, hold an equals sign, are empty or
are no texts. -/
def mixedWords : List Bytes :=
  ["--allow=--root", "--extension", "mts", "-q", "--root"].map Bytes.ofString ++
    tornRoot :: ["--allow", "", "--config=-"].map Bytes.ofString

/-- What they give. -/
def mixedOptions : Options where
  root := tornRoot
  allow := ["--root".toList, []]
  extensions := ["mts".toList]
  config := some [dash]
  gitignore := false
  failOnUnused := false
  quiet := true

theorem parse_of_renders_mixedWords :
    mixedOptions.root ≠ [] ∧ mixedOptions.config ≠ some [] ∧ Renders mixedOptions mixedWords ∧
      (parse mixedWords).map Config.ofOptions =
        .ok { mixedOptions with exempt := [], suffixes := [] } := by
  have hroot : mixedOptions.root ≠ [] := by decide
  have hconfig : mixedOptions.config ≠ some [] := by decide
  have hrenders : Renders mixedOptions mixedWords := by
    refine ⟨⟨some tornRoot, ["--root".toList, []], ["mts".toList], some [dash], false, false, true⟩,
      [.value .allow (Bytes.ofString "--root"), .value .extension (Bytes.ofString "mts"),
        .switch .quiet, .value .root tornRoot, .value .allow [], .value .config [dash]],
      _, rfl, ⟨?_, ?_⟩,
      .cons (.attached _ _) <| .cons (.apart _ _ (by decide)) <|
        .cons (.switch _ (Bytes.ofString "-q") (by decide)) <| .cons (.apart _ _ (by decide)) <|
          .cons (.apart _ _ (by decide)) <| .cons (.attached _ _) .nil, by decide⟩
    · intro option
      cases option <;> decide
    · intro switch
      cases switch <;> decide
  exact ⟨hroot, hconfig, hrenders, parse_of_renders hroot hconfig hrenders⟩

end DeadExports.Options
