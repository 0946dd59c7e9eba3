import DeadExports.Options.Parser

/-!
# Command lines that are accepted

Reading the words of a command line ends in a draft of the options or in the first problem.
`Options.Reads` describes the command lines that are accepted as derivations, one rule for
each kind of word, with every word spelled out. `readWords_eq_ok_iff` ties it to the reader.

An accepted command line has few forms: no letter but `q` can be given, a value stands behind
the option that it belongs to, and a word that looks like an option is one. So whether a
switch is on can be seen from the words alone.
-/

namespace DeadExports.Options

/-! ## Spellings -/

def Word.spelling : Word → Bytes
  | .separator => [dash, dash]
  | .long name none => dash :: dash :: name
  | .long name (some value) => dash :: dash :: name ++ equalsSign :: value
  | .letters cluster => dash :: cluster
  | .plain word => word

theorem takeWhile_append_valuePart (word : Bytes) :
    word.takeWhile (· ≠ equalsSign) ++ (valuePart word).elim [] (equalsSign :: ·) = word := by
  induction word with
  | nil => rfl
  | cons byte rest ih =>
      rw [valuePart]
      by_cases hbyte : byte = equalsSign
      · simp [hbyte]
      · rw [if_neg hbyte, List.takeWhile_cons_of_pos (by simpa using hbyte), List.cons_append, ih]

theorem Word.spelling_ofBytes (word : Bytes) : (Word.ofBytes word).spelling = word := by
  rw [Word.ofBytes]
  cases hlong : after? [dash, dash] word with
  | some rest =>
      rw [after?_eq_some_iff.mp hlong]
      cases rest with
      | nil => rfl
      | cons byte rest =>
          have hparts := takeWhile_append_valuePart (byte :: rest)
          cases hvalue : valuePart (byte :: rest) with
          | none => simpa [Word.spelling, hvalue] using hparts
          | some value => simpa [Word.spelling, hvalue] using hparts
  | none =>
      cases hshort : after? [dash] word with
      | none => rfl
      | some cluster =>
          cases cluster with
          | nil => rfl
          | cons letter letters => exact (after?_eq_some_iff.mp hshort).symm

theorem Vocabulary.name_of_named?
    {κ : Type} {vocabulary : Vocabulary κ} {name : Bytes} {named : Named}
    (h : vocabulary.named? name = some named) : named.name = name := by
  rw [Vocabulary.named?] at h
  simpa using List.find?_some h

theorem named?_name (named : Named) : checkVocabulary.named? named.name = some named := by
  cases named with
  | valued option => cases option <;> decide
  | switch toggled => cases toggled <;> decide

theorem switch?_eq_some_iff {letter : UInt8} {switch : Switch} :
    checkVocabulary.switch? letter = some switch ↔ switch.letter? = some letter := by
  simp only [Vocabulary.switch?, checkVocabulary, List.findSome?_cons, List.findSome?_nil]
  cases switch <;> grind [Switch.letter?]

@[simp]
theorem commandAt?_check (state : State) (word : Bytes) :
    commandAt? checkVocabulary state word = none := by
  rw [commandAt?]
  split <;> rfl

def Switch.words : Switch → List Bytes
  | .gitignore => [Bytes.ofString "--gitignore"]
  | .failOnUnused => [Bytes.ofString "--fail-on-unused"]
  | .quiet => [Bytes.ofString "--quiet", Bytes.ofString "-q"]
  | .help => [Bytes.ofString "--help", Bytes.ofString "-h"]

/-- An option whose value is the next word. -/
def Valued.word (option : Valued) : Bytes :=
  dash :: dash :: (Named.valued option).name

/-- An option together with its value. -/
def Valued.attached (option : Valued) (value : Bytes) : Bytes :=
  dash :: dash :: (Named.valued option).name ++ equalsSign :: value

theorem Valued.ofBytes_word (option : Valued) :
    Word.ofBytes option.word = .long (Named.valued option).name none := by
  cases option <;> decide

theorem Valued.ofBytes_attached (option : Valued) (value : Bytes) :
    Word.ofBytes (option.attached value) = .long (Named.valued option).name (some value) := by
  cases option <;> rfl

theorem Switch.mem_words_iff {switch : Switch} {word : Bytes} :
    word ∈ switch.words ↔
      Word.ofBytes word = .long (Named.switch switch).name none ∨
        ∃ letter, switch.letter? = some letter ∧ Word.ofBytes word = .letters [letter] := by
  constructor
  · intro h
    cases switch with
    | gitignore =>
        obtain rfl := List.mem_singleton.mp h
        exact .inl (by decide)
    | failOnUnused =>
        obtain rfl := List.mem_singleton.mp h
        exact .inl (by decide)
    | quiet =>
        rcases List.mem_cons.mp h with rfl | h
        · exact .inl (by decide)
        obtain rfl := List.mem_singleton.mp h
        exact .inr ⟨0x71, rfl, by decide⟩
    | help =>
        rcases List.mem_cons.mp h with rfl | h
        · exact .inl (by decide)
        obtain rfl := List.mem_singleton.mp h
        exact .inr ⟨0x68, rfl, by decide⟩
  · rintro (h | ⟨letter, hletter, h⟩)
    · rw [← Word.spelling_ofBytes word, h]
      cases switch <;> decide
    · rw [← Word.spelling_ofBytes word, h]
      cases switch with
      | gitignore => cases hletter
      | failOnUnused => cases hletter
      | quiet =>
          obtain rfl : 0x71 = letter := Option.some.inj hletter
          decide
      | help =>
          obtain rfl : 0x68 = letter := Option.some.inj hletter
          decide

/-! ## Derivations -/

/-- From a state on, words are accepted and lead to a draft. -/
inductive Reads : State → List Bytes → Draft → Prop
  | done {state : State} {draft : Draft} (hsettle : state.settle = .ok draft) :
      Reads state [] draft
  | separator {state : State} {draft : Draft} (hsettle : state.settle = .ok draft) :
      Reads state [[dash, dash]] draft
  | switch
      {state : State} {draft next final : Draft} {switch : Switch} {word : Bytes}
      {words : List Bytes}
      (hword : word ∈ switch.words) (hsettle : state.settle = .ok draft)
      (hturn : draft.turnOn switch = .ok next) (hrest : Reads ⟨next, none⟩ words final) :
      Reads state (word :: words) final
  | attached
      {state : State} {draft next final : Draft} {option : Valued} {value : Bytes}
      {words : List Bytes}
      (hsettle : state.settle = .ok draft) (hrecord : draft.record option value = .ok next)
      (hrest : Reads ⟨next, none⟩ words final) :
      Reads state (option.attached value :: words) final
  | named
      {state : State} {draft final : Draft} {option : Valued} {words : List Bytes}
      (hsettle : state.settle = .ok draft)
      (hrest : Reads ⟨draft, some ⟨option, none⟩⟩ words final) :
      Reads state (option.word :: words) final
  | value
      {draft final : Draft} {option : Valued} {value : Bytes} {words : List Bytes}
      (hplain : Word.ofBytes value = .plain value)
      (hrest : Reads ⟨draft, some ⟨option, some value⟩⟩ words final) :
      Reads ⟨draft, some ⟨option, none⟩⟩ (value :: words) final

theorem Switch.eq_of_letter? {switch : Switch} {letter : UInt8} (h : switch.letter? = some letter) :
    switch = .quiet ∨ switch = .help := by
  cases switch with
  | gitignore => cases h
  | failOnUnused => cases h
  | quiet => exact .inl rfl
  | help => exact .inr rfl

/-- Once a switch is turned on by its letter, no letter can follow. -/
theorem exists_error_turnOn_of_letter
    {letter other : UInt8} {switch again : Switch} {draft next : Draft}
    (hletter : switch.letter? = some letter) (hother : again.letter? = some other)
    (hturn : draft.turnOn switch = .ok next) : ∃ problem, next.turnOn again = .error problem := by
  -- Asking for help ends the reading, so the first letter was that of the other switch.
  have hquiet : next.quiet = true := by
    rcases Switch.eq_of_letter? hletter with rfl | rfl
    · grind [Draft.turnOn]
    · cases hturn
  rcases Switch.eq_of_letter? hother with rfl | rfl
  · exact ⟨_, if_pos hquiet⟩
  · exact ⟨_, rfl⟩

theorem readLetters_eq_ok_iff {state next : State} {letter : UInt8} {letters : Bytes} :
    readLetters checkVocabulary state (letter :: letters) = .ok next ↔
      letters = [] ∧ ∃ switch draft final, Switch.letter? switch = some letter ∧
        state.settle = .ok draft ∧ draft.turnOn switch = .ok final ∧ next = ⟨final, none⟩ := by
  constructor
  · intro h
    rw [readLetters] at h
    cases hletter : checkVocabulary.switch? letter with
    | none => simp [hletter] at h
    | some switch =>
      cases hsettle : state.settle with
      | error problem => simp [hletter, hsettle] at h
      | ok draft =>
        cases hturn : draft.turnOn switch with
        | error problem => simp [hletter, hsettle, hturn] at h
        | ok final =>
          simp only [hletter, hsettle, hturn] at h
          rw [switch?_eq_some_iff] at hletter
          cases letters with
          | nil =>
              rw [readLetters, Except.ok.injEq] at h
              exact ⟨rfl, switch, draft, final, hletter, rfl, hturn, h.symm⟩
          | cons other others =>
              rw [readLetters] at h
              cases hother : checkVocabulary.switch? other with
              | none => simp [hother] at h
              | some again =>
                  obtain ⟨problem, hproblem⟩ :=
                    exists_error_turnOn_of_letter hletter (switch?_eq_some_iff.mp hother) hturn
                  simp [hother, State.settle, hproblem] at h
  · rintro ⟨rfl, switch, draft, final, hletter, hsettle, hturn, rfl⟩
    simp [readLetters, switch?_eq_some_iff.mpr hletter, hsettle, hturn]

section LongNames

variable {state : State} {draft : Draft} (hsettle : state.settle = .ok draft)

include hsettle

theorem readLong_switch
    {switch : Switch} {next : Draft} (hturn : draft.turnOn switch = .ok next) :
    readLong checkVocabulary state (Named.switch switch).name none = .ok ⟨next, none⟩ := by
  simp [readLong, named?_name, hsettle, hturn, bind, Except.bind]

theorem readLong_attached
    {option : Valued} {value : Bytes} {next : Draft}
    (hrecord : draft.record option value = .ok next) :
    readLong checkVocabulary state (Named.valued option).name (some value) =
      .ok ⟨next, none⟩ := by
  simp [readLong, named?_name, hsettle, hrecord, bind, Except.bind]

theorem readLong_named (option : Valued) :
    readLong checkVocabulary state (Named.valued option).name none =
      .ok ⟨draft, some ⟨option, none⟩⟩ := by
  simp [readLong, named?_name, hsettle, bind, Except.bind]

end LongNames

theorem readLong_cases
    {state next : State} {name : Bytes} {value : Option Bytes}
    (h : readLong checkVocabulary state name value = .ok next) :
    ∃ draft, state.settle = .ok draft ∧
      ((∃ switch final, name = (Named.switch switch).name ∧ value = none ∧
          draft.turnOn switch = .ok final ∧ next = ⟨final, none⟩) ∨
        (∃ option given final, name = (Named.valued option).name ∧ value = some given ∧
          draft.record option given = .ok final ∧ next = ⟨final, none⟩) ∨
        ∃ option, name = (Named.valued option).name ∧ value = none ∧
          next = ⟨draft, some ⟨option, none⟩⟩) := by
  cases hnamed : checkVocabulary.named? name with
  | none => simp [readLong, hnamed] at h
  | some named =>
    have hname := Vocabulary.name_of_named? hnamed
    subst hname
    cases hsettle : state.settle with
    | error problem =>
      cases named <;> cases value <;> simp [readLong, hnamed, hsettle, bind, Except.bind] at h
    | ok draft =>
      refine ⟨draft, rfl, ?_⟩
      cases named with
      | switch switch =>
        cases value with
        | some value => simp [readLong, hnamed] at h
        | none =>
          cases hturn : draft.turnOn switch with
          | error problem => simp [readLong, hnamed, hsettle, hturn, bind, Except.bind] at h
          | ok final =>
            have hnext := readLong_switch hsettle hturn
            exact .inl ⟨switch, final, rfl, rfl, hturn, Except.ok.inj (h.symm.trans hnext)⟩
      | valued option =>
        cases value with
        | none =>
          have hnext := readLong_named hsettle option
          exact .inr (.inr ⟨option, rfl, rfl, Except.ok.inj (h.symm.trans hnext)⟩)
        | some given =>
          cases hrecord : draft.record option given with
          | error problem => simp [readLong, hnamed, hsettle, hrecord, bind, Except.bind] at h
          | ok final =>
            have hnext := readLong_attached hsettle hrecord
            exact .inr (.inl
              ⟨option, given, final, rfl, rfl, hrecord, Except.ok.inj (h.symm.trans hnext)⟩)

theorem readPlain_eq_ok_iff {state next : State} {word : Bytes} :
    readPlain checkVocabulary state word = .ok next ↔
      ∃ option, state.pending = some ⟨option, none⟩ ∧
        next = ⟨state.draft, some ⟨option, some word⟩⟩ := by
  rw [readPlain]
  split
  next option hpending => simp [hpending, eq_comm]
  next hnot =>
    simp only [reduceCtorEq, false_iff, not_exists, not_and]
    intro option hpending
    exact absurd hpending (hnot option)

theorem map_options_eq_ok_iff {settled : Except Problem Draft} {final : Draft} :
    settled.map Reading.options = .ok (.options final : Reading Empty) ↔ settled = .ok final := by
  cases settled <;> simp [Except.map]

theorem Reads.of_readWords
    {state : State} {words : List Bytes} {final : Draft}
    (h : readWords checkVocabulary state words = .ok (.options final)) :
    Reads state words final := by
  induction words generalizing state with
  | nil => exact .done (map_options_eq_ok_iff.mp h)
  | cons word words ih =>
    have hspelling := Word.spelling_ofBytes word
    rw [readWords.eq_def] at h
    dsimp only at h
    rw [commandAt?_check] at h
    cases hword : Word.ofBytes word with
    | separator =>
      rw [hword] at h hspelling
      rw [← hspelling]
      cases words with
      | nil => exact .separator (map_options_eq_ok_iff.mp h)
      | cons other others => cases h
    | long name value =>
      cases hnext : readLong checkVocabulary state name value with
      | error problem => simp [hword, hnext] at h
      | ok next =>
        simp only [hword, hnext] at h
        rw [hword] at hspelling
        obtain ⟨draft, hsettle, ⟨switch, final, rfl, rfl, hturn, rfl⟩ |
          ⟨option, given, final, rfl, rfl, hrecord, rfl⟩ | ⟨option, rfl, rfl, rfl⟩⟩ :=
          readLong_cases hnext
        · exact .switch (Switch.mem_words_iff.mpr (.inl hword)) hsettle hturn (ih h)
        · rw [← hspelling]
          exact .attached hsettle hrecord (ih h)
        · rw [← hspelling]
          exact .named hsettle (ih h)
    | letters cluster =>
      rw [hword] at hspelling
      cases hnext : readLetters checkVocabulary state cluster with
      | error problem => simp [hword, hnext] at h
      | ok next =>
        simp only [hword, hnext] at h
        cases cluster with
        | nil =>
          -- A single `-` is read as a plain word.
          subst hspelling
          cases hword
        | cons letter letters =>
          obtain ⟨rfl, switch, draft, final, hletter, hsettle, hturn, rfl⟩ :=
            readLetters_eq_ok_iff.mp hnext
          exact .switch (Switch.mem_words_iff.mpr (.inr ⟨letter, hletter, hword⟩)) hsettle hturn
            (ih h)
    | plain other =>
      cases hnext : readPlain checkVocabulary state other with
      | error problem => simp [hword, hnext] at h
      | ok next =>
        simp only [hword, hnext] at h
        rw [hword] at hspelling
        obtain ⟨option, hpending, rfl⟩ := readPlain_eq_ok_iff.mp hnext
        obtain ⟨draft, pending⟩ := state
        dsimp only at hpending
        rw [hpending]
        cases hspelling
        exact .value hword (ih h)

theorem Reads.readWords_eq
    {state : State} {words : List Bytes} {final : Draft} (h : Reads state words final) :
    readWords checkVocabulary state words = .ok (.options final) := by
  induction h with
  | done hsettle => exact map_options_eq_ok_iff.mpr hsettle
  | separator hsettle =>
    have hword : Word.ofBytes [dash, dash] = .separator := rfl
    rw [readWords.eq_def]
    simp only [commandAt?_check, hword]
    exact map_options_eq_ok_iff.mpr hsettle
  | switch hword hsettle hturn hrest ih =>
    rw [readWords.eq_def]
    rcases Switch.mem_words_iff.mp hword with hlong | ⟨letter, hletter, hcluster⟩
    · simp only [commandAt?_check, hlong, readLong_switch hsettle hturn, ih]
    · have hnext := readLetters_eq_ok_iff.mpr ⟨rfl, _, _, _, hletter, hsettle, hturn, rfl⟩
      simp only [commandAt?_check, hcluster, hnext, ih]
  | attached hsettle hrecord hrest ih =>
    rw [readWords.eq_def]
    simp only [commandAt?_check, Valued.ofBytes_attached, readLong_attached hsettle hrecord, ih]
  | named hsettle hrest ih =>
    rw [readWords.eq_def]
    simp only [commandAt?_check, Valued.ofBytes_word, readLong_named hsettle, ih]
  | value hplain hrest ih =>
    rw [readWords.eq_def]
    simp only [commandAt?_check, hplain, readPlain, ih]

/-- The words that the reader accepts are those that have a derivation. -/
theorem readWords_eq_ok_iff {state : State} {words : List Bytes} {final : Draft} :
    readWords checkVocabulary state words = .ok (.options final) ↔ Reads state words final :=
  ⟨Reads.of_readWords, Reads.readWords_eq⟩

theorem parse_eq_ok_iff {words : List Bytes} {options : Options} :
    parse words = .ok options ↔
      ∃ draft, Reads ⟨.empty, none⟩ words draft ∧ options = draft.options := by
  simp only [← readWords_eq_ok_iff, parse]
  cases readWords checkVocabulary ⟨.empty, none⟩ words with
  | error problem => simp
  | ok reading =>
      cases reading with
      | options draft => simp [eq_comm]
      | command command words => exact command.elim

/-! ## Switches that are on -/

/-- Whether a switch is on; help never is. -/
def Draft.isOn (draft : Draft) : Switch → Bool
  | .gitignore => draft.gitignore
  | .failOnUnused => draft.failOnUnused
  | .quiet => draft.quiet
  | .help => false

theorem Switch.eq_of_mem_words
    {first second : Switch} {word : Bytes}
    (hfirst : word ∈ first.words) (hsecond : word ∈ second.words) : first = second := by
  have hdisjoint : ∀ one other : Switch, one ≠ other → ∀ word ∈ one.words, word ∉ other.words := by
    intro one other
    cases one <;> cases other <;> decide
  exact Decidable.byContradiction fun hne => hdisjoint first second hne word hfirst hsecond

theorem Draft.isOn_turnOn
    {draft next : Draft} {switch : Switch} (h : draft.turnOn switch = .ok next) (other : Switch) :
    next.isOn other = true ↔ draft.isOn other = true ∨ switch = other := by
  cases switch <;> cases other <;> grind [Draft.turnOn, Draft.isOn]

theorem Draft.isOn_record
    {draft next : Draft} {option : Valued} {value : Bytes}
    (h : draft.record option value = .ok next) (switch : Switch) :
    next.isOn switch = draft.isOn switch := by
  have hset {α : Type} {recorded : Except Problem α} {set : α → Draft}
      (hrecorded : recorded.map set = .ok next)
      (hkeeps : ∀ a, (set a).isOn switch = draft.isOn switch) :
      next.isOn switch = draft.isOn switch := by
    cases recorded with
    | error problem => cases hrecorded
    | ok a =>
        cases hrecorded
        exact hkeeps a
  cases option with
  | root => exact hset h fun _ => by cases switch <;> rfl
  | allow => exact hset h fun _ => by cases switch <;> rfl
  | extension => exact hset h fun _ => by cases switch <;> rfl
  | config => exact hset h fun _ => by cases switch <;> rfl

theorem State.isOn_settle
    {state : State} {draft : Draft} (h : state.settle = .ok draft) (switch : Switch) :
    draft.isOn switch = state.draft.isOn switch := by
  rw [State.settle] at h
  split at h
  · cases h
    rfl
  · cases h
  · exact Draft.isOn_record h switch

/-- A word that does not turn anything on. -/
def IsNoSwitch (word : Bytes) : Prop :=
  ∀ switch : Switch, word ∉ switch.words

theorem isNoSwitch_separator : IsNoSwitch [dash, dash] := by
  intro switch
  cases switch <;> decide

theorem isNoSwitch_attached (option : Valued) (value : Bytes) :
    IsNoSwitch (option.attached value) := by
  intro switch h
  rcases Switch.mem_words_iff.mp h with hlong | ⟨letter, -, hletters⟩
  · simp [Valued.ofBytes_attached] at hlong
  · simp [Valued.ofBytes_attached] at hletters

theorem isNoSwitch_word (option : Valued) : IsNoSwitch option.word := by
  intro switch
  cases option <;> cases switch <;> decide

theorem isNoSwitch_of_plain {word : Bytes} (hword : Word.ofBytes word = .plain word) :
    IsNoSwitch word := by
  intro switch h
  rcases Switch.mem_words_iff.mp h with hlong | ⟨letter, -, hletters⟩
  · simp [hword] at hlong
  · simp [hword] at hletters

/-- The switches that are on in the end are those that were on and those whose words are
there. -/
theorem Reads.isOn_iff
    {state : State} {words : List Bytes} {final : Draft} (h : Reads state words final)
    (switch : Switch) :
    final.isOn switch = true ↔
      state.draft.isOn switch = true ∨ ∃ word ∈ words, word ∈ switch.words := by
  induction h with
  | done hsettle => simp [State.isOn_settle hsettle]
  | separator hsettle => simp [State.isOn_settle hsettle, isNoSwitch_separator switch]
  | @switch state draft next final other word words hword hsettle hturn hrest ih =>
    have hother : word ∈ switch.words ↔ other = switch :=
      ⟨Switch.eq_of_mem_words hword, fun heq => heq ▸ hword⟩
    simp only [ih, Draft.isOn_turnOn hturn, State.isOn_settle hsettle, List.mem_cons,
      exists_eq_or_imp, hother, or_assoc]
  | attached hsettle hrecord hrest ih =>
    rw [ih, Draft.isOn_record hrecord, State.isOn_settle hsettle]
    simp [isNoSwitch_attached _ _ switch]
  | named hsettle hrest ih =>
    rw [ih, State.isOn_settle hsettle]
    simp [isNoSwitch_word _ switch]
  | value hplain hrest ih =>
    rw [ih]
    simp [isNoSwitch_of_plain hplain switch]

end DeadExports.Options
