import DeadExports.CommandLine
import DeadExports.Proofs.Findings
import DeadExports.Proofs.OptionReading
import DeadExports.Proofs.ReportReading

/-!
# What a run of the command writes

The command checks with the options that its words are read as, and writes the findings and a
summary of the result. The findings go through a buffer. It is flushed before the summary is
written, so a run that ends at once with a failure has written all of them
(`CommandLine.outcome_checked`, for outputs of any kind).

Two switches matter only after the check: one leaves out the summary, the other turns findings
into a failure. Leaving their words out of an accepted command line changes no other option, so
what is written to standard output stays the same.

A word that is left out made the reader record the option in front of it. Without the word
that option stays pending until the next one comes up, so the two readings are compared by what
their states settle to and not state by state.
-/

namespace DeadExports

/-! ## Words that do not concern the check -/

namespace Options

/-- The words of the switches that matter only after the check. -/
def asideWords : List Bytes :=
  ["--fail-on-unused", "--quiet", "-q"].map Bytes.ofString

def Draft.bare (draft : Draft) : Draft :=
  { draft with failOnUnused := false, quiet := false }

theorem asideWords_eq : asideWords = Switch.failOnUnused.words ++ Switch.quiet.words := rfl

theorem IsNoSwitch.notMem_asideWords {word : Bytes} (h : IsNoSwitch word) : word ∉ asideWords := by
  rw [asideWords_eq, List.mem_append, not_or]
  exact ⟨h .failOnUnused, h .quiet⟩

theorem Draft.record_bare (draft : Draft) (option : Valued) (value : Bytes) :
    draft.bare.record option value = (draft.record option value).map Draft.bare := by
  have hset {α : Type} (recorded : Except Problem α) (set : α → Draft) :
      (recorded.map fun a => (set a).bare) = (recorded.map set).map Draft.bare := by
    cases recorded <;> rfl
  cases option with
  | root => exact hset _ fun root => { draft with root }
  | allow => exact hset _ fun allow => { draft with allow }
  | extension => exact hset _ fun extensions => { draft with extensions }
  | config => exact hset _ fun config => { draft with config }

theorem Draft.turnOn_bare
    {draft next : Draft} {switch : Switch} {word : Bytes} (hword : word ∈ switch.words)
    (hturn : draft.turnOn switch = .ok next) :
    word ∈ asideWords ∧ next.bare = draft.bare ∨
      word ∉ asideWords ∧ draft.bare.turnOn switch = .ok next.bare := by
  cases switch with
  | gitignore =>
      obtain rfl := List.mem_singleton.mp hword
      refine .inr ⟨by decide, ?_⟩
      rw [turnOn] at hturn ⊢
      split at hturn
      next => cases hturn
      next hoff =>
        cases hturn
        exact if_neg hoff
  | failOnUnused =>
      refine .inl ⟨asideWords_eq ▸ List.mem_append_left _ hword, ?_⟩
      rw [turnOn] at hturn
      split at hturn <;> cases hturn
      rfl
  | quiet =>
      refine .inl ⟨asideWords_eq ▸ List.mem_append_right _ hword, ?_⟩
      rw [turnOn] at hturn
      split at hturn <;> cases hturn
      rfl
  | help => cases hturn

/-- One state comes from another by turning the switches off. When a value is waited for, this
holds of the states themselves, otherwise of what they settle to. -/
structure State.Bares (state bare : State) : Prop where
  settles : bare.settle = state.settle.map Draft.bare
  waits : ∀ option, state.pending = some ⟨option, none⟩ →
    bare = ⟨state.draft.bare, some ⟨option, none⟩⟩

theorem State.Bares.of_settled
    {draft : Draft} {bare : State} (h : bare.settle = .ok draft.bare) :
    State.Bares ⟨draft, none⟩ bare where
  settles := h
  waits option hoption := by cases hoption

theorem State.Bares.settle_eq
    {state bare : State} {draft : Draft} (h : State.Bares state bare)
    (hsettle : state.settle = .ok draft) : bare.settle = .ok draft.bare := by
  rw [h.settles, hsettle]
  rfl

theorem IsNoSwitch.filter_cons {word : Bytes} (h : IsNoSwitch word) (words : List Bytes) :
    (word :: words).filter (· ∉ asideWords) = word :: words.filter (· ∉ asideWords) :=
  List.filter_cons_of_pos (by simpa using h.notMem_asideWords)

/-- Without the words of these switches, the same is read with them off. -/
theorem Reads.bare
    {state bare : State} {words : List Bytes} {final : Draft}
    (h : Reads state words final) (hbare : State.Bares state bare) :
    Reads bare (words.filter (· ∉ asideWords)) final.bare := by
  induction h generalizing bare with
  | done hsettle => exact .done (hbare.settle_eq hsettle)
  | separator hsettle =>
      rw [isNoSwitch_separator.filter_cons]
      exact .separator (hbare.settle_eq hsettle)
  | switch hword hsettle hturn hrest ih =>
      -- A word that is left out settles the state; without it the other state stays unsettled.
      rcases Draft.turnOn_bare hword hturn with ⟨haside, hnext⟩ | ⟨hkept, hnext⟩
      · rw [List.filter_cons_of_neg (by simpa using haside)]
        apply ih
        apply State.Bares.of_settled
        rw [hbare.settle_eq hsettle, hnext]
      · rw [List.filter_cons_of_pos (by simpa using hkept)]
        exact .switch hword (hbare.settle_eq hsettle) hnext (ih (.of_settled rfl))
  | @attached _ draft next _ option value _ hsettle hrecord hrest ih =>
      have hnext : draft.bare.record option value = .ok next.bare := by
        rw [Draft.record_bare, hrecord]
        rfl
      rw [(isNoSwitch_attached option value).filter_cons]
      exact .attached (hbare.settle_eq hsettle) hnext (ih (.of_settled rfl))
  | @named _ draft _ option _ hsettle hrest ih =>
      rw [(isNoSwitch_word option).filter_cons]
      apply Reads.named (hbare.settle_eq hsettle)
      apply ih
      refine ⟨rfl, fun other hpending => ?_⟩
      cases hpending
      rfl
  | @value draft _ option value _ hplain hrest ih =>
      -- Here the states themselves have to agree: a value is recorded with the option in front.
      obtain rfl := hbare.waits option rfl
      rw [(isNoSwitch_of_plain hplain).filter_cons]
      apply Reads.value hplain
      apply ih
      refine ⟨Draft.record_bare draft option value, fun other hpending => ?_⟩
      cases hpending

def bare (options : Options) : Options :=
  { options with failOnUnused := false, quiet := false }

/-- Accepted command lines that differ only in these words have the same other options. -/
theorem bare_eq_of_filter_eq
    {words others : List Bytes} {options again : Options}
    (hwords : parse words = .ok options) (hothers : parse others = .ok again)
    (hsame : others.filter (· ∉ asideWords) = words.filter (· ∉ asideWords)) :
    again.bare = options.bare := by
  have hempty : State.Bares ⟨.empty, none⟩ ⟨.empty, none⟩ := .of_settled rfl
  obtain ⟨draft, hdraft, rfl⟩ := parse_eq_ok_iff.mp hwords
  obtain ⟨other, hother, rfl⟩ := parse_eq_ok_iff.mp hothers
  have hfirst := readWords_eq_ok_iff.mpr (hdraft.bare hempty)
  have hsecond := readWords_eq_ok_iff.mpr (hother.bare hempty)
  rw [hsame, hfirst, Except.ok.injEq, Reading.options.injEq] at hsecond
  calc
    other.options.bare = other.bare.options := rfl
    _ = draft.bare.options := by rw [hsecond]
    _ = draft.options.bare := rfl

end Options

theorem runCheck_bare (fs : FileSystem) (options : Options) :
    runCheck fs (.ofOptions options.bare) = runCheck fs (.ofOptions options) := by
  have hsettings :
      Config.settingsOf fs (Config.ofOptions options.bare).toOptions =
        Config.settingsOf fs (Config.ofOptions options).toOptions := rfl
  rw [runCheck, runCheck, Config.resolve, Config.resolve, hsettings]
  cases Config.settingsOf fs (Config.ofOptions options).toOptions with
  | error failure => rfl
  | ok settings => rfl

/-! ## What is done -/

namespace CommandLine

/-- The name of the check hands the words behind it on to the reader of its options. -/
theorem readRequest_check (words : List Bytes) :
    readRequest (checkName :: words) = readCheck words := by
  have hcommand :
      Options.commandAt? programVocabulary ⟨.empty, none⟩ checkName = some .check := by decide
  rw [readRequest, Options.readWords.eq_def]
  simp only [hcommand]

theorem execute_check
    {words : List Bytes} {options : Options} (h : Options.parse words = .ok options)
    (fs : FileSystem) :
    execute fs (checkName :: words) = .checked options (runCheck fs (.ofOptions options)) := by
  rw [execute, readRequest_check, readCheck, h]

/-! ## What is written -/

def outputMessage (error : SinkError) : Bytes :=
  Text.encode (Fatal.output error).text

section Outputs

variable {streams : Streams} {α : Type} {next : Unit → EStateM Fatal Streams α}

theorem toOut_bind (write : BufferedSink → BufferedSink × Option SinkError) :
    (toOut write >>= next) streams =
      match write streams.out with
      | (out, none) => next () { streams with out }
      | (out, some error) => .error (.output error) { streams with out } := by
  simp only [bind, EStateM.bind, toOut]
  rcases write streams.out with ⟨out, _ | error⟩ <;> rfl

theorem toErr_bind (write : Sink → Sink × Option SinkError) :
    (toErr write >>= next) streams =
      match write streams.err with
      | (err, none) => next () { streams with err }
      | (err, some error) => .error (.output error) { streams with err } := by
  simp only [bind, EStateM.bind, toErr]
  rcases write streams.err with ⟨err, _ | error⟩ <;> rfl

end Outputs

/-- What a run with the result of a check leaves behind, for outputs of any kind: the buffer in
front of standard output cannot be told, neither when the run returns nor when it ends at once. -/
theorem outcome_checked
    (terminal : Terminal) (stats : RunStats) (options : Options) (check : CheckRun) :
    (Execution.checked options (.ok check)).outcome terminal stats =
      match writeReport terminal.stdout check.result.findings with
      | (out, some error) => ⟨1, out, terminal.stderr.take (outputMessage error)⟩
      | (out, none) =>
          match
            if options.quiet then (terminal.stderr, none)
            else writeSummary terminal.stderr terminal.colored check.result stats with
          | (err, some error) => ⟨1, out, err.take (outputMessage error)⟩
          | (err, none) =>
              ⟨if options.failOnUnused && !check.result.findings.isEmpty then 1 else 0,
                out, err⟩ := by
  obtain ⟨left, hwrite, hclose, hleft⟩ :=
    BufferedSink.writeAll_ofSink terminal.stdout (reportFragments check.result.findings)
  have hrun : (ofExcept ((Except.ok check).mapError Fatal.settings) :
      EStateM Fatal Streams CheckRun) = pure check := rfl
  simp only [Execution.outcome, finish, hrun, pure_bind, toOut_bind, writeReport, hwrite]
  cases hout : Writer.writeAll terminal.stdout (reportFragments check.result.findings) with
  | mk out failure =>
    rw [hout] at hclose hleft
    cases failure with
    | some error => simp only [hclose, outputMessage]
    | none =>
      -- Nothing is held back behind the report, so a run that ends at once loses nothing.
      obtain rfl : left = [] := hleft rfl
      have hflush : Writer.flush (⟨[], out⟩ : BufferedSink) = (⟨[], out⟩, none) :=
        BufferedSink.flush_of_writeAll hout
      simp only [hflush]
      generalize (options.failOnUnused && !check.result.findings.isEmpty) = fails
      cases options.quiet with
      | true => cases fails <;> simp [pure, EStateM.pure, hclose]
      | false =>
        simp only [Bool.false_eq_true, if_false, toErr_bind]
        cases writeSummary terminal.stderr terminal.colored check.result stats with
        | mk err failure =>
          cases failure with
          | some error => simp only [hclose, outputMessage]
          | none => cases fails <;> simp [pure, EStateM.pure, hclose]

theorem outcome_checked_error
    (terminal : Terminal) (stats : RunStats) (options : Options) (failure : Settings.Failure) :
    (Execution.checked options (.error failure)).outcome terminal stats =
      ⟨1, terminal.stdout, terminal.stderr.take (Text.encode (Fatal.settings failure).text)⟩ := by
  have hclose : (BufferedSink.ofSink terminal.stdout).close = terminal.stdout :=
    Sink.take_nil _
  have hfinish (streams : Streams) :
      finish terminal.colored stats options (.error failure) streams =
        .error (.settings failure) streams := rfl
  simp only [Execution.outcome, hfinish, hclose]

theorem outcome_checked_unlimited
    (colored : Bool) (stats : RunStats) (options : Options) (check : CheckRun) :
    (Execution.checked options (.ok check)).outcome (.unlimited colored) stats =
      ⟨if options.failOnUnused && !check.result.findings.isEmpty then 1 else 0,
        (writeReport Sink.unlimited check.result.findings).1,
        if options.quiet then .unlimited
        else (writeSummary Sink.unlimited colored check.result stats).1⟩ := by
  have hall (fragments : List Bytes) :
      ∃ out, Writer.writeAll Sink.unlimited fragments = (out, none) :=
    ⟨_, Sink.writeAll_of_room_eq_none rfl fragments⟩
  obtain ⟨out, hout⟩ : ∃ out, writeReport Sink.unlimited check.result.findings = (out, none) :=
    hall _
  obtain ⟨err, herr⟩ :
      ∃ err, writeSummary Sink.unlimited colored check.result stats = (err, none) :=
    hall _
  rw [outcome_checked]
  simp only [Terminal.unlimited, hout, herr]
  cases options.quiet with
  | true => rfl
  | false => rfl

/-- Standard output gets the report of the check and nothing else. -/
theorem stdout_run_check
    {words : List Bytes} {options : Options} (h : Options.parse words = .ok options)
    (fs : FileSystem) (terminal : Terminal) (stats : RunStats) :
    (run fs terminal stats (checkName :: words)).stdout =
      match runCheck fs (.ofOptions options) with
      | .error _ => terminal.stdout
      | .ok check => (writeReport terminal.stdout check.result.findings).1 := by
  rw [run, execute_check h]
  cases runCheck fs (.ofOptions options) with
  | error failure => rw [outcome_checked_error]
  | ok check =>
    rw [outcome_checked]
    dsimp only
    rcases writeReport terminal.stdout check.result.findings with ⟨out, _ | error⟩
    · dsimp only
      split <;> rfl
    · rfl

theorem isOn_iff_of_parse
    {words : List Bytes} {options : Options} (h : Options.parse words = .ok options) :
    (options.quiet = true ↔ Bytes.ofString "--quiet" ∈ words ∨ Bytes.ofString "-q" ∈ words) ∧
      (options.failOnUnused = true ↔ Bytes.ofString "--fail-on-unused" ∈ words) := by
  obtain ⟨draft, hdraft, rfl⟩ := Options.parse_eq_ok_iff.mp h
  have hquiet := hdraft.isOn_iff .quiet
  have hfail := hdraft.isOn_iff .failOnUnused
  have hoff : ∀ switch, Options.Draft.empty.isOn switch = false := by
    intro switch
    cases switch <;> rfl
  simp only [hoff, Bool.false_eq_true, false_or, Options.Switch.words, List.mem_cons,
    List.not_mem_nil, or_false, and_or_left, exists_or, exists_eq_right] at hquiet hfail
  exact ⟨hquiet, hfail⟩

/-! ## The texts -/

/-- A text between the codes that set and reset how a terminal shows it. -/
def shown (colored : Bool) (code text : String) : String :=
  if colored then s!"\x1b[{code}m{text}\x1b[0m" else text

/-- The line that sums up a check. The number of findings is green when there are none and
yellow otherwise. -/
def summaryLine (colored : Bool) (result : CheckResult) (stats : RunStats) : String :=
  let bullet := shown colored "94" "●"
  let count (number : Nat) := shown colored "36" (toString number)
  let elapsed := count stats.elapsedMs
  let files := count result.filesScanned
  let exports := count result.exportsFound
  let unused :=
    shown colored (if result.findings = [] then "1;32" else "1;33")
      (toString result.findings.length)
  let threads := count stats.threads
  s!"{bullet} Finished in {elapsed}ms on {files} files " ++
    s!"({exports} exports, {unused} unused, using {threads} threads)."

theorem toList_shown (emphasis : Emphasis) (colored : Bool) (text : String) :
    (shown colored (String.ofList emphasis.code) text).toList =
      emphasis.apply colored text.toList := by
  cases colored <;> simp [shown, Emphasis.apply, toString]

theorem toList_summaryLine (colored : Bool) (result : CheckResult) (stats : RunStats) :
    (summaryLine colored result stats).toList =
      Emphasis.bullet.apply colored ['●'] ++ " Finished in ".toList ++
      Emphasis.count.apply colored (digits stats.elapsedMs) ++ "ms on ".toList ++
      Emphasis.count.apply colored (digits result.filesScanned) ++ " files (".toList ++
      Emphasis.count.apply colored (digits result.exportsFound) ++ " exports, ".toList ++
      (if result.findings.length = 0 then Emphasis.allUsed else .someUnused).apply colored
        (digits result.findings.length) ++ " unused, using ".toList ++
      Emphasis.count.apply colored (digits stats.threads) ++ " threads).".toList := by
  have hplain (text : String) : toString text = text := rfl
  have hdigits (number : Nat) : (toString number).toList = digits number := by
    rw [Nat.toString_eq_ofList_toDigits, String.toList_ofList, digits]
  have hbullet : "94" = String.ofList Emphasis.bullet.code := rfl
  have hcount : "36" = String.ofList Emphasis.count.code := rfl
  have hunused : (if result.findings = [] then "1;32" else "1;33") =
      String.ofList
        (if result.findings.length = 0 then Emphasis.allUsed else .someUnused).code := by
    cases result.findings <;> rfl
  have hmark : "●".toList = ['●'] := rfl
  have hfiles : " files (".toList = " files ".toList ++ "(".toList := rfl
  simp only [summaryLine, hplain, hbullet, hcount, hunused, String.toList_append, toList_shown,
    hdigits, hmark, hfiles, List.append_assoc]

theorem summary_eq_line (colored : Bool) (result : CheckResult) (stats : RunStats) :
    summary colored result stats = Bytes.ofString (summaryLine colored result stats ++ "\n") := by
  have hend : " threads).\n".toList = " threads).".toList ++ "\n".toList := rfl
  rw [summary, summaryFragments, flatten_map_encode, Bytes.ofString, String.toList_append,
    toList_summaryLine, hend]
  simp only [List.flatten_cons, List.flatten_nil, List.append_nil, List.append_assoc]

theorem notMem_summaryLine (colored : Bool) (result : CheckResult) (stats : RunStats) :
    '\n' ∉ (summaryLine colored result stats).toList := by
  have hdigits (number : Nat) : '\n' ∉ digits number := fun hmem =>
    absurd (Nat.isDigit_of_mem_toDigits (by decide) (by decide) hmem) (by decide)
  have happly (emphasis : Emphasis) {text : Text} (htext : '\n' ∉ text) :
      '\n' ∉ emphasis.apply colored text := by
    cases colored <;> cases emphasis <;> simp [Emphasis.apply, Emphasis.code, htext]
  have hbullet : '\n' ∉ ['●'] := by decide
  simp [toList_summaryLine, happly _ (hdigits _), happly _ hbullet]

/-! ## The outcome of a check -/

/-- What a run leaves behind that takes everything and has the result of a check: the report of
the findings, the line that sums them up unless it is to be quiet, and a failure if it is told to
fail and there are findings. -/
structure Reports
    (words : List Bytes) (colored : Bool) (stats : RunStats) (result : CheckResult)
    (outcome : Outcome) : Prop where
  stdout_eq : outcome.stdout.written = (writeReport Sink.unlimited result.findings).1.written
  report_eq : outcome.stdout.written =
    Text.encode (result.findings.flatMap fun finding =>
      "UNUSED EXPORT: ".toList ++ finding.name ++ " in ".toList ++ finding.file.display ++ ['\n'])
  stderr_eq : outcome.stderr.written =
    if Bytes.ofString "--quiet" ∈ words ∨ Bytes.ofString "-q" ∈ words then []
    else (writeSummary Sink.unlimited colored result stats).1.written
  summary_eq : (writeSummary Sink.unlimited colored result stats).1.written =
    Bytes.ofString (summaryLine colored result stats ++ "\n")
  single_line : '\n' ∉ (summaryLine colored result stats).toList
  exitCode_eq : outcome.exitCode =
    if Bytes.ofString "--fail-on-unused" ∈ words ∧ result.findings ≠ [] then 1 else 0

/-- For words that are accepted, the command does what the check of their options comes to. If
the settings cannot be resolved, it writes nothing to standard output and fails, otherwise it
reports the result. Command lines that differ only in the two switches for this write the same to
standard output, whatever that is and whether or not it takes everything. -/
theorem run_check_outcome
    {words : List Bytes} {options : Options} (hparse : Options.parse words = .ok options)
    (fs : FileSystem) (colored : Bool) (stats : RunStats) :
    (∀ failure, Config.resolve fs (.ofOptions options) = .error failure →
      (run fs (.unlimited colored) stats (checkName :: words)).stdout.written = [] ∧
        (run fs (.unlimited colored) stats (checkName :: words)).exitCode = 1) ∧
    (∀ resolved, Config.resolve fs (.ofOptions options) = .ok resolved →
      ∃ check, runCheck fs (.ofOptions options) = .ok check ∧
        Reports words colored stats check.result
          (run fs (.unlimited colored) stats (checkName :: words))) ∧
    ∀ others again, Options.parse others = .ok again →
      others.filter (· ∉ Options.asideWords) = words.filter (· ∉ Options.asideWords) →
      ∀ here there hereStats thereStats, Terminal.stdout here = Terminal.stdout there →
        (run fs here hereStats (checkName :: others)).stdout =
          (run fs there thereStats (checkName :: words)).stdout := by
  obtain ⟨hquiet, hfail⟩ := isOn_iff_of_parse hparse
  refine ⟨?_, ?_, ?_⟩
  · intro failure hfailure
    have hrun : runCheck fs (.ofOptions options) = .error failure := by
      rw [runCheck, hfailure]
    rw [run, execute_check hparse, hrun, outcome_checked_error]
    exact ⟨rfl, rfl⟩
  · intro resolved hresolved
    obtain ⟨check, hcheck, -⟩ := exists_runCheck_of_resolve hresolved
    refine ⟨check, hcheck, ?_⟩
    rw [run, execute_check hparse, hcheck, outcome_checked_unlimited]
    refine {
      stdout_eq := rfl
      report_eq := ?_
      stderr_eq := ?_
      summary_eq := ?_
      single_line := notMem_summaryLine colored check.result stats
      exitCode_eq := ?_ }
    · exact (report_eq_written _).symm.trans (report_eq_encode _)
    · exact (apply_ite Sink.written _ _ _).trans (if_congr hquiet rfl rfl)
    · rw [← summary_eq_written, summary_eq_line]
    · refine if_congr ?_ rfl rfl
      rw [Bool.and_eq_true, hfail]
      simp
  · intro others again hothers hsame here there hereStats thereStats hout
    have hbare := Options.bare_eq_of_filter_eq hparse hothers hsame
    rw [stdout_run_check hparse, stdout_run_check hothers, ← runCheck_bare fs again, hbare,
      runCheck_bare, hout]

/-- Words for a scan of the current directory that is to fail quietly. -/
def quietWords : List Bytes :=
  ["--root=.", "--fail-on-unused", "-q"].map Bytes.ofString

def quietOptions : Options :=
  { Options.default with root := Path.here, failOnUnused := true, quiet := true }

/-- Words for the same scan, which is to do neither. -/
def plainWords : List Bytes :=
  [Bytes.ofString "--root=."]

def plainOptions : Options :=
  { Options.default with root := Path.here }

theorem run_check_outcome_quietWords :
    (run greekTree (.unlimited true) ⟨7, 2⟩ (checkName :: quietWords)).stdout.written =
        Bytes.ofString "UNUSED EXPORT: alpha in ./a.ts\nUNUSED EXPORT: gamma in ./c.ts\n" ∧
      (run greekTree (.unlimited true) ⟨7, 2⟩ (checkName :: quietWords)).stderr.written = [] ∧
      (run greekTree (.unlimited true) ⟨7, 2⟩ (checkName :: quietWords)).exitCode = 1 ∧
      (run greekTree (.unlimited true) ⟨0, 1⟩ (checkName :: plainWords)).stdout =
        (run greekTree (.unlimited true) ⟨7, 2⟩ (checkName :: quietWords)).stdout ∧
      (run greekTree (.unlimited true) ⟨0, 1⟩ (checkName :: plainWords)).stderr.written =
        Bytes.ofString
          ("\x1b[94m●\x1b[0m Finished in \x1b[36m0\x1b[0mms on \x1b[36m4\x1b[0m files " ++
            "(\x1b[36m4\x1b[0m exports, \x1b[1;33m2\x1b[0m unused, " ++
            "using \x1b[36m1\x1b[0m threads).\n") := by
  have hparse : Options.parse quietWords = .ok quietOptions := by decide +kernel
  have hplain : Options.parse plainWords = .ok plainOptions := by decide +kernel
  have hrun : runCheck greekTree (.ofOptions quietOptions) = .ok greekRun :=
    eq_ok_of_toOption (by decide +kernel)
  obtain ⟨-, hchecked, hsame⟩ := run_check_outcome hparse greekTree true ⟨7, 2⟩
  obtain ⟨-, hspoken, -⟩ := run_check_outcome hplain greekTree true ⟨0, 1⟩
  obtain ⟨check, hcheck, hreports⟩ := hchecked _ rfl
  obtain rfl : check = greekRun := Except.ok.inj (hcheck.symm.trans hrun)
  obtain ⟨again, hagain, hspoke⟩ := hspoken _ rfl
  obtain rfl : again = greekRun := Except.ok.inj (hagain.symm.trans hrun)
  have hquiet : Bytes.ofString "--quiet" ∈ quietWords ∨ Bytes.ofString "-q" ∈ quietWords := by
    decide
  have hspeaks : ¬(Bytes.ofString "--quiet" ∈ plainWords ∨ Bytes.ofString "-q" ∈ plainWords) := by
    decide
  have hfails :
      Bytes.ofString "--fail-on-unused" ∈ quietWords ∧ greekRun.result.findings ≠ [] := by
    decide
  have hstderr := hspoke.stderr_eq
  rw [if_neg hspeaks] at hstderr
  exact ⟨hreports.report_eq.trans (by decide), hreports.stderr_eq.trans (if_pos hquiet),
    hreports.exitCode_eq.trans (if_pos hfails),
    hsame _ _ hplain (by decide) _ _ ⟨0, 1⟩ ⟨7, 2⟩ rfl,
    hstderr.trans (hspoke.summary_eq.trans (by decide +kernel))⟩

end CommandLine

end DeadExports
