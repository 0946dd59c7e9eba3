import DeadExports.Proofs.CommentRemoval
import DeadExports.Proofs.DamagedText
import DeadExports.Proofs.Findings
import DeadExports.Proofs.PartialWrites

/-!
# Reading a report

A report can be read back without knowing the findings. Only a line feed in a path can start a
line that belongs to no finding: a displayed path has a line feed exactly where its spelling has
one, whatever else in it is broken. On a line of its own the name ends at the first ` in `,
because no identifier has a blank, and all that follows is the path, even if it looks like
another report line.
-/

namespace DeadExports

/-- A name that an export can have. -/
structure IsIdentifier (name : Text) : Prop where
  ne_nil : name ≠ []
  identChars : ∀ c ∈ name, isIdentChar c = true

theorem isIdentifier_of_mem_findings
    {fs : FileSystem} {config : Config} {run : CheckRun} (hrun : runCheck fs config = .ok run) :
    ∀ finding ∈ run.result.findings, IsIdentifier finding.name := by
  intro finding hfinding
  obtain ⟨resolved, -, hresult⟩ := exists_resolve_of_runCheck hrun
  rw [hresult, CheckResult.findings_specified] at hfinding
  obtain ⟨file, -, hmem⟩ := List.mem_flatMap.mp hfinding
  obtain ⟨record, hrecord, rfl⟩ := List.mem_map.mp hmem
  obtain ⟨_, _, occurrence, hspells, hname⟩ :=
    exists_spells_of_mem_exportsOf (List.mem_filter.mp hrecord).1
  obtain ⟨_, -, _, -, hne, hchars, -⟩ := hspells
  rw [Finding.name, ← hname]
  exact ⟨hne, hchars⟩

/-! ## Readers -/

section Searching

variable {α : Type} [DecidableEq α]

/-- What stands before the first occurrence of `mark` and what follows it. -/
def cutAround? (mark : List α) : List α → Option (List α × List α)
  | [] => if mark.isEmpty then some ([], []) else none
  | a :: whole =>
      match after? mark (a :: whole) with
      | some back => some ([], back)
      | none => (cutAround? mark whole).map fun (front, back) => (a :: front, back)

/-- A mark is found where its first element first occurs. -/
theorem cutAround?_append
    {first : α} {front : List α} (h : first ∉ front) (mark back : List α) :
    cutAround? (first :: mark) (front ++ first :: mark ++ back) = some (front, back) := by
  induction front with
  | nil =>
      have hafter : after? (first :: mark) (first :: mark ++ back) = some back :=
        after?_eq_some_iff.mpr rfl
      rw [List.nil_append, List.cons_append, cutAround?, ← List.cons_append, hafter]
  | cons a front ih =>
      rw [List.mem_cons, not_or] at h
      have hafter : after? (first :: mark) (a :: (front ++ first :: mark ++ back)) = none := by
        rw [after?, if_neg h.1]
      rw [List.cons_append, List.cons_append, cutAround?, hafter, ih h.2]
      rfl

end Searching

/-- The name and the path on a report line. -/
def readReportLine? (line : Text) : Option (Text × Text) :=
  (after? lineStart line).bind (cutAround? lineMiddle)

/-- The names and paths of a report. Nothing may follow its last line feed. -/
def readReport? (bytes : Bytes) : Option (List (Text × Text)) :=
  (Utf8.decode? bytes).bind fun text =>
    if (cutAt '\n' text).getLast? = some [] then
      (cutAt '\n' text).dropLast.mapM readReportLine?
    else none

/-! ## Report lines -/

/-- A report line without its line feed. -/
def Finding.line (finding : Finding) : Text :=
  lineStart ++ finding.name ++ lineMiddle ++ finding.file.display

def reportText (findings : List Finding) : Text :=
  findings.flatMap fun finding => finding.line ++ ['\n']

theorem reportText_cons (finding : Finding) (findings : List Finding) :
    reportText (finding :: findings) = finding.line ++ '\n' :: reportText findings := by
  simp [reportText]

theorem flatten_map_encode (fragments : List Text) :
    (fragments.map Text.encode).flatten = Text.encode fragments.flatten := by
  induction fragments with
  | nil => rfl
  | cons fragment fragments ih =>
      rw [List.map_cons, List.flatten_cons, List.flatten_cons, ih, Text.encode_append]

theorem report_eq_encode (findings : List Finding) :
    report findings = Text.encode (reportText findings) := by
  have hlines : (findings.flatMap Finding.fragments).flatten = reportText findings := by
    induction findings with
    | nil => rfl
    | cons finding findings ih =>
        rw [List.flatMap_cons, List.flatten_append, ih, reportText_cons]
        simp [Finding.fragments, Finding.line]
  rw [report, reportFragments, flatten_map_encode, hlines]

/-! ## Line feeds -/

namespace Utf8

/-- Decoding loses no line feed and brings in none. -/
theorem ReadsBytewise.lineFeed_mem_iff
    {bytes : Bytes} {text : Text} (h : ReadsBytewise bytes text) :
    '\n' ∈ text ↔ 0x0A ∈ bytes := by
  induction h with
  | nil => simp
  | keep c _ ih =>
      have hchar : (0x0A : UInt8) ∈ Text.encode [c] ↔ '\n' ∈ [c] :=
        Text.mem_encode_iff (c := '\n') (by decide)
      have hencode : Text.encode [c] = String.utf8EncodeChar c := by
        simp [Text.encode]
      rw [List.mem_append, List.mem_cons, ih, ← hencode, hchar, List.mem_singleton]
  | @drop byte rest text hnone _ ih =>
      have hbyte : byte ≠ 0x0A := by
        rintro rfl
        exact hnone '\n' (List.prefix_append [0x0A] rest)
      rw [List.mem_cons, ih]
      simp [hbyte.symm]

theorem lineFeed_mem_decodeReplacing_iff (bytes : Bytes) :
    '\n' ∈ decodeReplacing bytes ↔ 0x0A ∈ bytes := by
  have hdropping : '\n' ∈ decodeDropping bytes ↔ 0x0A ∈ bytes :=
    (decodeDropping_eq_iff.mp rfl).lineFeed_mem_iff
  rw [← hdropping, decodeReplacing, decodeDropping, List.mem_map, List.mem_filterMap]
  constructor
  · rintro ⟨piece, hpiece, hvalue⟩
    cases piece with
    | none => cases hvalue
    | some c => exact ⟨some c, hpiece, congrArg some hvalue⟩
  · rintro ⟨piece, hpiece, hvalue⟩
    exact ⟨piece, hpiece, by rw [show piece = some '\n' from hvalue]; rfl⟩

end Utf8

theorem lineFeed_mem_line_iff {finding : Finding} (hname : IsIdentifier finding.name) :
    '\n' ∈ finding.line ↔ 0x0A ∈ finding.file := by
  have hstart : '\n' ∉ lineStart := by decide
  have hmiddle : '\n' ∉ lineMiddle := by decide
  have hinner : '\n' ∉ finding.name := by
    intro hmem
    exact absurd (hname.identChars _ hmem) (by decide)
  simp [Finding.line, hstart, hmiddle, hinner, Path.display, Utf8.lineFeed_mem_decodeReplacing_iff]

theorem length_lines_append_cons (front rest : Bytes) :
    (Bytes.lines (front ++ 0x0A :: rest)).length =
      front.count 0x0A + 1 + (Bytes.lines rest).length := by
  induction front using lines_induction (0x0A : UInt8) with
  | last line hline =>
      rw [Bytes.lines_append_cons hline, List.length_cons, List.count_eq_zero.mpr hline]
      omega
  | more line more hline ih =>
      rw [List.append_assoc, List.cons_append, Bytes.lines_append_cons hline, List.length_cons, ih,
        List.count_append, List.count_cons_self, List.count_eq_zero.mpr hline]
      omega

/-- A report has at least one line for each finding, and no more than that if no path has a line
feed. -/
theorem length_lines_report
    {findings : List Finding} (hnames : ∀ finding ∈ findings, IsIdentifier finding.name) :
    findings.length ≤ (Bytes.lines (report findings)).length ∧
      ((Bytes.lines (report findings)).length = findings.length ↔
        ∀ finding ∈ findings, 0x0A ∉ finding.file) := by
  induction findings with
  | nil => simp [report_eq_encode, reportText, Bytes.lines_eq_nil_iff.mpr]
  | cons finding findings ih =>
      obtain ⟨hname, hrest⟩ := List.forall_mem_cons.mp hnames
      obtain ⟨hle, hiff⟩ := ih hrest
      have hlines : (Bytes.lines (report (finding :: findings))).length =
          (Text.encode finding.line).count 0x0A + 1 + (Bytes.lines (report findings)).length := by
        rw [report_eq_encode, reportText_cons, Settings.encode_line_append,
          length_lines_append_cons, report_eq_encode]
      have hfile : (Text.encode finding.line).count 0x0A = 0 ↔ 0x0A ∉ finding.file := by
        rw [List.count_eq_zero, ← lineFeed_mem_line_iff hname]
        exact not_congr (Text.mem_encode_iff (c := '\n') (by decide))
      rw [List.forall_mem_cons, ← hiff, ← hfile, hlines, List.length_cons]
      omega

/-! ## Reading back -/

theorem cutAt_reportText
    {findings : List Finding} (h : ∀ finding ∈ findings, '\n' ∉ finding.line) :
    cutAt '\n' (reportText findings) = findings.map Finding.line ++ [[]] := by
  induction findings with
  | nil => rfl
  | cons finding findings ih =>
      obtain ⟨hline, hrest⟩ := List.forall_mem_cons.mp h
      rw [reportText_cons, cutAt_append_cons, cutAt_of_notMem hline, ih hrest]
      rfl

theorem readReportLine?_line {finding : Finding} (hname : IsIdentifier finding.name) :
    readReportLine? finding.line = some (finding.name, finding.file.display) := by
  have hblank : ' ' ∉ finding.name := by
    intro hmem
    exact absurd (hname.identChars _ hmem) (by decide)
  have hstart : after? lineStart finding.line =
      some (finding.name ++ lineMiddle ++ finding.file.display) :=
    after?_eq_some_iff.mpr (by simp [Finding.line])
  rw [readReportLine?, hstart, Option.bind_some]
  exact cutAround?_append hblank _ _

theorem mapM_readReportLine?
    {findings : List Finding} (hnames : ∀ finding ∈ findings, IsIdentifier finding.name) :
    (findings.map Finding.line).mapM readReportLine? =
      some (findings.map fun finding => (finding.name, finding.file.display)) := by
  induction findings with
  | nil => rfl
  | cons finding findings ih =>
      obtain ⟨hname, hrest⟩ := List.forall_mem_cons.mp hnames
      rw [List.map_cons, List.mapM_cons, readReportLine?_line hname, ih hrest]
      rfl

theorem readReport?_report
    {findings : List Finding} (hnames : ∀ finding ∈ findings, IsIdentifier finding.name)
    (hfiles : ∀ finding ∈ findings, 0x0A ∉ finding.file) :
    readReport? (report findings) =
      some (findings.map fun finding => (finding.name, finding.file.display)) := by
  have hdecoded : Utf8.decode? (report findings) = some (reportText findings) := by
    rw [report_eq_encode, Utf8.decode?, if_pos (Text.isValid_encode _), Text.decodeDropping_encode]
  have hcut : cutAt '\n' (reportText findings) = findings.map Finding.line ++ [[]] := by
    apply cutAt_reportText
    intro finding hfinding
    rw [lineFeed_mem_line_iff (hnames finding hfinding)]
    exact hfiles finding hfinding
  rw [readReport?, hdecoded, Option.bind_some, hcut, List.getLast?_concat, if_pos rfl,
    List.dropLast_concat, mapM_readReportLine? hnames]

/-- The report of findings whose names are identifiers is UTF-8. It has one line for each
finding exactly when no path has a line feed, and then names and displayed paths can be read
from it, so that findings with the same report agree in them. -/
theorem report_readable
    {findings : List Finding} (hnames : ∀ finding ∈ findings, IsIdentifier finding.name) :
    ((writeReport Sink.unlimited findings).1.written = report findings ∧
      (writeReport Sink.unlimited findings).2 = none) ∧
    Utf8.isValid (report findings) = true ∧
    ((Bytes.lines (report findings)).length = findings.length ↔
      ∀ finding ∈ findings, 0x0A ∉ finding.file) ∧
    ((∀ finding ∈ findings, 0x0A ∉ finding.file) →
      readReport? (report findings) =
          some (findings.map fun finding => (finding.name, finding.file.display)) ∧
        ∀ others : List Finding, (∀ other ∈ others, IsIdentifier other.name) →
          (∀ other ∈ others, 0x0A ∉ other.file) → report others = report findings →
            others.map (fun other => (other.name, other.file.display)) =
              findings.map fun finding => (finding.name, finding.file.display)) := by
  refine ⟨⟨(report_eq_written findings).symm, ?_⟩, ?_, (length_lines_report hnames).2, ?_⟩
  · rw [writeReport, Sink.writeAll_of_room_eq_none rfl]
    rfl
  · rw [report_eq_encode]
    exact Text.isValid_encode _
  intro hfiles
  have hread := readReport?_report hnames hfiles
  refine ⟨hread, ?_⟩
  intro others hotherNames hotherFiles hsame
  have hother := readReport?_report hotherNames hotherFiles
  rw [hsame, hread, Option.some.injEq] at hother
  exact hother.symm

/-- A path that looks like the end of a line and a whole further one, and one that is not
UTF-8. -/
def disguisedFindings : List Finding :=
  [⟨"a".toList, Bytes.ofString "b in c UNUSED EXPORT: d in e"⟩, ⟨"in".toList, [0xFF, 0x20, 0xE2]⟩]

theorem report_readable_disguisedFindings :
    (∀ finding ∈ disguisedFindings, IsIdentifier finding.name) ∧
      (∀ finding ∈ disguisedFindings, 0x0A ∉ finding.file) ∧
      readReport? (report disguisedFindings) =
        some [("a".toList, "b in c UNUSED EXPORT: d in e".toList),
          ("in".toList, ['\uFFFD', ' ', '\uFFFD'])] := by
  have hnames : ∀ finding ∈ disguisedFindings, IsIdentifier finding.name := by
    rw [disguisedFindings, List.forall_mem_cons, List.forall_mem_singleton]
    exact ⟨⟨by decide, List.all_eq_true.mp (by decide)⟩,
      ⟨by decide, List.all_eq_true.mp (by decide)⟩⟩
  have hfiles : ∀ finding ∈ disguisedFindings, 0x0A ∉ finding.file := by decide
  obtain ⟨-, -, -, hread⟩ := report_readable hnames
  refine ⟨hnames, hfiles, (hread hfiles).1.trans ?_⟩
  decide

end DeadExports
