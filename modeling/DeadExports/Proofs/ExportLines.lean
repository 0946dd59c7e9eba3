import DeadExports.Proofs.Occurrences
import DeadExports.Proofs.PathBelow

/-!
# Exports line by line

A declaration consists of words and spaces. Any other character separates the text before it
from the text after it: no declaration reaches across, the search stands outside of every
match when it comes to the separator, and an identifier that ends there is the same with and
without it. The exports of a text can therefore be put together from those of its parts.
Everything follows from one equation on a text with a separator in it.

A line feed is such a character, so the exports of a file can be found line by line.
-/

namespace DeadExports

namespace ExportForm

/-- A character that no declaration of the form contains. -/
structure IsSeparatedBy (form : ExportForm) (mark : Char) : Prop where
  notMem_opening : mark ∉ form.opening
  notMem_keyword : ∀ keyword ∈ form.keywords, mark ∉ keyword
  ne_space : mark ≠ ' '
  not_ident : isIdentChar mark = false

/-- Whether a text has only words and spaces. -/
def isWorded (text : Text) : Bool :=
  text.all fun c => c = ' ' || isIdentChar c

/-- The fixed part of a declaration has only words and spaces. -/
def Worded (form : ExportForm) : Prop :=
  ∀ part ∈ form.opening :: form.keywords, isWorded part = true

theorem named_worded : named.Worded := by
  unfold Worded
  decide

theorem default_worded : default.Worded := by
  unfold Worded
  decide

theorem Worded.isSeparatedBy
    {form : ExportForm} (h : form.Worded) {mark : Char}
    (hspace : mark ≠ ' ') (hident : isIdentChar mark = false) : form.IsSeparatedBy mark := by
  have hpart : ∀ part ∈ form.opening :: form.keywords, mark ∉ part := by
    intro part hpart hmark
    have hword := List.all_eq_true.mp (h part hpart) mark hmark
    rw [hident, Bool.or_false, decide_eq_true_eq] at hword
    exact hspace hword
  rw [List.forall_mem_cons] at hpart
  exact ⟨hpart.1, hpart.2, hspace, hident⟩

section Separated

variable {form : ExportForm} (hform : form.Spaceless) {mark : Char}
  (hmark : form.IsSeparatedBy mark)

include hmark

theorem IsSeparatedBy.notMem_span
    {keyword name : Text} (hkeyword : keyword ∈ form.keywords)
    (hname : ∀ c ∈ name, isIdentChar c = true) :
    mark ∉ form.opening ++ keyword ++ ' ' :: name := by
  have hnot : mark ∉ name := by
    intro hmem
    have hword := hname mark hmem
    rw [hmark.not_ident] at hword
    cases hword
  simp [hmark.notMem_opening, hmark.notMem_keyword keyword hkeyword, hmark.ne_space, hnot]

include hform

/-- What stands at the beginning of a text does not depend on what follows a separator. -/
theorem matchAt?_append_cons (front back : Text) :
    form.matchAt? (front ++ mark :: back) = form.matchAt? front := by
  apply Option.ext
  intro m
  rw [matchAt?_eq_some_iff hform, matchAt?_eq_some_iff hform]
  constructor
  · rintro ⟨keyword, hkeyword, rest, htext, hne, hname, hrest, hwidth⟩
    have hspan := hmark.notMem_span hkeyword hname
    refine ⟨keyword, hkeyword, ?_⟩
    rcases List.append_eq_append_iff.mp htext with ⟨more, hmore, htail⟩ | ⟨more, rfl, rfl⟩
    · cases more with
      | nil => exact ⟨[], by simpa using hmore.symm, hne, hname, by simp, hwidth⟩
      | cons c more =>
          obtain ⟨rfl, -⟩ := List.cons.inj htail
          exact absurd (by simp [hmore]) hspan
    · refine ⟨more, rfl, hne, hname, ?_, hwidth⟩
      intro c hc
      exact hrest c (by simp [Option.mem_def.mp hc])
  · rintro ⟨keyword, hkeyword, rest, rfl, hne, hname, hrest, hwidth⟩
    refine ⟨keyword, hkeyword, rest ++ mark :: back, List.append_assoc _ _ _, hne, hname, ?_,
      hwidth⟩
    cases rest with
    | nil =>
        intro c hc
        obtain rfl : mark = c := by simpa using hc
        exact hmark.not_ident
    | cons d rest => exact hrest

end Separated

theorem Match.width_le
    {form : ExportForm} (hform : form.Spaceless) {text : Text} {m : Match}
    (h : form.matchAt? text = some m) : m.width ≤ text.length := by
  obtain ⟨keyword, -, rest, rfl, -, -, -, hwidth⟩ := (matchAt?_eq_some_iff hform).mp h
  simp only [hwidth, List.length_append]
  omega

theorem scan_eq_append (form : ExportForm) (covered : Nat) (found : List Text) (text : Text) :
    form.scan covered found text = found.reverse ++ form.scan covered [] text := by
  induction text generalizing covered found with
  | nil => simp [scan]
  | cons c text ih =>
      cases covered with
      | succ covered =>
          rw [scan, scan]
          exact ih covered found
      | zero =>
          rw [scan, scan]
          cases form.matchAt? (c :: text) with
          | none => exact ih 0 found
          | some m =>
              dsimp only
              rw [ih _ (m.name :: found), ih _ [m.name]]
              simp

section Separated

variable {form : ExportForm} (hform : form.Spaceless) {mark : Char}
  (hmark : form.IsSeparatedBy mark)

include hform hmark

/-- A search that stands before a separator finds what it finds without the rest, and then what
a search of the rest finds. -/
theorem scan_append_cons
    {covered : Nat} {front : Text} (hcovered : covered ≤ front.length) (found : List Text)
    (back : Text) :
    form.scan covered found (front ++ mark :: back) =
      form.scan covered found front ++ form.allNames back := by
  induction front generalizing covered found with
  | nil =>
      obtain rfl : covered = 0 := Nat.le_zero.mp hcovered
      have hnone : form.matchAt? (mark :: back) = none := by
        rw [← matchAt?_nil hform]
        exact matchAt?_append_cons hform hmark [] back
      simp only [List.nil_append, scan, hnone]
      exact form.scan_eq_append 0 found back
  | cons c front ih =>
      cases covered with
      | succ covered =>
          rw [List.cons_append, scan, scan]
          exact ih (Nat.le_of_succ_le_succ hcovered) found
      | zero =>
          have hsame := matchAt?_append_cons hform hmark (c :: front) back
          rw [List.cons_append] at hsame
          rw [List.cons_append, scan, scan, hsame]
          cases hmatch : form.matchAt? (c :: front) with
          | none => exact ih (Nat.zero_le _) found
          | some m =>
              have hwidth := Match.width_le hform hmatch
              rw [List.length_cons] at hwidth
              exact ih (by omega) (m.name :: found)

theorem allNames_append_cons (front back : Text) :
    form.allNames (front ++ mark :: back) = form.allNames front ++ form.allNames back :=
  scan_append_cons hform hmark (Nat.zero_le _) [] back

theorem firstName?_append_cons (front back : Text) :
    form.firstName? (front ++ mark :: back) =
      (form.firstName? front).or (form.firstName? back) := by
  rw [firstName?_eq_head? hform, firstName?_eq_head? hform, firstName?_eq_head? hform,
    allNames_append_cons hform hmark, List.head?_append]

end Separated

end ExportForm

/-! ## The exports of a file -/

def namedExports (file : Path) (text : Text) : List ExportRecord :=
  (exportsOf file text).filter (·.kind = .named)

def defaultExport? (file : Path) (text : Text) : Option ExportRecord :=
  (exportsOf file text).find? (·.kind = .default)

theorem namedExports_eq_map (file : Path) (text : Text) :
    namedExports file text = (ExportForm.named.allNames text).map (⟨·, file, .named⟩) := by
  simp [namedExports, exportsOf, List.filter_append, List.filter_map, Function.comp_def]

theorem defaultExport?_eq_map (file : Path) (text : Text) :
    defaultExport? file text =
      (ExportForm.default.firstName? text).map (⟨·, file, .default⟩) := by
  have hnamed : ((ExportForm.named.allNames text).map
      (⟨·, file, .named⟩ : Text → ExportRecord)).find? (·.kind = .default) = none := by
    simp
  rw [defaultExport?, exportsOf, List.find?_append, hnamed, Option.none_or]
  cases ExportForm.default.firstName? text <;> simp

theorem exportsOf_eq_append (file : Path) (text : Text) :
    exportsOf file text = namedExports file text ++ (defaultExport? file text).toList := by
  rw [namedExports_eq_map, defaultExport?_eq_map, Option.toList_map]
  rfl

section Separated

variable (file : Path) {mark : Char} (hspace : mark ≠ ' ') (hident : isIdentChar mark = false)

include hspace hident

theorem namedExports_append_cons (front back : Text) :
    namedExports file (front ++ mark :: back) =
      namedExports file front ++ namedExports file back := by
  have hmark := ExportForm.named_worded.isSeparatedBy hspace hident
  rw [namedExports_eq_map, namedExports_eq_map, namedExports_eq_map,
    ExportForm.allNames_append_cons ExportForm.named_spaceless hmark, List.map_append]

theorem defaultExport?_append_cons (front back : Text) :
    defaultExport? file (front ++ mark :: back) =
      (defaultExport? file front).or (defaultExport? file back) := by
  have hmark := ExportForm.default_worded.isSeparatedBy hspace hident
  rw [defaultExport?_eq_map, defaultExport?_eq_map, defaultExport?_eq_map,
    ExportForm.firstName?_append_cons ExportForm.default_spaceless hmark, Option.map_or]

theorem namedExports_eq_flatMap (text : Text) :
    namedExports file text = (cutAt mark text).flatMap (namedExports file) := by
  induction text using lines_induction mark with
  | last line hline => rw [cutAt_of_notMem hline, List.flatMap_singleton]
  | more line rest hline ih =>
      rw [cutAt_append_cons, cutAt_of_notMem hline, List.singleton_append, List.flatMap_cons, ← ih]
      exact namedExports_append_cons file hspace hident line rest

theorem defaultExport?_eq_findSome? (text : Text) :
    defaultExport? file text = (cutAt mark text).findSome? (defaultExport? file) := by
  induction text using lines_induction mark with
  | last line hline =>
      rw [cutAt_of_notMem hline, List.findSome?_singleton]
  | more line rest hline ih =>
      rw [cutAt_append_cons, cutAt_of_notMem hline, List.singleton_append, List.findSome?_cons,
        ← ih, defaultExport?_append_cons file hspace hident line rest]
      cases defaultExport? file line <;> rfl

/-- At a character that is neither a space nor part of an identifier, the exports of a file fall
into those of the text before it and those of the text after it: the named ones one after the
other, the default one from the part that has one first. So they can be found piece by piece
between such characters, and in particular line by line. -/
theorem exportsOf_separated :
    (∀ front back : Text,
      namedExports file (front ++ mark :: back) =
          namedExports file front ++ namedExports file back ∧
        defaultExport? file (front ++ mark :: back) =
          (defaultExport? file front).or (defaultExport? file back)) ∧
    ∀ text : Text,
      exportsOf file text =
        (cutAt mark text).flatMap (namedExports file) ++
          ((cutAt mark text).findSome? (defaultExport? file)).toList := by
  refine ⟨fun front back => ⟨namedExports_append_cons file hspace hident front back,
    defaultExport?_append_cons file hspace hident front back⟩, ?_⟩
  intro text
  rw [exportsOf_eq_append, namedExports_eq_flatMap file hspace hident text,
    defaultExport?_eq_findSome? file hspace hident text]

end Separated

/-- Two lines, of which the first ends in the middle of a declaration. -/
theorem exportsOf_separated_lineFeed :
    '\n' ≠ ' ' ∧ isIdentChar '\n' = false ∧
      namedExports [] ("export type A; export const".toList ++ '\n' :: "export enum B".toList) =
        namedExports [] "export type A; export const".toList ++
          namedExports [] "export enum B".toList := by
  have hspace : '\n' ≠ ' ' := by
    decide
  have hident : isIdentChar '\n' = false := by
    decide
  exact ⟨hspace, hident, ((exportsOf_separated [] hspace hident).1 _ _).1⟩

end DeadExports
