import DeadExports.Export.Basic
import Mathlib.Data.List.TakeWhile

/-!
# Exports as occurrences

An occurrence is a place in a text where an export is spelled: an opening, a keyword,
one space and the longest run of identifier characters, which is not empty. Occurrences
are described without any search, and the exports of a file are compared with them.

A search resumes where its latest match ended, so it can only pass over an occurrence
that starts inside a match. There is one way in which this happens. The opening holds a
space after its first word, and inside a match a space stands only after the first word
and after the keyword; neither is preceded by the word `export` a second time. The
occurrence must therefore begin with the last six characters of the match, which are
then the end of its identifier.
-/

namespace DeadExports

/-! ## Occurrences -/

/-- A place in a text that declares a name; `stop` is the position after the name. -/
structure Occurrence where
  start : Nat
  name : Text
  stop : Nat
  deriving DecidableEq, Repr

namespace Occurrence

/-- The text at the occurrence consists of an opening, one of some keywords, a space
and the name, which is the longest run of identifier characters there. -/
def Spells
    (opening : Text) (keywords : List Text) (text : Text) (occurrence : Occurrence) : Prop :=
  ∃ keyword ∈ keywords, ∃ rest,
    text.drop occurrence.start = opening ++ keyword ++ ' ' :: occurrence.name ++ rest ∧
    occurrence.name ≠ [] ∧ (∀ c ∈ occurrence.name, isIdentChar c = true) ∧
    (∀ c ∈ rest.head?, isIdentChar c = false) ∧
    occurrence.stop =
      occurrence.start + (opening ++ keyword ++ ' ' :: occurrence.name).length

def IsNamed (text : Text) (occurrence : Occurrence) : Prop :=
  occurrence.Spells "export ".toList
    (["const", "function", "interface", "type", "enum", "class"].map String.toList) text

def IsDefault (text : Text) (occurrence : Occurrence) : Prop :=
  occurrence.Spells "export default ".toList (["function", "class"].map String.toList) text

end Occurrence

/-! ## Matches -/

/-- Two ways of cutting a list at one element, when the second is its first cut. -/
theorem append_cons_eq_cases
    {α : Type} {x : α} {front back front' back' : List α}
    (h : front ++ x :: back = front' ++ x :: back') (hfirst : x ∉ front') :
    front = front' ∧ back = back' ∨
      ∃ between, front = front' ++ x :: between ∧ back' = between ++ x :: back := by
  rcases List.append_eq_append_iff.mp h with ⟨more, rfl, hmore⟩ | ⟨more, rfl, hmore⟩
  · cases more with
    | nil => exact .inl ⟨(List.append_nil front).symm, (List.cons.inj hmore).2⟩
    | cons y more =>
        obtain ⟨rfl, -⟩ := List.cons.inj hmore
        simp at hfirst
  · cases more with
    | nil => exact .inl ⟨List.append_nil front', (List.cons.inj hmore).2.symm⟩
    | cons y more =>
        obtain ⟨rfl, hback⟩ := List.cons.inj hmore
        exact .inr ⟨more, rfl, hback⟩

theorem takeWhile_eq_iff
    {α : Type} {p : α → Bool} {list run : List α} :
    list.takeWhile p = run ↔
      ∃ rest, list = run ++ rest ∧ (∀ a ∈ run, p a = true) ∧ ∀ a ∈ rest.head?, p a = false := by
  constructor
  · rintro rfl
    refine ⟨list.dropWhile p, List.takeWhile_append_dropWhile.symm,
      fun a ha => List.mem_takeWhile_imp ha, fun a ha => ?_⟩
    have hhead := List.head?_dropWhile_not p list
    rw [Option.mem_def.mp ha] at hhead
    exact hhead
  · rintro ⟨rest, rfl, hrun, hrest⟩
    rw [List.takeWhile_append_of_pos hrun]
    cases rest with
    | nil => simp
    | cons a rest => simp [hrest a rfl]

namespace ExportForm

def Spaceless (form : ExportForm) : Prop :=
  ∀ keyword ∈ form.keywords, ' ' ∉ keyword

theorem named_spaceless : named.Spaceless := by
  unfold Spaceless
  decide

theorem default_spaceless : default.Spaceless := by
  unfold Spaceless
  decide

variable {form : ExportForm} (hform : form.Spaceless)

include hform

/-- As keywords have no spaces, at most one of them can follow the opening. -/
theorem afterKeyword?_eq_some_iff {text keyword rest : Text} :
    form.afterKeyword? text = some (keyword, rest) ↔
      keyword ∈ form.keywords ∧ text = form.opening ++ (keyword ++ ' ' :: rest) := by
  rw [afterKeyword?]
  constructor
  · intro h
    cases hopening : after? form.opening text with
    | none => simp [hopening] at h
    | some more =>
        simp only [hopening] at h
        obtain ⟨other, hother, hmore⟩ := List.exists_of_findSome?_eq_some h
        obtain ⟨back, hback, hpair⟩ := Option.map_eq_some_iff.mp hmore
        obtain ⟨rfl, rfl⟩ := Prod.mk.inj hpair
        refine ⟨hother, ?_⟩
        rw [after?_eq_some_iff.mp hopening, after?_eq_some_iff.mp hback]
        simp
  · rintro ⟨hkeyword, htext⟩
    rw [after?_eq_some_iff.mpr htext]
    cases hfound :
        form.keywords.findSome? fun other =>
          (after? (other ++ [' ']) (keyword ++ ' ' :: rest)).map (other, ·) with
    | none =>
        have hnone := List.findSome?_eq_none_iff.mp hfound keyword hkeyword
        have hafter : after? (keyword ++ [' ']) (keyword ++ ' ' :: rest) = some rest :=
          after?_eq_some_iff.mpr (by simp)
        simp [hafter] at hnone
    | some found =>
        obtain ⟨other, hother, hmore⟩ := List.exists_of_findSome?_eq_some hfound
        obtain ⟨back, hback, rfl⟩ := Option.map_eq_some_iff.mp hmore
        have hcut : keyword ++ ' ' :: rest = other ++ ' ' :: back := by
          rw [after?_eq_some_iff.mp hback]
          simp
        rcases append_cons_eq_cases hcut (hform other hother) with
          ⟨rfl, rfl⟩ | ⟨between, rfl, -⟩
        · exact hfound
        · exact absurd (by simp) (hform _ hkeyword)

theorem matchAt?_eq_some_iff {text : Text} {m : Match} :
    form.matchAt? text = some m ↔
      ∃ keyword ∈ form.keywords, ∃ rest,
        text = form.opening ++ keyword ++ ' ' :: m.name ++ rest ∧
        m.name ≠ [] ∧ (∀ c ∈ m.name, isIdentChar c = true) ∧
        (∀ c ∈ rest.head?, isIdentChar c = false) ∧
        m.width = (form.opening ++ keyword ++ ' ' :: m.name).length := by
  rw [matchAt?]
  constructor
  · intro h
    cases hafter : form.afterKeyword? text with
    | none => simp [hafter] at h
    | some found =>
        obtain ⟨keyword, back⟩ := found
        obtain ⟨hkeyword, rfl⟩ := (afterKeyword?_eq_some_iff hform).mp hafter
        simp only [hafter] at h
        generalize hrun : back.takeWhile isIdentChar = name at h
        obtain ⟨rest, rfl, hname, hrest⟩ := takeWhile_eq_iff.mp hrun
        split at h
        next => cases h
        next hempty =>
          obtain rfl := Option.some.inj h
          refine ⟨keyword, hkeyword, rest, by simp, by simpa using hempty, hname, hrest, ?_⟩
          simp only [List.length_append, List.length_cons]
          omega
  · rintro ⟨keyword, hkeyword, rest, rfl, hne, hname, hrest, hwidth⟩
    have hafter :
        form.afterKeyword? (form.opening ++ keyword ++ ' ' :: m.name ++ rest) =
          some (keyword, m.name ++ rest) :=
      (afterKeyword?_eq_some_iff hform).mpr ⟨hkeyword, by simp⟩
    have hrun : (m.name ++ rest).takeWhile isIdentChar = m.name :=
      takeWhile_eq_iff.mpr ⟨rest, rfl, hname, hrest⟩
    simp only [hafter, hrun]
    rw [if_neg (by simpa using hne), Option.some.injEq]
    obtain ⟨name, width⟩ := m
    simp only [List.length_append, List.length_cons] at hwidth
    simp only [Match.mk.injEq, true_and]
    omega

/-- Occurrences are what matching finds at their position. -/
theorem spells_iff {text : Text} {occurrence : Occurrence} :
    occurrence.Spells form.opening form.keywords text ↔
      ∃ m, form.matchAt? (text.drop occurrence.start) = some m ∧
        occurrence = ⟨occurrence.start, m.name, occurrence.start + m.width⟩ := by
  obtain ⟨start, name, stop⟩ := occurrence
  constructor
  · rintro ⟨keyword, hkeyword, rest, htext, hne, hname, hrest, hstop⟩
    refine ⟨⟨name, (form.opening ++ keyword ++ ' ' :: name).length⟩, ?_, ?_⟩
    · exact (matchAt?_eq_some_iff hform).mpr
        ⟨keyword, hkeyword, rest, htext, hne, hname, hrest, rfl⟩
    · simpa using hstop
  · rintro ⟨m, hmatch, hoccurrence⟩
    obtain ⟨keyword, hkeyword, rest, htext, hne, hname, hrest, hwidth⟩ :=
      (matchAt?_eq_some_iff hform).mp hmatch
    simp only [Occurrence.mk.injEq, true_and] at hoccurrence
    obtain ⟨rfl, rfl⟩ := hoccurrence
    exact ⟨keyword, hkeyword, rest, htext, hne, hname, hrest, by rw [hwidth]⟩

theorem Match.width_pos {text : Text} {m : Match} (h : form.matchAt? text = some m) :
    0 < m.width := by
  obtain ⟨keyword, -, rest, -, -, -, -, hwidth⟩ := (matchAt?_eq_some_iff hform).mp h
  rw [hwidth, List.length_append, List.length_cons]
  omega

theorem matchAt?_nil : form.matchAt? [] = none := by
  cases h : form.matchAt? [] with
  | none => rfl
  | some m =>
      obtain ⟨keyword, -, rest, hnil, -⟩ := (matchAt?_eq_some_iff hform).mp h
      simp at hnil

/-! ## Searches -/

/-- What a search from some position on lists, and what it passes over. -/
structure Lists
    (form : ExportForm) (whole : Text) (position : Nat) (listed : List Occurrence) : Prop where
  spells : ∀ occurrence ∈ listed, occurrence.Spells form.opening form.keywords whole
  start_ge : ∀ occurrence ∈ listed, position ≤ occurrence.start
  pairwise : listed.Pairwise fun first second =>
    first.start < second.start ∧ first.stop ≤ second.start
  complete : ∀ occurrence, occurrence.Spells form.opening form.keywords whole →
    position ≤ occurrence.start → occurrence ∈ listed ∨
      ∃ earlier ∈ listed, earlier.start < occurrence.start ∧ occurrence.start < earlier.stop

/-- Nothing is lost at a position without a match. -/
theorem Lists.of_succ
    {whole : Text} {position : Nat} {listed : List Occurrence}
    (h : form.Lists whole (position + 1) listed)
    (hnone : form.matchAt? (whole.drop position) = none) :
    form.Lists whole position listed where
  spells := h.spells
  start_ge occurrence hmem := Nat.le_of_succ_le (h.start_ge occurrence hmem)
  pairwise := h.pairwise
  complete := by
    intro occurrence hspells hposition
    rcases Nat.eq_or_lt_of_le hposition with rfl | hlater
    · obtain ⟨m, hmatch, -⟩ := (spells_iff hform).mp hspells
      rw [hnone] at hmatch
      cases hmatch
    · exact h.complete occurrence hspells hlater

/-- A match comes before everything that is listed from its end on. -/
theorem Lists.cons
    {whole : Text} {position : Nat} {m : Match} {listed : List Occurrence}
    (h : form.Lists whole (position + m.width) listed)
    (hmatch : form.matchAt? (whole.drop position) = some m) :
    form.Lists whole position (⟨position, m.name, position + m.width⟩ :: listed) where
  spells := by
    intro occurrence hmem
    rcases List.mem_cons.mp hmem with rfl | hmem
    · exact (spells_iff hform).mpr ⟨m, hmatch, rfl⟩
    · exact h.spells occurrence hmem
  start_ge := by
    intro occurrence hmem
    rcases List.mem_cons.mp hmem with rfl | hmem
    · exact Nat.le_refl position
    · exact Nat.le_trans (Nat.le_add_right position m.width) (h.start_ge occurrence hmem)
  pairwise := by
    refine List.pairwise_cons.mpr ⟨fun occurrence hmem => ?_, h.pairwise⟩
    have hstart := h.start_ge occurrence hmem
    have hwidth := Match.width_pos hform hmatch
    exact ⟨by dsimp only; omega, hstart⟩
  complete := by
    intro occurrence hspells hposition
    rcases Nat.lt_or_ge occurrence.start (position + m.width) with hinside | hlater
    · rcases Nat.eq_or_lt_of_le hposition with heq | hlt
      · left
        obtain ⟨other, hother, hoccurrence⟩ := (spells_iff hform).mp hspells
        rw [← heq, hmatch] at hother
        obtain rfl := Option.some.inj hother
        rw [hoccurrence, ← heq]
        exact List.mem_cons_self
      · exact .inr ⟨_, List.mem_cons_self, hlt, hinside⟩
    · rcases h.complete occurrence hspells hlater with hmem | ⟨earlier, hmem, hoverlap⟩
      · exact .inl (List.mem_cons_of_mem _ hmem)
      · exact .inr ⟨earlier, List.mem_cons_of_mem _ hmem, hoverlap⟩

/-- A scan adds the names of the occurrences that it lists. -/
theorem exists_lists_scan
    {whole text : Text} {position : Nat} (htext : whole.drop position = text)
    (covered : Nat) (found : List Text) :
    ∃ listed, form.scan covered found text = found.reverse ++ listed.map Occurrence.name ∧
      form.Lists whole (position + covered) listed := by
  induction text generalizing position covered found with
  | nil =>
      refine ⟨[], by simp [scan], nofun, nofun, .nil, fun occurrence hspells hposition => ?_⟩
      obtain ⟨m, hmatch, -⟩ := (spells_iff hform).mp hspells
      have hdrop : whole.drop occurrence.start = [] := by
        rw [List.drop_eq_nil_iff] at htext ⊢
        omega
      rw [hdrop, matchAt?_nil hform] at hmatch
      cases hmatch
  | cons c text ih =>
      have hnext : whole.drop (position + 1) = text := by
        rw [← List.drop_drop, htext, List.drop_one, List.tail_cons]
      cases covered with
      | succ covered =>
          obtain ⟨listed, hscan, hlists⟩ := ih hnext covered found
          refine ⟨listed, hscan, ?_⟩
          rwa [Nat.add_right_comm] at hlists
      | zero =>
          cases hmatch : form.matchAt? (c :: text) with
          | none =>
              obtain ⟨listed, hscan, hlists⟩ := ih hnext 0 found
              refine ⟨listed, ?_, hlists.of_succ hform (by rw [htext, hmatch])⟩
              simp only [scan, hmatch]
              exact hscan
          | some m =>
              obtain ⟨listed, hscan, hlists⟩ := ih hnext (m.width - 1) (m.name :: found)
              have hwidth := Match.width_pos hform hmatch
              have hstop : position + 1 + (m.width - 1) = position + m.width := by
                omega
              rw [hstop] at hlists
              refine ⟨_, ?_, hlists.cons hform (by rw [htext, hmatch])⟩
              simp only [scan, hmatch]
              rw [hscan]
              simp

theorem exists_lists_allNames (text : Text) :
    ∃ listed, form.allNames text = listed.map Occurrence.name ∧ form.Lists text 0 listed := by
  obtain ⟨listed, hscan, hlists⟩ :=
    exists_lists_scan hform (List.drop_zero : text.drop 0 = text) 0 []
  exact ⟨listed, hscan, hlists⟩

theorem firstName?_eq_head? (text : Text) :
    form.firstName? text = (form.allNames text).head? := by
  induction text with
  | nil => rfl
  | cons c text ih =>
      rw [firstName?, allNames, scan]
      cases hmatch : form.matchAt? (c :: text) with
      | none => exact ih
      | some m =>
          obtain ⟨listed, hscan, -⟩ :=
            exists_lists_scan hform (List.drop_zero : text.drop 0 = text) (m.width - 1) [m.name]
          dsimp only
          rw [hscan]
          rfl

omit hform in
theorem Lists.leftmost
    {text : Text} {listed : List Occurrence} (h : form.Lists text 0 listed)
    {first : Occurrence} (hfirst : listed.head? = some first)
    {occurrence : Occurrence} (hspells : occurrence.Spells form.opening form.keywords text) :
    first.start ≤ occurrence.start := by
  have hle : ∀ other ∈ listed, first.start ≤ other.start := by
    intro other hother
    cases listed with
    | nil => cases hother
    | cons head tail =>
        obtain rfl := Option.some.inj hfirst
        rcases List.mem_cons.mp hother with rfl | htail
        · exact Nat.le_refl _
        · exact Nat.le_of_lt (List.rel_of_pairwise_cons h.pairwise htail).1
  rcases h.complete occurrence hspells (Nat.zero_le _) with hmem | ⟨earlier, hmem, hlt, -⟩
  · exact hle occurrence hmem
  · exact Nat.le_trans (hle earlier hmem) (Nat.le_of_lt hlt)

omit hform in
theorem Lists.isSome_head?_iff
    {text : Text} {listed : List Occurrence} (h : form.Lists text 0 listed) :
    listed.head?.isSome ↔
      ∃ occurrence : Occurrence, occurrence.Spells form.opening form.keywords text := by
  cases listed with
  | nil =>
      refine ⟨nofun, fun ⟨occurrence, hspells⟩ => ?_⟩
      rcases h.complete occurrence hspells (Nat.zero_le _) with hmem | ⟨_, hmem, -⟩
      · cases hmem
      · cases hmem
  | cons first listed =>
      exact ⟨fun _ => ⟨first, h.spells first List.mem_cons_self⟩, fun _ => rfl⟩

end ExportForm

/-! ## Overlaps -/

theorem suffix_of_suffix_append_cons
    {α : Type} {x : α} {word front back : List α}
    (h : word <:+ front ++ x :: back) (hword : x ∉ word) :
    word <:+ back := by
  obtain ⟨before, hbefore⟩ := h
  rcases List.append_eq_append_iff.mp hbefore with ⟨more, -, rfl⟩ | ⟨more, -, hmore⟩
  · simp at hword
  · cases more with
    | nil =>
        obtain rfl : x :: back = word := hmore
        simp at hword
    | cons y more =>
        obtain ⟨-, rfl⟩ := List.cons.inj hmore
        exact ⟨more, rfl⟩

/-- Inside an export, the word `export` with a space after it stands only at the
beginning. -/
theorem no_inner_opening
    {keyword name before after : Text} (hkeyword : keyword ∈ ExportForm.named.keywords)
    (hname : ' ' ∉ name)
    (h : before ++ "export".toList ++ ' ' :: after =
      "export".toList ++ ' ' :: (keyword ++ ' ' :: name)) :
    before = [] := by
  have hinner : ∀ other ∈ ExportForm.named.keywords,
      ¬"export".toList <:+ "export".toList ++ ' ' :: other := by
    decide
  rcases append_cons_eq_cases h (by decide) with ⟨hbefore, -⟩ | ⟨between, hbefore, hbetween⟩
  · exact List.append_left_eq_self.mp hbefore
  · rcases append_cons_eq_cases hbetween.symm
      (ExportForm.named_spaceless keyword hkeyword) with ⟨rfl, -⟩ | ⟨more, -, rfl⟩
    · exact absurd ⟨before, hbefore⟩ (hinner between hkeyword)
    · simp at hname

/-- An occurrence that starts inside another one starts with the last six characters of
the identifier. -/
theorem Occurrence.IsNamed.overlap
    {text : Text} {first second : Occurrence}
    (hfirst : first.IsNamed text) (hsecond : second.IsNamed text)
    (hstart : first.start < second.start) (hinside : second.start < first.stop) :
    second.start + 6 = first.stop ∧ "export".toList <:+ first.name := by
  obtain ⟨keyword, hkeyword, rest, htext, -, hname, hrest, hstop⟩ := hfirst
  obtain ⟨keyword', -, rest', htext', -⟩ := hsecond
  have hspace : ' ' ∉ first.name := by
    intro hmem
    exact absurd (hname ' ' hmem) (by decide)
  obtain ⟨span, hspan⟩ : ∃ span, span = "export ".toList ++ keyword ++ ' ' :: first.name := ⟨_, rfl⟩
  obtain ⟨offset, hoffset⟩ := Nat.exists_eq_add_of_le (Nat.le_of_lt hstart)
  rw [← hspan] at htext hstop
  have hlength : offset < span.length := by
    omega
  have hdrop :
      span.drop offset ++ rest =
        "export".toList ++ ' ' :: (keyword' ++ ' ' :: second.name ++ rest') := by
    rw [← List.drop_append_of_le_length (Nat.le_of_lt hlength), ← htext, List.drop_drop,
      ← hoffset, htext']
    simp
  have hend (hexport : span.drop offset = "export".toList) :
      second.start + 6 = first.stop ∧ "export".toList <:+ first.name := by
    have hsix : span.length - offset = 6 := by
      rw [← List.length_drop, hexport]
      rfl
    have hsuffix : "export".toList <:+ "export ".toList ++ keyword ++ ' ' :: first.name := by
      rw [← hspan, ← hexport]
      exact List.drop_suffix offset span
    exact ⟨by omega, suffix_of_suffix_append_cons hsuffix (by decide)⟩
  rcases List.append_eq_append_iff.mp hdrop with ⟨more, hword, hmore⟩ | ⟨more, hword, hmore⟩
  · cases more with
    | nil => exact hend (by rw [hword, List.append_nil])
    | cons c more =>
        have hident : "export".toList.all isIdentChar = true := by
          decide
        have hafter : isIdentChar c = false := hrest c (by simp [hmore])
        have hinside : isIdentChar c = true :=
          List.all_eq_true.mp hident c (by simp [hword])
        rw [hafter] at hinside
        cases hinside
  · cases more with
    | nil => exact hend (by rw [hword, List.append_nil])
    | cons c more =>
        obtain ⟨rfl, -⟩ := List.cons.inj hmore
        have hcut :
            span.take offset ++ "export".toList ++ ' ' :: more =
              "export".toList ++ ' ' :: (keyword ++ ' ' :: first.name) := by
          rw [List.append_assoc, ← hword, List.take_append_drop, hspan]
          simp
        have hbefore := no_inner_opening hkeyword hspace hcut
        rw [List.take_eq_nil_iff] at hbefore
        rcases hbefore with rfl | rfl
        · omega
        · simp at hlength

/-! ## The exports of a file -/

/-- The exports of a file are its named occurrences, in order and without overlaps,
followed by its leftmost default occurrence. No named occurrence is missing, except that
one may begin with the word `export` at the end of a listed identifier. -/
theorem exportsOf_characterization (file : Path) (text : Text) :
    ∃ (listed : List Occurrence) (leftmost : Option Occurrence),
      exportsOf file text =
          listed.map (fun occurrence => ⟨occurrence.name, file, .named⟩) ++
            leftmost.toList.map (fun occurrence => ⟨occurrence.name, file, .default⟩) ∧
      (∀ occurrence ∈ listed, occurrence.IsNamed text) ∧
      listed.Pairwise (fun first second =>
        first.start < second.start ∧ first.stop ≤ second.start) ∧
      (∀ occurrence : Occurrence, occurrence.IsNamed text → occurrence ∈ listed ∨
        ∃ earlier ∈ listed, occurrence.start + 6 = earlier.stop ∧
          "export".toList <:+ earlier.name) ∧
      (leftmost.isSome ↔ ∃ occurrence : Occurrence, occurrence.IsDefault text) ∧
      ∀ occurrence ∈ leftmost, occurrence.IsDefault text ∧
        ∀ other : Occurrence, other.IsDefault text → occurrence.start ≤ other.start := by
  obtain ⟨listed, hnames, hnamed⟩ :=
    ExportForm.exists_lists_allNames ExportForm.named_spaceless text
  obtain ⟨defaults, hdefaults, hdefault⟩ :=
    ExportForm.exists_lists_allNames ExportForm.default_spaceless text
  refine ⟨listed, defaults.head?, ?_, hnamed.spells, hnamed.pairwise, ?_,
    hdefault.isSome_head?_iff, ?_⟩
  · rw [exportsOf, hnames, ExportForm.firstName?_eq_head? ExportForm.default_spaceless,
      hdefaults, List.head?_map, List.map_map]
    cases defaults.head? <;> rfl
  · intro occurrence hoccurrence
    rcases hnamed.complete occurrence hoccurrence (Nat.zero_le _) with
      hmem | ⟨earlier, hmem, hstart, hinside⟩
    · exact .inl hmem
    · exact .inr ⟨earlier, hmem,
        Occurrence.IsNamed.overlap (hnamed.spells earlier hmem) hoccurrence hstart hinside⟩
  · intro occurrence hhead
    exact ⟨hdefault.spells occurrence (List.mem_of_mem_head? hhead),
      fun other hother => hdefault.leftmost hhead hother⟩

example :
    exportsOf [] "export const export const x".toList = [⟨"export".toList, [], .named⟩] := by
  decide

end DeadExports
