import DeadExports.FileTree.Lookup
import Mathlib.Data.List.Basic
import Mathlib.Data.List.Induction

/-!
# Paths below a directory

A walk spells the path of an entry by joining the names on the way to it onto the
spelling of its root. This module computes what such a path is made of: its
components are those of the root followed by the names, whatever the root's own
spelling, and its key is the key of the root followed by the names. Paths of
different entries below one root therefore have different keys.
-/

namespace DeadExports

section Cutting

variable {α : Type} [DecidableEq α]

theorem cutAt_ne_nil (mark : α) (whole : List α) : cutAt mark whole ≠ [] := by
  cases whole with
  | nil => simp [cutAt]
  | cons a whole =>
      simp only [cutAt]
      split
      · simp
      · split <;> simp

theorem cutAt_of_notMem {mark : α} {whole : List α} (h : mark ∉ whole) :
    cutAt mark whole = [whole] := by
  induction whole with
  | nil => rfl
  | cons a whole ih =>
      rw [List.mem_cons, not_or] at h
      rw [cutAt, if_neg (Ne.symm h.1), ih h.2]

/-- A mark separates the pieces before it from those after it. -/
theorem cutAt_append_cons (mark : α) (front back : List α) :
    cutAt mark (front ++ mark :: back) = cutAt mark front ++ cutAt mark back := by
  induction front with
  | nil => simp [cutAt]
  | cons a front ih =>
      by_cases ha : a = mark
      · simp [cutAt, ha, ih]
      · obtain ⟨piece, pieces, hcut⟩ := List.exists_cons_of_ne_nil (cutAt_ne_nil mark front)
        simp [cutAt, ha, ih, hcut]

end Cutting

/-- A property of all lists holds if it holds of every list without marks and passes from
what follows the first mark to the whole. -/
theorem lines_induction
    {α : Type} (mark : α) {property : List α → Prop}
    (last : ∀ line, mark ∉ line → property line)
    (more : ∀ line rest, mark ∉ line → property rest → property (line ++ mark :: rest))
    (whole : List α) : property whole := by
  induction hlength : whole.length using Nat.strongRecOn generalizing whole with
  | ind length ih =>
      by_cases hmark : mark ∈ whole
      · obtain ⟨line, rest, rfl, hline⟩ := List.eq_append_cons_of_mem hmark
        have hshorter : rest.length < length := by
          rw [← hlength, List.length_append, List.length_cons]
          omega
        exact more line rest hline (ih rest.length hshorter rest rfl)
      · exact last whole hmark

theorem IsEntryName.isAbsolute_eq_false {name : Bytes} (h : IsEntryName name) :
    Path.isAbsolute name = false := by
  rw [Path.isAbsolute, decide_eq_false_iff_not]
  intro hhead
  exact h.slash_notMem (List.mem_of_mem_head? (by simp [hhead]))

namespace Path

theorem join_eq_append
    (directory : Path) {name : Bytes} (h : IsEntryName name) :
    directory.join name =
      if directory = [] ∨ directory.getLast? = some slash then directory ++ name
      else directory ++ slash :: name := by
  simp [join, h.isAbsolute_eq_false]

theorem pieces_append_slash (front back : Path) :
    pieces (front ++ slash :: back) = pieces front ++ pieces back := by
  rw [pieces, cutAt_append_cons, List.filter_append]
  rfl

theorem pieces_of_isEntryName {name : Bytes} (h : IsEntryName name) :
    pieces name = [name] := by
  rw [pieces, cutAt_of_notMem h.slash_notMem]
  simp [h.ne_nil]

/-- Joining a name adds one piece, however the directory is spelled. -/
theorem pieces_join
    (directory : Path) {name : Bytes} (h : IsEntryName name) :
    pieces (directory.join name) = pieces directory ++ [name] := by
  rw [join_eq_append directory h]
  split
  next hbare =>
    rcases hbare with hnil | hlast
    · subst hnil
      rw [List.nil_append, pieces_of_isEntryName h]
      rfl
    · obtain ⟨front, rfl⟩ := List.getLast?_eq_some_iff.mp hlast
      rw [List.append_assoc, List.singleton_append, pieces_append_slash,
        pieces_append_slash, pieces_of_isEntryName h]
      rw [show pieces [] = [] from rfl, List.append_nil]
  next => rw [pieces_append_slash, pieces_of_isEntryName h]

theorem isAbsolute_append {front : Path} (back : Path) (h : front ≠ []) :
    isAbsolute (front ++ back) = isAbsolute front := by
  obtain ⟨byte, rest, rfl⟩ := List.exists_cons_of_ne_nil h
  rfl

theorem isAbsolute_join
    {directory : Path} {name : Bytes} (hne : directory ≠ []) (h : IsEntryName name) :
    isAbsolute (directory.join name) = isAbsolute directory := by
  rw [join_eq_append directory h]
  split <;> exact isAbsolute_append _ hne

theorem pieces_ne_nil_of_relative
    {path : Path} (hne : path ≠ []) (hrel : isAbsolute path = false) :
    pieces path ≠ [] := by
  obtain ⟨byte, rest, rfl⟩ := List.exists_cons_of_ne_nil hne
  have hbyte : byte ≠ slash := by
    simpa [isAbsolute] using hrel
  obtain ⟨piece, others, hcut⟩ := List.exists_cons_of_ne_nil (cutAt_ne_nil slash rest)
  simp [pieces, cutAt, hbyte, hcut]

theorem key_join
    (directory : Path) {name : Bytes} (h : IsEntryName name) :
    key (directory.join name) =
      ⟨(key directory).absolute, (key directory).parts ++ [name]⟩ := by
  by_cases hne : directory = []
  · subst hne
    have hjoin : join [] name = name := by
      simp [join_eq_append [] h]
    rw [hjoin, key, if_neg (by simp [h.isAbsolute_eq_false]), pieces_of_isEntryName h]
    rfl
  · have hkept : [name].filter (· ≠ here) = [name] := by
      simp [h.ne_here]
    rw [key, key, isAbsolute_join hne h, pieces_join directory h]
    by_cases habs : isAbsolute directory = true
    · rw [if_pos habs, if_pos habs, List.filter_append, hkept]
    · rw [if_neg habs, if_neg habs]
      obtain ⟨first, rest, hpieces⟩ :=
        List.exists_cons_of_ne_nil (pieces_ne_nil_of_relative hne (by simpa using habs))
      rw [hpieces, List.cons_append]
      dsimp only
      rw [List.filter_append, hkept, List.cons_append]

/-- The path that names lead to from a directory. -/
def below (root : Path) (names : List Bytes) : Path :=
  names.foldl join root

@[simp] theorem below_nil (root : Path) : root.below [] = root := rfl

@[simp] theorem below_cons (root : Path) (name : Bytes) (names : List Bytes) :
    root.below (name :: names) = (root.join name).below names := rfl

theorem below_append (root : Path) (first second : List Bytes) :
    root.below (first ++ second) = (root.below first).below second :=
  List.foldl_append

theorem below_concat (root : Path) (names : List Bytes) (name : Bytes) :
    root.below (names ++ [name]) = (root.below names).join name :=
  below_append root names [name]

theorem pieces_below
    (root : Path) {names : List Bytes} (h : ∀ name ∈ names, IsEntryName name) :
    pieces (root.below names) = pieces root ++ names := by
  induction names generalizing root with
  | nil => simp
  | cons name names ih =>
      rw [below_cons, ih _ fun other hother => h other (List.mem_cons_of_mem _ hother),
        pieces_join root (h name List.mem_cons_self)]
      simp

theorem key_below
    (root : Path) {names : List Bytes} (h : ∀ name ∈ names, IsEntryName name) :
    key (root.below names) = ⟨(key root).absolute, (key root).parts ++ names⟩ := by
  induction names generalizing root with
  | nil => simp
  | cons name names ih =>
      rw [below_cons, ih _ fun other hother => h other (List.mem_cons_of_mem _ hother),
        key_join root (h name List.mem_cons_self)]
      simp

theorem key_below_injective
    (root : Path) {names others : List Bytes}
    (hnames : ∀ name ∈ names, IsEntryName name)
    (hothers : ∀ name ∈ others, IsEntryName name)
    (hkey : key (root.below names) = key (root.below others)) :
    names = others := by
  rw [key_below root hnames, key_below root hothers, Key.mk.injEq] at hkey
  exact List.append_cancel_left hkey.2

theorem fileName?_below_concat
    (root : Path) {names : List Bytes} {name : Bytes}
    (hnames : ∀ other ∈ names, IsEntryName other) (hname : IsEntryName name) :
    fileName? (root.below (names ++ [name])) = some name := by
  have hall : ∀ other ∈ names ++ [name], IsEntryName other := by
    intro other hother
    rcases List.mem_append.mp hother with h | h
    · exact hnames other h
    · rw [List.mem_singleton.mp h]
      exact hname
  rw [fileName?, key_below root hall]
  simp [← List.append_assoc, hname.ne_here, hname.ne_up]

/-- What joining puts behind the directory has the name for its only piece. -/
theorem exists_append_join
    (directory : Path) {name : Bytes} (h : IsEntryName name) :
    ∃ back, directory.join name = directory ++ back ∧ pieces back = [name] := by
  rw [join_eq_append directory h]
  split
  · exact ⟨name, rfl, pieces_of_isEntryName h⟩
  · have hpieces : pieces (slash :: name) = pieces [] ++ pieces name :=
      pieces_append_slash [] name
    refine ⟨slash :: name, rfl, ?_⟩
    rw [hpieces, pieces_of_isEntryName h]
    rfl

theorem join_append
    (root : Path) {back : Path} (hne : back ≠ []) {name : Bytes} (h : IsEntryName name) :
    join (root ++ back) name = root ++ join back name := by
  have hlast : (root ++ back).getLast? = back.getLast? := List.getLast?_append_of_ne_nil _ hne
  rw [join_eq_append _ h, join_eq_append _ h, hlast]
  simp only [List.append_eq_nil_iff, hne, and_false, false_or]
  split <;> simp

theorem exists_append_below
    (root : Path) {names : List Bytes} (h : ∀ name ∈ names, IsEntryName name) :
    ∃ back, root.below names = root ++ back ∧ pieces back = names := by
  induction names using List.reverseRecOn with
  | nil => exact ⟨[], by simp, rfl⟩
  | append_singleton names name ih =>
      rw [List.forall_mem_append, List.forall_mem_singleton] at h
      obtain ⟨hnames, hname⟩ := h
      obtain ⟨back, hback, hpieces⟩ := ih hnames
      rw [below_concat, hback]
      by_cases hne : back = []
      · subst hne
        obtain rfl : [] = names := hpieces
        rw [List.append_nil]
        exact exists_append_join root hname
      · refine ⟨join back name, join_append root hne hname, ?_⟩
        rw [pieces_join back hname, hpieces]

theorem prefix_below
    (root : Path) {names : List Bytes} (h : ∀ name ∈ names, IsEntryName name) :
    root <+: root.below names := by
  obtain ⟨back, hback, -⟩ := exists_append_below root h
  exact ⟨back, hback.symm⟩

theorem mem_join
    {directory : Path} {name : Bytes} {byte : UInt8} (h : IsEntryName name)
    (hbyte : byte ∈ directory.join name) :
    byte ∈ directory ∨ byte = slash ∨ byte ∈ name := by
  rw [join_eq_append directory h] at hbyte
  split at hbyte
  · rcases List.mem_append.mp hbyte with hmem | hmem
    · exact Or.inl hmem
    · exact Or.inr (Or.inr hmem)
  · rcases List.mem_append.mp hbyte with hmem | hmem
    · exact Or.inl hmem
    · exact Or.inr (List.mem_cons.mp hmem)

theorem nul_notMem_below
    {root : Path} {names : List Bytes} (hroot : 0 ∉ root)
    (h : ∀ name ∈ names, IsEntryName name) :
    0 ∉ root.below names := by
  induction names generalizing root with
  | nil => exact hroot
  | cons name names ih =>
      have hname := h name List.mem_cons_self
      apply ih _ fun other hother => h other (List.mem_cons_of_mem _ hother)
      intro hmem
      rcases mem_join hname hmem with hdir | hslash | hin
      · exact hroot hdir
      · exact absurd hslash (by decide)
      · exact hname.nul_notMem hin

theorem getLast?_join
    (directory : Path) {name : Bytes} (h : IsEntryName name) :
    (directory.join name).getLast? = name.getLast? := by
  rw [join_eq_append directory h]
  split
  · exact List.getLast?_append_of_ne_nil _ h.ne_nil
  · rw [List.getLast?_append_of_ne_nil _ (List.cons_ne_nil _ _), List.getLast?_cons]
    simp [List.getLast?_eq_some_getLast h.ne_nil]

theorem steps_below_concat
    (root : Path) {names : List Bytes} {name : Bytes}
    (hnames : ∀ other ∈ names, IsEntryName other) (hname : IsEntryName name) :
    steps (root.below (names ++ [name])) = pieces root ++ names ++ [name] := by
  have hlast : (root.below (names ++ [name])).getLast? ≠ some slash := by
    rw [below_concat, getLast?_join _ hname]
    intro hslash
    exact hname.slash_notMem (List.mem_of_getLast? hslash)
  rw [steps, if_neg fun h => hlast h.1, below_concat, pieces_join _ hname,
    pieces_below root hnames]

theorem isAbsolute_below
    {root : Path} {names : List Bytes} (hne : root ≠ [])
    (h : ∀ name ∈ names, IsEntryName name) :
    isAbsolute (root.below names) = isAbsolute root := by
  obtain ⟨back, hback⟩ := prefix_below root h
  rw [← hback, isAbsolute_append back hne]

/-- Joining a relative path puts the same bytes in front of every one. -/
theorem exists_join_eq_append (root : Path) :
    ∃ front, ∀ path, isAbsolute path = false → root.join path = front ++ path := by
  by_cases hbare : root.isEmpty ∨ root.getLast? = some slash
  · refine ⟨root, fun path hpath => ?_⟩
    rw [join, if_neg (by simp [hpath]), if_pos hbare]
  · refine ⟨root ++ [slash], fun path hpath => ?_⟩
    rw [join, if_neg (by simp [hpath]), if_neg hbare, List.append_assoc]
    rfl

theorem nil_join {name : Bytes} (h : IsEntryName name) : join [] name = name := by
  rw [join_eq_append [] h, if_pos (.inl rfl), List.nil_append]

theorem isAbsolute_nil_below
    {names : List Bytes} (hnames : ∀ name ∈ names, IsEntryName name) :
    isAbsolute (below [] names) = false := by
  cases names with
  | nil => rfl
  | cons name names =>
      obtain ⟨hname, hrest⟩ := List.forall_mem_cons.mp hnames
      rw [below_cons, nil_join hname, isAbsolute_below hname.ne_nil hrest,
        hname.isAbsolute_eq_false]

/-- Names are joined onto a root as the relative path that they make up. -/
theorem below_eq_join
    (root : Path) {names : List Bytes} (hnil : names ≠ [])
    (hnames : ∀ name ∈ names, IsEntryName name) :
    root.below names = root.join (below [] names) := by
  obtain ⟨bytes, hjoin⟩ := exists_join_eq_append root
  induction names using List.reverseRecOn with
  | nil => exact absurd rfl hnil
  | append_singleton front name ih =>
      have habsolute : isAbsolute (below [] (front ++ [name])) = false :=
        isAbsolute_nil_below hnames
      obtain ⟨hfront, hlast⟩ := List.forall_mem_append.mp hnames
      have hname : IsEntryName name := hlast name List.mem_cons_self
      by_cases hempty : front = []
      · rw [hempty, List.nil_append, below_cons, below_cons, nil_join hname]
        rfl
      · have hne : below [] front ≠ [] := by
          intro hbelow
          have hpieces := pieces_below [] hfront
          rw [hbelow] at hpieces
          exact hempty hpieces.symm
        rw [below_concat, ih hempty hfront, hjoin _ (isAbsolute_nil_below hfront),
          join_append bytes hne hname, hjoin _ habsolute, below_concat]

/-- The names on the way from a root to a path that starts with it. -/
def namesBelow (root path : Path) : List Bytes :=
  pieces (path.drop root.length)

theorem namesBelow_below
    (root : Path) {names : List Bytes} (h : ∀ name ∈ names, IsEntryName name) :
    root.namesBelow (root.below names) = names := by
  obtain ⟨back, hback, hpieces⟩ := exists_append_below root h
  rw [namesBelow, hback, List.drop_left, hpieces]

theorem namesBelow_self (root : Path) : root.namesBelow root = [] := by
  rw [namesBelow, List.drop_length]
  rfl

end Path

end DeadExports
