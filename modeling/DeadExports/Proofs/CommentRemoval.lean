import DeadExports.Proofs.PathBelow
import DeadExports.Proofs.Utf8Encoding
import DeadExports.Settings.File

/-!
# Removing comments

Comments are removed line by line, so a statement about a whole file is an induction on its
lines: there is a last line, and there are lines in front of others. What is left of an
encoded text is an encoded text, because lines end and comments begin at ASCII characters.
-/

namespace DeadExports

/-! ## Lines -/

theorem dropLastMark_cases {α : Type} [DecidableEq α] (mark : α) (line : List α) :
    dropLastMark mark line = line ∨ line = dropLastMark mark line ++ [mark] := by
  rw [dropLastMark]
  split
  next hlast => exact .inr (List.dropLast_append_getLast? mark hlast).symm
  next => exact .inl rfl

namespace Bytes

theorem lines_of_notMem {line : Bytes} (h : 0x0A ∉ line) :
    lines line = if line.isEmpty then [] else [line] := by
  rw [lines, cutAt_of_notMem h, linesOfPieces]

theorem lines_append_cons {line : Bytes} (h : 0x0A ∉ line) (rest : Bytes) :
    lines (line ++ 0x0A :: rest) = dropLastMark 0x0D line :: lines rest := by
  obtain ⟨piece, pieces, hpieces⟩ := List.exists_cons_of_ne_nil (cutAt_ne_nil 0x0A rest)
  rw [lines, cutAt_append_cons, cutAt_of_notMem h, lines, hpieces]
  rfl

theorem lines_eq_nil_iff {bytes : Bytes} : lines bytes = [] ↔ bytes = [] := by
  constructor
  · intro h
    by_cases hmark : 0x0A ∈ bytes
    · obtain ⟨line, rest, rfl, hline⟩ := List.eq_append_cons_of_mem hmark
      rw [lines_append_cons hline] at h
      cases h
    · rw [lines_of_notMem hmark] at h
      split at h
      next hempty => exact List.isEmpty_iff.mp hempty
      next => cases h
  · rintro rfl
    rfl

end Bytes

namespace Settings

/-! ## One line after the other -/

theorem stripComments_of_notMem {line : Bytes} (h : 0x0A ∉ line) :
    stripComments line = cutComment line := by
  rw [stripComments, Bytes.lines_of_notMem h]
  split
  next hempty =>
    rw [List.isEmpty_iff.mp hempty]
    rfl
  next => rfl

/-- A line keeps its line feed only if something follows it. -/
theorem stripComments_append_cons {line : Bytes} (h : 0x0A ∉ line) (rest : Bytes) :
    stripComments (line ++ 0x0A :: rest) =
      cutComment (dropLastMark 0x0D line) ++
        if rest = [] then [] else 0x0A :: stripComments rest := by
  rw [stripComments, Bytes.lines_append_cons h, List.map_cons, stripComments]
  split
  next hrest =>
    rw [Bytes.lines_eq_nil_iff.mpr hrest, List.append_nil]
    rfl
  next hrest =>
    obtain ⟨first, lines, hlines⟩ :=
      List.exists_cons_of_ne_nil fun hnil => hrest (Bytes.lines_eq_nil_iff.mp hnil)
    rw [hlines]
    rfl

/-! ## Encoded texts -/

theorem cutComment_append_of_notMem {bytes : Bytes} (h : 0x2F ∉ bytes) (rest : Bytes) :
    cutComment (bytes ++ rest) = bytes ++ cutComment rest := by
  induction bytes with
  | nil => rfl
  | cons byte bytes ih =>
      rw [List.mem_cons, not_or] at h
      rw [List.cons_append, cutComment, if_neg fun hslash => h.1 hslash.1.symm, ih h.2]
      rfl

/-- A text up to its first `//`. -/
def beforeComment : Text → Text
  | [] => []
  | c :: text => if c = '/' ∧ text.head? = some '/' then [] else c :: beforeComment text

theorem cutComment_encode (line : Text) :
    cutComment (Text.encode line) = Text.encode (beforeComment line) := by
  induction line with
  | nil => rfl
  | cons c line ih =>
      by_cases hc : c = '/'
      · have hnext : (Text.encode line).head? = some 0x2F ↔ line.head? = some '/' := by
          rw [List.head?_eq_some_iff, List.head?_eq_some_iff]
          constructor
          · rintro ⟨rest, hrest⟩
            obtain ⟨more, hmore, -⟩ := (Text.encode_eq_cons_iff (c := '/') (by decide)).mp hrest
            exact ⟨more, hmore⟩
          · rintro ⟨more, rfl⟩
            exact ⟨_, Text.encode_cons_of_lt (by decide) more⟩
        rw [hc, Text.encode_cons_of_lt (by decide), cutComment, beforeComment]
        by_cases hslash : line.head? = some '/'
        · rw [if_pos ⟨rfl, hnext.mpr hslash⟩, if_pos ⟨rfl, hslash⟩]
          rfl
        · rw [if_neg fun h => hslash (hnext.mp h.2), if_neg fun h => hslash h.2, ih,
            Text.encode_cons_of_lt (by decide)]
      · have hslash : 0x2F ∉ Text.encode [c] := Text.notMem_encode_singleton (by decide) hc
        rw [beforeComment, if_neg fun h => hc h.1, ← List.singleton_append, Text.encode_append,
          cutComment_append_of_notMem hslash, ih, ← Text.encode_append]
        rfl

theorem dropLastMark_encode (line : Text) :
    dropLastMark 0x0D (Text.encode line) = Text.encode (dropLastMark '\r' line) := by
  rcases List.eq_nil_or_concat line with rfl | ⟨front, c, rfl⟩
  · rfl
  · rw [List.concat_eq_append, Text.encode_append]
    by_cases hc : c = '\r'
    · have hbyte : Text.encode ['\r'] = [0x0D] := rfl
      rw [hc, hbyte, dropLastMark, dropLastMark, if_pos List.getLast?_concat,
        if_pos List.getLast?_concat, List.dropLast_concat, List.dropLast_concat]
    · have hbyte : 0x0D ∉ Text.encode [c] := Text.notMem_encode_singleton (by decide) hc
      have hlast : (Text.encode front ++ Text.encode [c]).getLast? ≠ some 0x0D := by
        rw [List.getLast?_append_of_ne_nil _ (by simp [Text.encode_eq_nil_iff])]
        intro hlast
        exact hbyte (List.mem_of_getLast? hlast)
      rw [dropLastMark, dropLastMark, if_neg hlast, if_neg (by simpa using hc), Text.encode_append]

theorem lineFeed_notMem_encode {line : Text} (h : '\n' ∉ line) : 0x0A ∉ Text.encode line := by
  intro hmem
  exact h ((Text.mem_encode_iff (c := '\n') (by decide)).mp hmem)

theorem encode_line_append (line rest : Text) :
    Text.encode (line ++ '\n' :: rest) = Text.encode line ++ 0x0A :: Text.encode rest := by
  rw [Text.encode_append, Text.encode_cons_of_lt (by decide)]
  rfl

/-- A line is cut and put in front of what is left of the lines behind it. -/
theorem stripComments_encode_line
    {line rest text : Text} (hline : '\n' ∉ line)
    (hrest : stripComments (Text.encode rest) = Text.encode text) :
    stripComments (Text.encode (line ++ '\n' :: rest)) =
      Text.encode (beforeComment (dropLastMark '\r' line) ++
        if rest = [] then [] else '\n' :: text) := by
  rw [encode_line_append, stripComments_append_cons (lineFeed_notMem_encode hline),
    dropLastMark_encode, cutComment_encode, Text.encode_append, hrest]
  by_cases hnil : rest = []
  · rw [if_pos (Text.encode_eq_nil_iff.mpr hnil), if_pos hnil]
    rfl
  · rw [if_neg (mt Text.encode_eq_nil_iff.mp hnil), if_neg hnil, Text.encode_cons_of_lt (by decide)]
    rfl

theorem exists_stripComments_encode (content : Text) :
    ∃ text : Text, stripComments (Text.encode content) = Text.encode text := by
  induction content using lines_induction '\n' with
  | last line hline =>
      rw [stripComments_of_notMem (lineFeed_notMem_encode hline), cutComment_encode]
      exact ⟨beforeComment line, rfl⟩
  | more line rest hline ih =>
      obtain ⟨text, htext⟩ := ih
      exact ⟨_, stripComments_encode_line hline htext⟩

end Settings

end DeadExports
