import DeadExports.Proofs.DocumentReading

/-!
# Comments at the ends of lines

Comments are removed without regard to literals. A document survives this when none of its
literals contains `//`: no line break can stand in a literal, so every slash of the document
has the rest of its literal after it on the same line, and each line is cut exactly where its
comment was added. Some line breaks are lost, which only makes white space shorter.

When a literal does contain `//`, the text ends in the middle of the first such literal, or
goes on with a line break. A reader would have to find the same tokens up to that literal and
then a literal that is closed earlier, which would make one literal the beginning of another.
-/

namespace DeadExports.Settings

/-! ## Lost line breaks -/

/-- A text after some of its line breaks were removed. -/
inductive LosesBreaks : Text → Text → Prop where
  | nil : LosesBreaks [] []
  | keep (c : Char) {text text' : Text} (h : LosesBreaks text text') :
      LosesBreaks (c :: text) (c :: text')
  | drop {c : Char} (hc : c = '\n' ∨ c = '\r') {text text' : Text} (h : LosesBreaks text text') :
      LosesBreaks (c :: text) text'

namespace LosesBreaks

theorem refl : ∀ text : Text, LosesBreaks text text
  | [] => .nil
  | c :: text => .keep c (refl text)

theorem append
    {front front' back back' : Text}
    (hfront : LosesBreaks front front') (hback : LosesBreaks back back') :
    LosesBreaks (front ++ back) (front' ++ back') := by
  induction hfront with
  | nil => exact hback
  | keep c _ ih => exact .keep c ih
  | drop hc _ ih => exact .drop hc ih

theorem of_append {front back text : Text} (h : LosesBreaks (front ++ back) text) :
    ∃ front' back', text = front' ++ back' ∧ LosesBreaks front front' ∧ LosesBreaks back back' := by
  induction front generalizing text with
  | nil => exact ⟨[], text, rfl, .nil, h⟩
  | cons c front ih =>
      cases h with
      | keep _ h =>
          obtain ⟨front', back', rfl, hfront, hback⟩ := ih h
          exact ⟨c :: front', back', rfl, .keep c hfront, hback⟩
      | drop hc h =>
          obtain ⟨front', back', rfl, hfront, hback⟩ := ih h
          exact ⟨front', back', rfl, .drop hc hfront, hback⟩

theorem subset {text text' : Text} (h : LosesBreaks text text') : text' ⊆ text := by
  induction h with
  | nil => exact List.Subset.refl []
  | keep c _ ih => exact List.cons_subset_cons c ih
  | drop _ _ ih => exact List.subset_cons_of_subset _ ih

theorem trans
    {text text' text'' : Text}
    (hfirst : LosesBreaks text text') (hsecond : LosesBreaks text' text'') :
    LosesBreaks text text'' := by
  induction hfirst generalizing text'' with
  | nil => exact hsecond
  | keep c _ ih =>
      cases hsecond with
      | keep _ h => exact .keep c (ih h)
      | drop hc h => exact .drop hc (ih h)
  | drop hc _ ih => exact .drop hc (ih hsecond)

theorem eq_of_controlFree
    {text text' : Text} (h : LosesBreaks text text') (htext : ∀ c ∈ text, 0x20 ≤ c.toNat) :
    text' = text := by
  induction h with
  | nil => rfl
  | keep c _ ih => rw [ih fun d hd => htext d (List.mem_cons_of_mem c hd)]
  | drop hc _ _ =>
      have hcontrol := htext _ List.mem_cons_self
      rcases hc with rfl | rfl <;> exact absurd hcontrol (by decide)

end LosesBreaks

/-! ## Where a comment begins -/

/-- Unless two slashes meet at the seam, a comment begins in the front or in the back. -/
theorem beforeComment_append
    {front back : Text} (hseam : front.getLast? = some '/' → back.head? ≠ some '/') :
    beforeComment (front ++ back) =
      if beforeComment front = front then front ++ beforeComment back else beforeComment front := by
  induction front with
  | nil => rfl
  | cons c front ih =>
      have hslashes : (c = '/' ∧ (front ++ back).head? = some '/') ↔
          (c = '/' ∧ front.head? = some '/') := by
        cases front with
        | nil => simpa using hseam
        | cons d front => rfl
      have hfront : front.getLast? = some '/' → back.head? ≠ some '/' := by
        cases front with
        | nil => simp
        | cons d front => rwa [List.getLast?_cons_cons] at hseam
      rw [List.cons_append, beforeComment, beforeComment]
      by_cases hcut : c = '/' ∧ front.head? = some '/'
      · rw [if_pos (hslashes.mpr hcut), if_pos hcut, if_neg (List.cons_ne_nil c front).symm]
      · rw [if_neg fun h => hcut (hslashes.mp h), if_neg hcut, ih hfront]
        by_cases hself : beforeComment front = front
        · rw [if_pos hself, if_pos (congrArg (c :: ·) hself)]
          rfl
        · rw [if_neg hself, if_neg fun h => hself (List.cons.inj h).2]

theorem prefix_beforeComment (text : Text) : beforeComment text <+: text := by
  induction text with
  | nil => exact List.nil_prefix
  | cons c text ih =>
      rw [beforeComment]
      split
      · exact List.nil_prefix
      · exact (List.prefix_cons_inj c).mpr ih

theorem beforeComment_cases (text : Text) :
    beforeComment text = text ∨ ∃ back, text = beforeComment text ++ '/' :: '/' :: back := by
  induction text with
  | nil => exact .inl rfl
  | cons c text ih =>
      rw [beforeComment]
      split
      next hslashes =>
        obtain ⟨back, rfl⟩ := List.head?_eq_some_iff.mp hslashes.2
        exact .inr ⟨back, by rw [hslashes.1]; rfl⟩
      next =>
        rcases ih with h | ⟨back, hback⟩
        · exact .inl (by rw [h])
        · exact .inr ⟨back, congrArg (c :: ·) hback⟩

theorem beforeComment_eq_self_iff {text : Text} :
    beforeComment text = text ↔ ¬['/', '/'] <:+: text := by
  constructor
  · intro hself
    rintro ⟨front, back, rfl⟩
    induction front with
    | nil => cases hself
    | cons c front ih =>
        rw [List.cons_append, List.cons_append, beforeComment] at hself
        split at hself
        · cases hself
        · exact ih (List.cons.inj hself).2
  · intro hfree
    rcases beforeComment_cases text with h | ⟨back, hback⟩
    · exact h
    · exact absurd ⟨beforeComment text, back, by simpa using hback.symm⟩ hfree

/-- Two slashes after a text begin a comment, if none was begun before. -/
theorem beforeComment_append_slashes
    {text : Text} (hlast : text.getLast? ≠ some '/') (back : Text) :
    beforeComment (text ++ '/' :: '/' :: back) = beforeComment text := by
  rw [beforeComment_append fun h => absurd h hlast]
  split
  next hself => rw [hself, beforeComment, if_pos ⟨rfl, rfl⟩, List.append_nil]
  next => rfl

/-! ## Slashes inside of lines -/

/-- No slash is the last character of its line. -/
def SlashesInside (text : Text) : Prop :=
  ∀ front back, text = front ++ '/' :: back → ∃ c more, back = c :: more ∧ 0x20 ≤ c.toNat

namespace SlashesInside

theorem of_append {front back : Text} (h : SlashesInside (front ++ back)) : SlashesInside back := by
  rintro before after rfl
  exact h (front ++ before) after (by rw [List.append_assoc])

theorem getLast?_ne
    {front back : Text} (h : SlashesInside (front ++ back))
    (hback : ∀ c ∈ back.head?, c.toNat < 0x20) : front.getLast? ≠ some '/' := by
  intro hlast
  obtain ⟨before, rfl⟩ := List.getLast?_eq_some_iff.mp hlast
  obtain ⟨c, more, rfl, hc⟩ := h before back (by simp)
  exact absurd (hback c rfl) (by omega)

theorem append {front back : Text} (hfront : SlashesInside front) (hback : SlashesInside back) :
    SlashesInside (front ++ back) := by
  intro before after h
  rcases List.append_eq_append_iff.mp h with ⟨between, rfl, hbetween⟩ | ⟨between, rfl, hbetween⟩
  · exact hback between after hbetween
  · cases between with
    | nil => exact hback [] after hbetween.symm
    | cons c between =>
        obtain ⟨rfl, rfl⟩ := List.cons.inj hbetween
        obtain ⟨c, more, rfl, hc⟩ := hfront before between rfl
        exact ⟨c, more ++ back, rfl, hc⟩

theorem of_notMem {text : Text} (h : '/' ∉ text) : SlashesInside text := by
  rintro front back rfl
  exact absurd (by simp) h

theorem of_controlFree
    {text : Text} (htext : ∀ c ∈ text, 0x20 ≤ c.toNat) (hlast : text.getLast? ≠ some '/') :
    SlashesInside text := by
  rintro front back rfl
  cases back with
  | nil => exact absurd List.getLast?_concat hlast
  | cons c back => exact ⟨c, back, rfl, htext c (by simp)⟩

end SlashesInside

/-! ## Adding comments -/

/-- What may be added at the end of a line: nothing, or a comment. -/
def IsTail (tail : Text) : Prop :=
  tail = [] ∨ ∃ comment, tail = '/' :: '/' :: comment ∧ '\n' ∉ comment

/-- A text with comments added at the ends of some of its lines, in front of the characters
that end the line. -/
inductive AppendsComments : Text → Text → Prop where
  | last {line tail : Text} (hline : '\n' ∉ line) (htail : IsTail tail) :
      AppendsComments line (line ++ tail)
  | more {line tail ending source content : Text} (hline : '\n' ∉ line) (htail : IsTail tail)
      (hending : ending = [] ∨ ending = ['\r']) (h : AppendsComments source content) :
      AppendsComments (line ++ ending ++ '\n' :: source) (line ++ tail ++ ending ++ '\n' :: content)

theorem IsTail.notMem {tail : Text} (h : IsTail tail) : '\n' ∉ tail := by
  rcases h with rfl | ⟨comment, rfl, hcomment⟩
  · exact List.not_mem_nil
  · simpa using hcomment

theorem beforeComment_append_tail
    {line tail : Text} (hlast : line.getLast? ≠ some '/') (htail : IsTail tail) :
    beforeComment (line ++ tail) = beforeComment line := by
  rcases htail with rfl | ⟨comment, rfl, -⟩
  · rw [List.append_nil]
  · exact beforeComment_append_slashes hlast comment

theorem LosesBreaks.beforeComment_concat (line : Text) :
    LosesBreaks (beforeComment (line ++ ['\r'])) (beforeComment line) := by
  rw [beforeComment_append fun _ => by simp]
  split
  next hself =>
    rw [hself]
    simpa [beforeComment] using (LosesBreaks.refl line).append (.drop (.inr rfl) .nil)
  next => exact .refl _

theorem LosesBreaks.beforeComment_dropLastMark (line : Text) :
    LosesBreaks (beforeComment line) (beforeComment (dropLastMark '\r' line)) := by
  rcases dropLastMark_cases '\r' line with h | h
  · rw [h]
    exact .refl _
  · have hconcat := beforeComment_concat (dropLastMark '\r' line)
    rwa [← h] at hconcat

/-- A line that is cut at an added comment loses at most a carriage return. -/
theorem LosesBreaks.beforeComment_line
    {line tail ending : Text} (hlast : line.getLast? ≠ some '/') (htail : IsTail tail)
    (hending : ending = [] ∨ ending = ['\r']) :
    LosesBreaks (beforeComment (line ++ ending))
      (beforeComment (dropLastMark '\r' (line ++ tail ++ ending))) := by
  have hwhole := LosesBreaks.beforeComment_dropLastMark (line ++ tail ++ ending)
  rcases htail with rfl | ⟨comment, rfl, -⟩
  · rwa [List.append_nil] at hwhole ⊢
  · rw [List.append_assoc, List.cons_append, List.cons_append,
      beforeComment_append_slashes hlast] at hwhole
    have hline : LosesBreaks (beforeComment (line ++ ending)) (beforeComment line) := by
      rcases hending with rfl | rfl
      · rw [List.append_nil]
        exact .refl _
      · exact beforeComment_concat line
    rw [List.append_assoc]
    exact hline.trans hwhole

/-- What may be left of a text: the text up to its own first `//`, apart from line breaks, and
more only behind such a `//`, beginning with a line break. -/
def Leaves (source left : Text) : Prop :=
  ∃ text rest : Text, left = text ++ rest ∧ LosesBreaks (beforeComment source) text ∧
    (beforeComment source = source → rest = []) ∧ ∀ c ∈ rest.head?, c = '\n'

theorem beforeComment_append_line (line source : Text) :
    beforeComment (line ++ '\n' :: source) =
      if beforeComment line = line then line ++ '\n' :: beforeComment source
      else beforeComment line := by
  rw [beforeComment_append fun _ => by simp]
  simp [beforeComment]

/-- A line that is cut at its own `//` is not all of a longer text. -/
theorem beforeComment_ne_append (line : Text) (c : Char) (source : Text) :
    beforeComment line ≠ line ++ c :: source := by
  intro h
  have hlength := (prefix_beforeComment line).length_le
  rw [h, List.length_append, List.length_cons] at hlength
  omega

theorem Leaves.append_line
    {line first source left : Text} (hfirst : LosesBreaks (beforeComment line) first)
    (h : Leaves source left) : Leaves (line ++ '\n' :: source) (first ++ '\n' :: left) := by
  rw [Leaves, beforeComment_append_line]
  by_cases hself : beforeComment line = line
  · obtain ⟨text, rest, rfl, hloses, hrest, hhead⟩ := h
    rw [hself] at hfirst
    rw [if_pos hself]
    refine ⟨first ++ '\n' :: text, rest, by simp, hfirst.append (.keep '\n' hloses), ?_, hhead⟩
    intro hwhole
    exact hrest (by simpa using hwhole)
  · rw [if_neg hself]
    exact ⟨first, '\n' :: left, rfl, hfirst,
      fun hwhole => absurd hwhole (beforeComment_ne_append line '\n' source), by simp⟩

/-- When nothing is left of the others, the line loses its end. -/
theorem Leaves.append_lastLine
    {line first source : Text} (hfirst : LosesBreaks (beforeComment line) first)
    (h : Leaves source []) : Leaves (line ++ '\n' :: source) first := by
  rw [Leaves, beforeComment_append_line]
  by_cases hself : beforeComment line = line
  · obtain ⟨text, rest, hnil, hloses, -, -⟩ := h
    obtain ⟨rfl, rfl⟩ := List.append_eq_nil_iff.mp hnil.symm
    rw [hself] at hfirst
    rw [if_pos hself]
    exact ⟨first ++ [], [], by simp, hfirst.append (.drop (.inl rfl) hloses), fun _ => rfl, by simp⟩
  · rw [if_neg hself]
    exact ⟨first, [], by simp, hfirst,
      fun hwhole => absurd hwhole (beforeComment_ne_append line '\n' source), by simp⟩

/-- What removing added comments leaves, when all slashes of the text are inside of lines. -/
theorem AppendsComments.exists_stripComments
    {source content : Text} (h : AppendsComments source content) (hslashes : SlashesInside source) :
    ∃ left : Text, stripComments (Text.encode content) = Text.encode left ∧ Leaves source left := by
  induction h with
  | @last line tail hline htail =>
      have hlast : line.getLast? ≠ some '/' := by
        rw [← List.append_nil line] at hslashes
        exact hslashes.getLast?_ne (by simp)
      have hwhole : '\n' ∉ line ++ tail := by
        rw [List.mem_append, not_or]
        exact ⟨hline, htail.notMem⟩
      refine ⟨beforeComment line, ?_, _, [], (List.append_nil _).symm, .refl _, fun _ => rfl,
        by simp⟩
      rw [stripComments_of_notMem (lineFeed_notMem_encode hwhole), cutComment_encode,
        beforeComment_append_tail hlast htail]
  | @more line tail ending source content hline htail hending h ih =>
      have hlast : line.getLast? ≠ some '/' := by
        rw [List.append_assoc] at hslashes
        apply hslashes.getLast?_ne
        rcases hending with rfl | rfl <;> simp
      have hwhole : '\n' ∉ line ++ tail ++ ending := by
        simp only [List.mem_append, not_or]
        refine ⟨⟨hline, htail.notMem⟩, ?_⟩
        rcases hending with rfl | rfl <;> simp
      have hfirst := LosesBreaks.beforeComment_line hlast htail hending
      rw [← List.singleton_append, ← List.append_assoc] at hslashes
      obtain ⟨left, hstripped, hleaves⟩ := ih hslashes.of_append
      refine ⟨_, stripComments_encode_line hwhole hstripped, ?_⟩
      split
      next hcontent =>
        rw [hcontent] at hstripped
        rw [Text.encode_eq_nil_iff.mp hstripped.symm] at hleaves
        rw [List.append_nil]
        exact hleaves.append_lastLine hfirst
      next => exact hleaves.append_line hfirst

/-! ## Comments and tokens -/

theorem LiteralChar.le_of_mem_source {char : LiteralChar} {c : Char} (hc : c ∈ char.source) :
    0x20 ≤ c.toNat := by
  have hdigit (digit : HexDigit) : 0x20 ≤ digit.char.toNat := by
    cases digit <;> decide +revert
  have hcode {code : HexCode} (hmem : c ∈ code.source) : 0x20 ≤ c.toNat := by
    simp only [HexCode.source, List.mem_cons, List.not_mem_nil, or_false] at hmem
    rcases hmem with rfl | rfl | rfl | rfl <;> exact hdigit _
  cases char with
  | plain d hplain =>
      rw [List.mem_singleton.mp hc]
      exact hplain.1
  | escaped escape =>
      simp only [source, List.mem_cons, List.not_mem_nil, or_false] at hc
      rcases hc with rfl | rfl
      · decide
      · cases escape <;> decide
  | coded code hhigh hlow =>
      simp only [source, List.mem_cons] at hc
      rcases hc with rfl | rfl | hc
      · decide
      · decide
      · exact hcode hc
  | paired high low hhigh hlow =>
      simp only [source, List.mem_cons, List.mem_append] at hc
      rcases hc with rfl | rfl | hc | rfl | rfl | hc
      · decide
      · decide
      · exact hcode hc
      · decide
      · decide
      · exact hcode hc

theorem Literal.le_of_mem_source (literal : Literal) {c : Char} (hc : c ∈ literal.source) :
    0x20 ≤ c.toNat := by
  simp only [source, List.mem_cons, List.mem_append, List.mem_flatMap, List.not_mem_nil,
    or_false] at hc
  rcases hc with rfl | ⟨char, -, hchar⟩ | rfl
  · decide
  · exact LiteralChar.le_of_mem_source hchar
  · decide

theorem Token.le_of_mem_source {token : Token} {c : Char} (hc : c ∈ token.source) :
    0x20 ≤ c.toNat := by
  cases token with
  | mark m =>
      rw [List.mem_singleton.mp hc]
      cases m <;> decide
  | literal l => exact l.le_of_mem_source hc

theorem Literal.getLast?_source (literal : Literal) : literal.source.getLast? = some '"' := by
  rw [source, ← List.cons_append, List.getLast?_concat]

theorem Token.getLast?_source_ne (token : Token) : token.source.getLast? ≠ some '/' := by
  cases token with
  | mark m => cases m <;> decide
  | literal l => simp [source, l.getLast?_source]

theorem Token.slashesInside (token : Token) : SlashesInside token.source := by
  cases token with
  | mark m => cases m <;> exact .of_notMem (by decide)
  | literal l => exact .of_controlFree (fun c hc => le_of_mem_source hc) (getLast?_source_ne _)

theorem slash_notMem_of_white {blanks : Text} (h : ∀ c ∈ blanks, isWhite c = true) :
    '/' ∉ blanks := by
  intro hmem
  exact absurd (h '/' hmem) (by decide)

theorem Begins.slashesInside
    {tokens : List Token} {text rest : Text} (h : Begins tokens text rest)
    (hrest : SlashesInside rest) : SlashesInside text := by
  induction tokens generalizing text with
  | nil => rwa [begins_nil.mp h]
  | cons token tokens ih =>
      obtain ⟨blanks, more, hblanks, rfl, hmore⟩ := h
      exact (SlashesInside.of_notMem (slash_notMem_of_white hblanks)).append
        (token.slashesInside.append (ih hmore))

/-- A literal in whose spelling a comment seems to begin. -/
def Literal.HoldsSlashes (literal : Literal) : Prop :=
  ['/', '/'] <:+: literal.source

theorem beforeComment_append_of_notMem {front : Text} (h : '/' ∉ front) (back : Text) :
    beforeComment (front ++ back) = front ++ beforeComment back := by
  have hself : beforeComment front = front := by
    rw [beforeComment_eq_self_iff]
    exact fun hslashes => h (hslashes.subset List.mem_cons_self)
  rw [beforeComment_append fun hlast => absurd (List.mem_of_getLast? hlast) h, if_pos hself]

theorem Begins.beforeComment_eq_self
    {tokens : List Token} {text blanks : Text} (h : Begins tokens text blanks)
    (hblanks : ∀ c ∈ blanks, isWhite c = true)
    (hfree : ∀ literal, .literal literal ∈ tokens → ¬literal.HoldsSlashes) :
    beforeComment text = text := by
  induction tokens generalizing text with
  | nil =>
      rw [begins_nil.mp h, ← List.append_nil blanks,
        beforeComment_append_of_notMem (slash_notMem_of_white hblanks)]
      rfl
  | cons token tokens ih =>
      obtain ⟨white, more, hwhite, rfl, hmore⟩ := h
      have hself : beforeComment token.source = token.source := by
        cases token with
        | mark m => cases m <;> decide
        | literal l => exact beforeComment_eq_self_iff.mpr (hfree l List.mem_cons_self)
      rw [beforeComment_append_of_notMem (slash_notMem_of_white hwhite),
        beforeComment_append fun hlast => absurd hlast token.getLast?_source_ne, if_pos hself,
        ih hmore fun literal hmem => hfree literal (List.mem_cons_of_mem _ hmem)]

/-- With such a literal, a comment begins inside of the first one. -/
theorem Begins.exists_beforeComment
    {tokens : List Token} {text rest : Text} (h : Begins tokens text rest)
    (hslashes : ∃ literal, .literal literal ∈ tokens ∧ literal.HoldsSlashes) :
    ∃ (front cut back : Text) (tokens' : List Token) (literal : Literal),
      beforeComment text = front ++ '"' :: cut ∧ Spells tokens' front ∧
      literal.source = '"' :: cut ++ '/' :: '/' :: back := by
  induction tokens generalizing text with
  | nil => simp at hslashes
  | cons token tokens ih =>
      obtain ⟨white, more, hwhite, rfl, hmore⟩ := h
      rw [beforeComment_append_of_notMem (slash_notMem_of_white hwhite),
        beforeComment_append fun hlast => absurd hlast token.getLast?_source_ne]
      by_cases hself : beforeComment token.source = token.source
      · rw [if_pos hself]
        have hlater : ∃ literal, .literal literal ∈ tokens ∧ literal.HoldsSlashes := by
          obtain ⟨literal, hmem, hholds⟩ := hslashes
          rcases List.mem_cons.mp hmem with rfl | hmem
          · exact absurd hholds (beforeComment_eq_self_iff.mp hself)
          · exact ⟨literal, hmem, hholds⟩
        obtain ⟨front, cut, back, tokens', literal, hmoreCut, ⟨blanks, hfront, hblanks⟩,
          hliteral⟩ := ih hmore hlater
        refine ⟨white ++ (token.source ++ front), cut, back, token :: tokens', literal,
          by rw [hmoreCut]; simp, ⟨blanks, ⟨white, front, hwhite, rfl, hfront⟩, hblanks⟩, hliteral⟩
      · rw [if_neg hself]
        rcases beforeComment_cases token.source with hcut | ⟨back, hcut⟩
        · exact absurd hcut hself
        · cases token with
          | mark m => cases m <;> exact absurd (by decide) hself
          | literal l =>
              have hquote : ∃ cut, beforeComment l.source = '"' :: cut := by
                rw [Literal.source, beforeComment, if_neg (by simp)]
                exact ⟨_, rfl⟩
              obtain ⟨cut, hquote⟩ := hquote
              rw [Token.source, hquote] at hcut ⊢
              exact ⟨white, cut, back, [], l, rfl, ⟨white, rfl, hwhite⟩, hcut⟩

/-! ## Reading again -/

theorem LosesBreaks.begins
    {tokens : List Token} {text text' rest : Text} (hloses : LosesBreaks text text')
    (h : Begins tokens text rest) :
    ∃ rest', Begins tokens text' rest' ∧ LosesBreaks rest rest' := by
  induction tokens generalizing text text' with
  | nil => exact ⟨text', rfl, begins_nil.mp h ▸ hloses⟩
  | cons token tokens ih =>
      obtain ⟨blanks, more, hblanks, rfl, hmore⟩ := h
      obtain ⟨blanks', _, rfl, hblanks', hloses⟩ := hloses.of_append
      obtain ⟨source', more', rfl, hsource', hmore'⟩ := hloses.of_append
      obtain ⟨rest', hrest', hrest⟩ := ih hmore' hmore
      have hsource : source' = token.source :=
        hsource'.eq_of_controlFree fun c hc => Token.le_of_mem_source hc
      exact ⟨rest', ⟨blanks', more', fun c hc => hblanks c (hblanks'.subset hc), by rw [hsource],
        hrest'⟩, hrest⟩

theorem LosesBreaks.spells
    {tokens : List Token} {text text' : Text} (hloses : LosesBreaks text text')
    (h : Spells tokens text) : Spells tokens text' := by
  obtain ⟨blanks, hbegins, hblanks⟩ := h
  obtain ⟨blanks', hbegins', hlost⟩ := hloses.begins hbegins
  exact ⟨blanks', hbegins', fun c hc => hblanks c (hlost.subset hc)⟩

/-- No literal is the beginning of another one. -/
theorem Literal.eq_of_source_append
    {first second : Literal} {rest rest' : Text}
    (h : first.source ++ rest = second.source ++ rest') : rest = rest' := by
  have hfirst := readStringValue_encode_eq_ok_iff.mpr ⟨first, rest, rfl, rfl, rfl⟩
  have hsecond := readStringValue_encode_eq_ok_iff.mpr ⟨second, rest', rfl, rfl, rfl⟩
  rw [h, hsecond] at hfirst
  exact Text.encode_injective (Prod.mk.inj (Except.ok.inj hfirst)).2.symm

/-- No token is the beginning of another one. -/
theorem Token.eq_of_source_append
    {first second : Token} {rest rest' : Text}
    (h : first.source ++ rest = second.source ++ rest') : rest = rest' := by
  have hmark (mark : Mark) : mark.char ≠ '"' := by cases mark <;> decide
  cases first with
  | mark m =>
      cases second with
      | mark m' => exact (List.cons.inj h).2
      | literal l => exact absurd (List.cons.inj h).1 (hmark m)
  | literal l =>
      cases second with
      | mark m => exact absurd (List.cons.inj h).1.symm (hmark m)
      | literal l' => exact Literal.eq_of_source_append h

/-- Any tokens of a text go on where something is left that is not white space. -/
theorem Spells.exists_next
    {tokens : List Token} {blanks rest : Text} {c : Char} (h : Spells tokens (blanks ++ c :: rest))
    (hblanks : ∀ d ∈ blanks, isWhite d = true) (hc : isWhite c = false) :
    ∃ (token : Token) (tokens' : List Token) (more : Text),
      c :: rest = token.source ++ more ∧ Spells tokens' more := by
  obtain ⟨white, hbegins, hwhite⟩ := h
  cases tokens with
  | nil =>
      rw [← begins_nil.mp hbegins] at hwhite
      have := hwhite c (by simp)
      simp [hc] at this
  | cons token tokens =>
      obtain ⟨more, hmore, htokens⟩ := begins_cons.mp hbegins
      rw [List.dropWhile_append_of_pos hblanks, List.dropWhile_cons_of_neg (by simp [hc])] at hmore
      exact ⟨token, tokens, more, hmore, white, htokens, hwhite⟩

/-- Where a quote follows some tokens, any tokens of the whole text have a literal. -/
theorem Spells.exists_literal
    {tokens tokens' : List Token} {front tail : Text} (hfront : Spells tokens front)
    (h : Spells tokens' (front ++ '"' :: tail)) :
    ∃ (literal : Literal) (more : Text), '"' :: tail = literal.source ++ more := by
  obtain ⟨blanks, hbegins, hblanks⟩ := hfront
  induction tokens generalizing front tokens' with
  | nil =>
      rw [begins_nil.mp hbegins] at h
      obtain ⟨token, -, more, hmore, -⟩ := h.exists_next hblanks (by decide)
      cases token with
      | mark m =>
          have hquote := (List.cons.inj hmore).1
          cases m <;> exact absurd hquote (by decide)
      | literal l => exact ⟨l, more, hmore⟩
  | cons token tokens ih =>
      obtain ⟨white, more, hwhite, rfl, hmore⟩ := hbegins
      obtain ⟨c, source, hsource, hc⟩ := token.exists_source_eq_cons
      rw [List.append_assoc, hsource, List.cons_append, List.cons_append] at h
      obtain ⟨token', tokens', more', hmore', htokens'⟩ := h.exists_next hwhite hc
      rw [List.append_assoc, ← List.cons_append, ← hsource] at hmore'
      rw [← Token.eq_of_source_append hmore'] at htokens'
      exact ih htokens' hmore

/-- Removing added comments from a document gives a text of the same tokens, if none of its
literals holds `//`. -/
theorem Spells.exists_stripComments
    {tokens : List Token} {source content : Text} (h : Spells tokens source)
    (hcontent : AppendsComments source content)
    (hfree : ∀ literal, .literal literal ∈ tokens → ¬literal.HoldsSlashes) :
    ∃ text : Text, stripComments (Text.encode content) = Text.encode text ∧ Spells tokens text := by
  obtain ⟨blanks, hbegins, hblanks⟩ := h
  have hslashes := hbegins.slashesInside (.of_notMem (slash_notMem_of_white hblanks))
  have hself := hbegins.beforeComment_eq_self hblanks hfree
  obtain ⟨left, hleft, text, rest, rfl, hloses, hrest, -⟩ :=
    hcontent.exists_stripComments hslashes
  rw [hrest hself, List.append_nil] at hleft
  rw [hself] at hloses
  exact ⟨text, hleft, hloses.spells ⟨blanks, hbegins, hblanks⟩⟩

/-- Otherwise it gives no document at all. -/
theorem Spells.not_spells_stripComments
    {tokens tokens' : List Token} {source content text : Text} (h : Spells tokens source)
    (hcontent : AppendsComments source content)
    (hslashes : ∃ literal, .literal literal ∈ tokens ∧ literal.HoldsSlashes)
    (htext : stripComments (Text.encode content) = Text.encode text) : ¬Spells tokens' text := by
  intro htokens'
  obtain ⟨blanks, hbegins, hblanks⟩ := h
  have hinside := hbegins.slashesInside (.of_notMem (slash_notMem_of_white hblanks))
  obtain ⟨front, cut, back, tokens, literal, hcut, hfront, hliteral⟩ :=
    hbegins.exists_beforeComment hslashes
  obtain ⟨left, hleft, whole, rest, rfl, hloses, -, hrest⟩ := hcontent.exists_stripComments hinside
  obtain rfl := Text.encode_injective (htext.symm.trans hleft)
  rw [hcut] at hloses
  obtain ⟨front', cut', rfl, hfront', hcut'⟩ := hloses.of_append
  have hsame : cut' = '"' :: cut := by
    apply hcut'.eq_of_controlFree
    intro c hc
    apply literal.le_of_mem_source
    rw [hliteral]
    exact List.mem_append_left _ hc
  rw [hsame, List.append_assoc, List.cons_append] at htokens'
  obtain ⟨literal', more, hmore⟩ := (hfront'.spells hfront).exists_literal htokens'
  rw [← List.cons_append] at hmore
  -- The literal that is read ends before the line break.
  have hprefix : ∃ between, '"' :: cut = literal'.source ++ between := by
    rcases List.append_eq_append_iff.mp hmore with ⟨after, hsource, rfl⟩ | ⟨between, hbetween, -⟩
    · cases after with
      | nil => exact ⟨[], by rw [hsource, List.append_nil, List.append_nil]⟩
      | cons c after =>
          have hcontrol : 0x20 ≤ c.toNat := by
            apply literal'.le_of_mem_source
            simp [hsource]
          rw [hrest c rfl] at hcontrol
          exact absurd hcontrol (by decide)
    · exact ⟨between, hbetween⟩
  obtain ⟨between, hbetween⟩ := hprefix
  have hsame : literal'.source ++ (between ++ '/' :: '/' :: back) = literal.source ++ [] := by
    rw [List.append_nil, hliteral, hbetween, List.append_assoc]
  have hnil := Literal.eq_of_source_append hsame
  simp at hnil

/-- Comments at the ends of lines leave the settings of a document as they are, unless a
literal of the document holds `//`. Then the file is invalid. In no case are other settings
read. -/
theorem ofFile_appendsComments
    {fs : FileSystem} {path : Path} {source content : Text} {document : Document}
    {settings : Settings} (hsource : Spells document.tokens source)
    (hdenotes : document.Denotes settings) (hcontent : AppendsComments source content)
    (hread : fs.read path = .ok (Text.encode content)) :
    ((∀ literal, .literal literal ∈ document.tokens → ¬['/', '/'] <:+: literal.source) →
        ofFile fs path = .ok settings) ∧
      ((∃ literal, .literal literal ∈ document.tokens ∧ ['/', '/'] <:+: literal.source) →
        ∃ problem position, ofFile fs path = .error (.invalid path problem position)) ∧
      ∀ other, ofFile fs path = .ok other → other = settings := by
  have hkept (hfree : ∀ literal, .literal literal ∈ document.tokens → ¬literal.HoldsSlashes) :
      ofFile fs path = .ok settings := by
    obtain ⟨text, htext, hspells⟩ := hsource.exists_stripComments hcontent hfree
    exact (ofFile_of_read_eq_ok_iff hread htext).mpr ⟨document, hspells, hdenotes⟩
  have hrefused (hslashes : ∃ literal, .literal literal ∈ document.tokens ∧ literal.HoldsSlashes) :
      ∃ problem position, ofFile fs path = .error (.invalid path problem position) := by
    obtain ⟨text, htext⟩ := exists_stripComments_encode content
    apply exists_ofFile_eq_error hread htext
    rintro ⟨document', -, hspells, -⟩
    exact hsource.not_spells_stripComments hcontent hslashes htext hspells
  refine ⟨hkept, hrefused, fun other hother => ?_⟩
  by_cases hslashes : ∃ literal, .literal literal ∈ document.tokens ∧ literal.HoldsSlashes
  · obtain ⟨problem, position, herror⟩ := hrefused hslashes
    rw [herror] at hother
    cases hother
  · have hfree : ∀ literal, .literal literal ∈ document.tokens → ¬literal.HoldsSlashes := by
      intro literal hmem hholds
      exact hslashes ⟨literal, hmem, hholds⟩
    rw [hkept hfree] at hother
    exact (Except.ok.inj hother).symm

/-- A document with the name `//`, each slash spelled in the same way. -/
def slashesDocument (slash : LiteralChar) : Document :=
  .array [[⟨[slash, slash]⟩], []]

def slashesLine (slash : LiteralChar) : Text :=
  "[[\"".toList ++ slash.source ++ slash.source ++ "\"],".toList

/-- Both lines, the first one ended by a carriage return and a line feed. -/
def slashesSource (slash : LiteralChar) : Text :=
  slashesLine slash ++ ['\r'] ++ '\n' :: "[]]".toList

/-- Both lines with comments. -/
def slashesContent (slash : LiteralChar) : Text :=
  slashesLine slash ++ "// names".toList ++ ['\r'] ++ '\n' :: ("[]]".toList ++ "//".toList)

theorem appendsComments_slashesContent {slash : LiteralChar} (hline : '\n' ∉ slashesLine slash) :
    AppendsComments (slashesSource slash) (slashesContent slash) :=
  .more hline (.inr ⟨" names".toList, rfl, by decide⟩) (.inr rfl)
    (.last (by decide) (.inr ⟨[], rfl, by decide⟩))

theorem literal_mem_slashesDocument {slash : LiteralChar} {literal : Literal} :
    .literal literal ∈ (slashesDocument slash).tokens ↔ literal = ⟨[slash, slash]⟩ := by
  simp [slashesDocument, Document.tokens, bracketed, literalArray, List.intercalate]

theorem ofFile_slashesContent :
    (Spells (slashesDocument (.escaped .slash)).tokens (slashesSource (.escaped .slash)) ∧
        ofFile (settingsTree (slashesContent (.escaped .slash))) (Bytes.ofString "s") =
          .ok ⟨["//".toList], []⟩) ∧
      Spells (slashesDocument (.plain '/' (by decide))).tokens
          (slashesSource (.plain '/' (by decide))) ∧
        ∃ problem position,
          ofFile (settingsTree (slashesContent (.plain '/' (by decide)))) (Bytes.ofString "s") =
            .error (.invalid (Bytes.ofString "s") problem position) := by
  have hfile (slash : LiteralChar)
      (hspells : Spells (slashesDocument slash).tokens (slashesSource slash))
      (hdenotes : (slashesDocument slash).Denotes ⟨["//".toList], []⟩)
      (hline : '\n' ∉ slashesLine slash)
      (hread : (settingsTree (slashesContent slash)).read (Bytes.ofString "s") =
        .ok (Text.encode (slashesContent slash))) :=
    ofFile_appendsComments hspells hdenotes (appendsComments_slashesContent hline) hread
  constructor
  · obtain ⟨hkept, -, -⟩ := hfile (.escaped .slash) (by decide) (by decide) (by decide) rfl
    refine ⟨by decide, hkept fun literal hmem => ?_⟩
    rw [literal_mem_slashesDocument.mp hmem]
    decide
  · obtain ⟨-, hrefused, -⟩ :=
      hfile (.plain '/' (by decide)) (by decide) (by decide) (by decide) rfl
    exact ⟨by decide, hrefused ⟨_, literal_mem_slashesDocument.mpr rfl, by decide⟩⟩

end DeadExports.Settings
