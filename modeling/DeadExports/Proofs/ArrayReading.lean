import DeadExports.Proofs.LiteralReading
import Mathlib.Data.List.DropRight

/-!
# Reading arrays

Every reader skips white space and then looks at one byte, so what it does on an encoded
text is decided by the token that comes next. A reader of a token sequence succeeds exactly
on the texts that begin with such a sequence, and leaves the rest of the text.

Elements come with the separator in front of them: nothing before the first one, a comma
before any other. A reader that expects a further element thereby differs from one at the
beginning of an array in this one token, and lists with commas between their items are
the case of a first element.
-/

namespace DeadExports.Settings

/-! ## White space and marks -/

theorem isBlank_ofNat_toNat {c : Char} (h : c.toNat < 0x80) :
    isBlank (UInt8.ofNat c.toNat) = isWhite c := by
  simp only [isBlank, isWhite, ← UInt8.toNat_inj, ← Char.toNat_inj, toNat_ofNat_toNat h,
    UInt8.reduceToNat]
  rfl

theorem skipBlanks_encode (text : Text) :
    skipBlanks (Text.encode text) = Text.encode (text.dropWhile isWhite) := by
  induction text with
  | nil => rfl
  | cons c text ih =>
      rcases Nat.lt_or_ge c.toNat 0x80 with hc | hc
      · rw [Text.encode_cons_of_lt hc, skipBlanks, List.dropWhile_cons, List.dropWhile_cons,
          isBlank_ofNat_toNat hc]
        split
        · exact ih
        · rw [Text.encode_cons_of_lt hc]
      · have hwhite : isWhite c = false := by
          simp only [isWhite, ← Char.toNat_inj, Bool.or_eq_false_iff, decide_eq_false_iff_not]
          refine ⟨⟨⟨?_, ?_⟩, ?_⟩, ?_⟩ <;> exact Nat.ne_of_gt (Nat.lt_of_lt_of_le (by decide) hc)
        have hblank {byte : UInt8} (hbyte : byte ∈ String.utf8EncodeChar c) :
            isBlank byte = false := by
          have hge := le_of_mem_utf8EncodeChar hc hbyte
          simp only [isBlank, ← UInt8.toNat_inj, Bool.or_eq_false_iff, decide_eq_false_iff_not,
            UInt8.reduceToNat]
          omega
        rw [List.dropWhile_cons_of_neg (by simp [hwhite]), Text.encode_cons]
        cases hbytes : String.utf8EncodeChar c with
        | nil => exact absurd hbytes String.utf8EncodeChar_ne_nil
        | cons byte bytes =>
            rw [List.cons_append, skipBlanks, List.dropWhile_cons_of_neg]
            rw [hblank (by simp [hbytes])]
            exact Bool.false_ne_true

theorem Mark.toNat_char_lt (mark : Mark) : mark.char.toNat < 0x80 := by
  cases mark <;> decide

theorem begins_mark {mark : Mark} {text rest : Text} :
    Begins [.mark mark] text rest ↔ text.dropWhile isWhite = mark.char :: rest := by
  rw [begins_cons]
  constructor
  · rintro ⟨more, htext, rfl⟩
    exact htext
  · intro htext
    exact ⟨rest, htext, rfl⟩

theorem skipBlanks_encode_eq_cons_iff (mark : Mark) {text : Text} {rest : Bytes} :
    skipBlanks (Text.encode text) = UInt8.ofNat mark.char.toNat :: rest ↔
      ∃ more, Begins [.mark mark] text more ∧ rest = Text.encode more := by
  simp only [skipBlanks_encode, Text.encode_eq_cons_iff mark.toNat_char_lt, begins_mark]

theorem begins_dropWhile {token : Token} {tokens : List Token} {text rest : Text} :
    Begins (token :: tokens) (text.dropWhile isWhite) rest ↔
      Begins (token :: tokens) text rest := by
  rw [begins_cons, begins_cons, List.dropWhile_idempotent]

/-! ## Elements -/

/-- What comes before an element, or before a member of an object: a comma, unless it is
the first one. -/
def separator (first : Bool) : List Token :=
  if first then [] else [.mark .comma]

/-- The items that follow in a list, with their separators. -/
def separated : (first : Bool) → List (List Token) → List Token
  | _, [] => []
  | first, item :: items => separator first ++ item ++ separated false items

theorem separated_true (items : List (List Token)) :
    separated true items = List.intercalate [.mark .comma] items := by
  induction items with
  | nil => rfl
  | cons item items ih =>
      cases items with
      | nil => simp [separated, separator, List.intercalate]
      | cons other items =>
          rw [List.intercalate_cons_cons, ← ih]
          simp [separated, separator]

theorem nextElement_eq_false_iff {first : Bool} {text : Text} {rest : Bytes} :
    nextElement first (Text.encode text) = .ok (false, rest) ↔
      ∃ more, Begins [.mark .closeBracket] text more ∧
        rest = Text.encode (Mark.closeBracket.char :: more) := by
  rw [nextElement]
  constructor
  · intro h
    split at h
    next => cases h
    next byte after hbytes =>
      split at h
      next hbyte =>
        rw [hbyte] at hbytes
        obtain ⟨more, hmore, rfl⟩ := (skipBlanks_encode_eq_cons_iff .closeBracket).mp hbytes
        simp only [Except.ok.injEq, Prod.mk.injEq, true_and] at h
        refine ⟨more, hmore, ?_⟩
        rw [← h, hbyte, Text.encode_cons_of_lt (Mark.toNat_char_lt _)]
        rfl
      next =>
        repeat' split at h
        all_goals cases h
  · rintro ⟨more, hmore, rfl⟩
    rw [(skipBlanks_encode_eq_cons_iff _).mpr ⟨more, hmore, rfl⟩]
    rfl

/-- An array goes on exactly when its next token, after the separator, does not close it. -/
theorem nextElement_eq_true_iff {first : Bool} {text : Text} {rest : Bytes} :
    nextElement first (Text.encode text) = .ok (true, rest) ↔
      ∃ more, Begins (separator first) text more ∧
        rest = Text.encode (more.dropWhile isWhite) ∧ rest ≠ [] ∧ rest.head? ≠ some 0x5D := by
  rw [nextElement]
  constructor
  · intro h
    split at h
    next => cases h
    next byte after hbytes =>
      split at h
      next => cases h
      next hclose =>
        split at h
        next hfirst =>
          simp only [Except.ok.injEq, Prod.mk.injEq, true_and] at h
          refine ⟨text, ?_, ?_⟩
          · simp [separator, hfirst, begins_nil]
          · rw [← skipBlanks_encode, ← h, hbytes]
            simpa using hclose
        next hfirst =>
          split at h
          next hcomma =>
            rw [hcomma] at hbytes
            obtain ⟨more, hmore, rfl⟩ := (skipBlanks_encode_eq_cons_iff .comma).mp hbytes
            split at h
            next => cases h
            next byte after hbytes =>
              split at h
              next => cases h
              next hclose =>
                simp only [Except.ok.injEq, Prod.mk.injEq, true_and] at h
                refine ⟨more, ?_, ?_⟩
                · simpa [separator, hfirst] using hmore
                · rw [← skipBlanks_encode, ← h, hbytes]
                  simpa using hclose
          next => cases h
  · rintro ⟨more, hmore, rfl, hne, hhead⟩
    cases hbytes : Text.encode (more.dropWhile isWhite) with
    | nil => exact absurd hbytes hne
    | cons byte bytes =>
        have hbyte : byte ≠ 0x5D := by
          intro h
          rw [hbytes, h] at hhead
          exact hhead rfl
        cases first with
        | true =>
            obtain rfl : text = more := hmore
            rw [skipBlanks_encode, hbytes]
            simp [hbyte]
        | false =>
            rw [(skipBlanks_encode_eq_cons_iff _).mpr ⟨more, hmore, rfl⟩]
            dsimp only
            rw [skipBlanks_encode, hbytes, if_neg (by decide), if_neg (by decide),
              if_pos (by decide)]
            dsimp only
            rw [if_neg hbyte]

theorem nextElement_of_begins
    {first : Bool} {token : Token} {tokens : List Token} {text rest : Text}
    (h : Begins (separator first ++ token :: tokens) text rest)
    (htoken : token.source.head? ≠ some ']') :
    ∃ after : Text, Begins (token :: tokens) (after.dropWhile isWhite) rest ∧
      nextElement first (Text.encode text) = .ok (true, Text.encode (after.dropWhile isWhite)) := by
  obtain ⟨after, hseparator, htokens⟩ := begins_append.mp h
  refine ⟨after, begins_dropWhile.mpr htokens, ?_⟩
  obtain ⟨more, hmore, -⟩ := begins_cons.mp htokens
  obtain ⟨c, source, hsource, -⟩ := token.exists_source_eq_cons
  refine nextElement_eq_true_iff.mpr ⟨after, hseparator, rfl, ?_, ?_⟩
  · rw [hmore, hsource]
    intro hnil
    have := String.utf8EncodeChar_ne_nil (c := c)
    simp_all [Text.encode_cons]
  · rw [hmore, hsource, List.cons_append]
    intro hhead
    obtain ⟨bytes, hbytes⟩ := List.head?_eq_some_iff.mp hhead
    obtain ⟨_, hcons, -⟩ := (Text.encode_eq_cons_iff (c := ']') (by decide)).mp hbytes
    rw [hsource, (List.cons.inj hcons).1] at htoken
    exact htoken rfl

theorem readStrings_of_end
    {first : Bool} {bytes rest : Bytes} (h : nextElement first bytes = .ok (false, rest)) :
    readStrings first bytes = .ok ([], rest.tail) := by
  rw [readStrings]
  split
  next hnext => simp [h] at hnext
  next hnext =>
    rw [h] at hnext
    obtain ⟨rfl⟩ := hnext
    rfl
  next hnext => simp [h] at hnext

theorem readStrings_of_element
    {first : Bool} {bytes rest rest' : Bytes} {value : Text}
    (h : nextElement first bytes = .ok (true, rest))
    (hvalue : readStringValue rest = .ok (value, rest')) :
    readStrings first bytes =
      match readStrings false rest' with
      | .error fault => .error fault
      | .ok (values, rest'') => .ok (value :: values, rest'') := by
  rw [readStrings]
  split
  next hnext => simp [h] at hnext
  next hnext => simp [h] at hnext
  next hnext =>
    rw [h] at hnext
    obtain ⟨rfl⟩ := hnext
    split
    next hvalue' => simp [hvalue] at hvalue'
    next hvalue' =>
      rw [hvalue] at hvalue'
      obtain ⟨rfl⟩ := hvalue'
      rfl

theorem readStrings_encode_eq_ok_iff
    {first : Bool} {text : Text} {values : List Text} {rest : Bytes} :
    readStrings first (Text.encode text) = .ok (values, rest) ↔
      ∃ (literals : List Literal) (more : Text),
        Begins (separated first (literals.map fun literal => [.literal literal]) ++
          [.mark .closeBracket]) text more ∧
        values = literals.map Literal.value ∧ rest = Text.encode more := by
  constructor
  · intro h
    generalize hbytes : Text.encode text = bytes at h
    fun_induction readStrings first bytes generalizing text values with
    | case1 => cases h
    | case2 first bytes after hnext =>
        rw [← hbytes] at hnext
        obtain ⟨more, hmore, rfl⟩ := nextElement_eq_false_iff.mp hnext
        simp only [Except.ok.injEq, Prod.mk.injEq] at h
        obtain ⟨rfl, rfl⟩ := h
        refine ⟨[], more, hmore, rfl, ?_⟩
        rw [Text.encode_cons_of_lt (Mark.toNat_char_lt _), List.tail_cons]
    | case3 => cases h
    | case4 => cases h
    | case5 first bytes after hnext value after' hvalue values' after'' hvalues ih =>
        rw [← hbytes] at hnext
        obtain ⟨more, hmore, rfl, -⟩ := nextElement_eq_true_iff.mp hnext
        obtain ⟨literal, more', hliteral, rfl, rfl⟩ := readStringValue_encode_eq_ok_iff.mp hvalue
        simp only [Except.ok.injEq, Prod.mk.injEq] at h
        obtain ⟨rfl, rfl⟩ := h
        obtain ⟨literals, more'', hliterals, rfl, rfl⟩ := ih rfl hvalues
        refine ⟨literal :: literals, more'', ?_, rfl, rfl⟩
        rw [List.map_cons, separated, List.append_assoc, List.append_assoc, begins_append]
        exact ⟨more, hmore, begins_cons.mpr ⟨more', hliteral, hliterals⟩⟩
  · rintro ⟨literals, more, hbegins, rfl, rfl⟩
    induction literals generalizing first text with
    | nil =>
        have hnext : nextElement first (Text.encode text) = _ :=
          nextElement_eq_false_iff.mpr ⟨more, hbegins, rfl⟩
        rw [readStrings_of_end hnext, Text.encode_cons_of_lt (Mark.toNat_char_lt _)]
        rfl
    | cons literal literals ih =>
        rw [List.map_cons, separated, List.append_assoc, List.append_assoc] at hbegins
        obtain ⟨after, hafter, hnext⟩ :=
          nextElement_of_begins hbegins (by simp [Token.source, Literal.source])
        obtain ⟨more', hliteral, hliterals⟩ := begins_cons.mp hafter
        rw [List.dropWhile_idempotent] at hliteral
        have hvalue := readStringValue_encode_eq_ok_iff.mpr ⟨literal, more', hliteral, rfl, rfl⟩
        rw [readStrings_of_element hnext hvalue, ih hliterals]
        rfl

/-! ## Fields -/

theorem readField_encode_eq_ok_iff {text : Text} {values : List Text} {rest : Bytes} :
    readField (Text.encode text) = .ok (values, rest) ↔
      ∃ (literals : List Literal) (more : Text), Begins (literalArray literals) text more ∧
        values = literals.map Literal.value ∧ rest = Text.encode more := by
  simp only [literalArray, bracketed, ← separated_true]
  rw [readField]
  constructor
  · intro h
    split at h
    next => cases h
    next byte bytes hbytes =>
      split at h
      next hbyte =>
        rw [hbyte] at hbytes
        obtain ⟨more, hmore, rfl⟩ := (skipBlanks_encode_eq_cons_iff .openBracket).mp hbytes
        obtain ⟨literals, more', hliterals, rfl, rfl⟩ := readStrings_encode_eq_ok_iff.mp h
        exact ⟨literals, more', begins_append.mpr ⟨more, hmore, hliterals⟩, rfl, rfl⟩
      next => cases h
  · rintro ⟨literals, more', hbegins, rfl, rfl⟩
    obtain ⟨more, hmore, hliterals⟩ := begins_cons_iff_singleton.mp hbegins
    rw [(skipBlanks_encode_eq_cons_iff _).mpr ⟨more, hmore, rfl⟩]
    dsimp only
    rw [if_pos (by decide)]
    exact readStrings_encode_eq_ok_iff.mpr ⟨literals, more', hliterals, rfl, rfl⟩

theorem closeArray_encode_eq_ok_iff {text : Text} {rest : Bytes} :
    closeArray (Text.encode text) = .ok rest ↔
      ∃ more, Begins [.mark .closeBracket] text more ∧ rest = Text.encode more := by
  rw [← skipBlanks_encode_eq_cons_iff, closeArray]
  constructor
  · intro h
    split at h
    next => cases h
    next byte bytes hbytes =>
      split at h
      next hbyte =>
        rw [hbytes, hbyte, Except.ok.inj h]
        rfl
      next =>
        repeat' split at h
        all_goals cases h
  · intro h
    rw [h]
    rfl

/-- An element of the array form is a field; where the array closes instead, the field is
empty and the closing bracket stays. -/
theorem readFieldElement_encode_eq_ok_iff
    {first : Bool} {text : Text} {values : List Text} {rest : Bytes} :
    readFieldElement first (Text.encode text) = .ok (values, rest) ↔
      (∃ more, Begins [.mark .closeBracket] text more ∧ values = [] ∧
        rest = Text.encode (Mark.closeBracket.char :: more)) ∨
      ∃ (literals : List Literal) (more : Text),
        Begins (separator first ++ literalArray literals) text more ∧
        values = literals.map Literal.value ∧ rest = Text.encode more := by
  rw [readFieldElement]
  simp only [bind, Except.bind]
  constructor
  · intro h
    split at h
    next => cases h
    next found hnext =>
      obtain ⟨more, bytes⟩ := found
      cases more with
      | false =>
          obtain ⟨more, hmore, rfl⟩ := nextElement_eq_false_iff.mp hnext
          simp only [Except.ok.injEq, Prod.mk.injEq] at h
          obtain ⟨rfl, rfl⟩ := h
          exact .inl ⟨more, hmore, rfl, rfl⟩
      | true =>
          obtain ⟨more, hmore, rfl, -⟩ := nextElement_eq_true_iff.mp hnext
          obtain ⟨literals, more', hliterals, rfl, rfl⟩ := readField_encode_eq_ok_iff.mp h
          refine .inr ⟨literals, more', begins_append.mpr ⟨more, hmore, ?_⟩, rfl, rfl⟩
          exact begins_dropWhile.mp hliterals
  · rintro (⟨more, hmore, rfl, rfl⟩ | ⟨literals, more', hbegins, rfl, rfl⟩)
    · rw [nextElement_eq_false_iff.mpr ⟨more, hmore, rfl⟩]
    · obtain ⟨after, hafter, hnext⟩ := nextElement_of_begins hbegins (by decide)
      rw [hnext]
      exact readField_encode_eq_ok_iff.mpr ⟨literals, more', hafter, rfl, rfl⟩

theorem begins_mark_self (mark : Mark) (text : Text) :
    Begins [.mark mark] (mark.char :: text) text := by
  rw [begins_mark, List.dropWhile_cons_of_neg (by simp [mark.isWhite_char])]

theorem readArray_eq_ok_iff {bytes rest : Bytes} {settings : Settings} :
    readArray bytes = .ok (settings, rest) ↔ ∃ rest' rest'',
      readFieldElement true bytes = .ok (settings.allow, rest') ∧
      readFieldElement false rest' = .ok (settings.extensions, rest'') ∧
      closeArray rest'' = .ok rest := by
  simp only [readArray, bind, Except.bind]
  constructor
  · intro h
    split at h
    next => cases h
    next allow hallow =>
      split at h
      next => cases h
      next extensions hextensions =>
        split at h
        next => cases h
        next hclose =>
          obtain ⟨rfl⟩ := h
          exact ⟨_, _, hallow, hextensions, hclose⟩
  · rintro ⟨rest', rest'', hallow, hextensions, hclose⟩
    simp [hallow, hextensions, hclose]

/-- Reading settings in the array form is reading at most two fields and the closing
bracket. -/
theorem readArray_encode_eq_ok_iff {text : Text} {settings : Settings} {rest : Bytes} :
    readArray (Text.encode text) = .ok (settings, rest) ↔
      ∃ (fields : List (List Literal)) (more : Text),
        Begins (separated true (fields.map literalArray) ++ [.mark .closeBracket]) text more ∧
        (Document.array fields).Denotes settings ∧ rest = Text.encode more := by
  have hended (more : Text) :
      readFieldElement false (Text.encode (Mark.closeBracket.char :: more)) =
        .ok ([], Text.encode (Mark.closeBracket.char :: more)) :=
    readFieldElement_encode_eq_ok_iff.mpr (.inl ⟨more, begins_mark_self _ _, rfl, rfl⟩)
  have hclosed (more : Text) :
      closeArray (Text.encode (Mark.closeBracket.char :: more)) = .ok (Text.encode more) :=
    closeArray_encode_eq_ok_iff.mpr ⟨more, begins_mark_self _ _, rfl⟩
  obtain ⟨allow, extensions⟩ := settings
  rw [readArray_eq_ok_iff]
  dsimp only
  constructor
  · rintro ⟨rest', rest'', hallow, hextensions, hclose⟩
    rcases readFieldElement_encode_eq_ok_iff.mp hallow with
      ⟨more, hmore, rfl, rfl⟩ | ⟨first, more, hfirst, rfl, rfl⟩
    · rw [hended] at hextensions
      obtain ⟨rfl⟩ := hextensions
      rw [hclosed] at hclose
      obtain ⟨rfl⟩ := hclose
      exact ⟨[], more, hmore, ⟨by simp, rfl⟩, rfl⟩
    · rcases readFieldElement_encode_eq_ok_iff.mp hextensions with
        ⟨more', hmore', rfl, rfl⟩ | ⟨second, more', hsecond, rfl, rfl⟩
      · rw [hclosed] at hclose
        obtain ⟨rfl⟩ := hclose
        refine ⟨[first], more', ?_, ⟨by simp, rfl⟩, rfl⟩
        rw [List.map_singleton, separated, separated, List.append_nil, begins_append]
        exact ⟨more, hfirst, hmore'⟩
      · obtain ⟨more'', hmore'', rfl⟩ := closeArray_encode_eq_ok_iff.mp hclose
        refine ⟨[first, second], more'', ?_, ⟨by simp, rfl⟩, rfl⟩
        rw [List.map_cons, List.map_singleton, separated, separated, separated, List.append_nil,
          List.append_assoc, begins_append]
        exact ⟨more, hfirst, begins_append.mpr ⟨more', hsecond, hmore''⟩⟩
  · rintro ⟨fields, more, hbegins, ⟨hlength, hsettings⟩, rfl⟩
    obtain ⟨rfl, rfl⟩ := Settings.mk.inj hsettings
    match fields, hlength with
    | [], _ =>
        exact ⟨_, _, readFieldElement_encode_eq_ok_iff.mpr (.inl ⟨more, hbegins, rfl, rfl⟩),
          hended more, hclosed more⟩
    | [first], _ =>
        rw [List.map_singleton, separated, separated, List.append_nil, begins_append] at hbegins
        obtain ⟨more', hfirst, hclose⟩ := hbegins
        exact ⟨_, _, readFieldElement_encode_eq_ok_iff.mpr (.inr ⟨first, more', hfirst, rfl, rfl⟩),
          readFieldElement_encode_eq_ok_iff.mpr (.inl ⟨more, hclose, rfl, rfl⟩), hclosed more⟩
    | [first, second], _ =>
        rw [List.map_cons, List.map_singleton, separated, separated, separated, List.append_nil,
          List.append_assoc, begins_append] at hbegins
        obtain ⟨more', hfirst, hbegins⟩ := hbegins
        obtain ⟨more'', hsecond, hclose⟩ := begins_append.mp hbegins
        exact ⟨_, _, readFieldElement_encode_eq_ok_iff.mpr (.inr ⟨first, more', hfirst, rfl, rfl⟩),
          readFieldElement_encode_eq_ok_iff.mpr (.inr ⟨second, more'', hsecond, rfl, rfl⟩),
          closeArray_encode_eq_ok_iff.mpr ⟨more, hclose, rfl⟩⟩

end DeadExports.Settings
