import DeadExports.Proofs.SettingsGrammar
import DeadExports.Proofs.Utf8Encoding
import DeadExports.Settings.Reader

/-!
# Reading literals

The reader of a string takes bytes, the grammar of literals is about characters. Each
character of a literal, however it is spelled, has one effect on the reader: it pushes the
encoding of its value. Conversely, a reading that succeeds has met the closing quote or the
spelling of a character at every step, so it has read a literal.
-/

namespace DeadExports.Settings

/-! ## Hexadecimal digits -/

theorem toNat_ofNat_of_lt {code : Nat} (h : code < 0xD800) : (Char.ofNat code).toNat = code := by
  rw [Char.ofNat, dif_pos (Or.inl h)]
  rfl

theorem HexDigit.toNat_char_lt (digit : HexDigit) : digit.char.toNat < 0x80 := by
  revert digit
  rintro (digit | digit | digit)
  all_goals
    revert digit
    decide

theorem hexDigit?_char (digit : HexDigit) :
    hexDigit? (UInt8.ofNat digit.char.toNat) = some digit.value := by
  revert digit
  rintro (digit | digit | digit)
  all_goals
    revert digit
    decide

theorem exists_of_hexDigit?_eq_some {byte : UInt8} {value : Nat} (h : hexDigit? byte = some value) :
    ∃ digit : HexDigit, byte = UInt8.ofNat digit.char.toNat ∧ value = digit.value := by
  simp only [hexDigit?, UInt8.le_iff_toNat_le, UInt8.reduceToNat] at h
  have hbyte {start code : Nat} (hcode : code = byte.toNat - start) (hstart : start ≤ byte.toNat)
      (hlt : byte.toNat < 0xD800) :
      byte = UInt8.ofNat (Char.ofNat (start + code)).toNat := by
    rw [toNat_ofNat_of_lt (by omega), hcode, Nat.add_sub_cancel' hstart, UInt8.ofNat_toNat]
  split at h
  next hrange =>
    refine ⟨.decimal ⟨byte.toNat - 0x30, by omega⟩, hbyte rfl hrange.1 (by omega), ?_⟩
    exact (Option.some.inj h).symm
  next =>
    split at h
    next hrange =>
      refine ⟨.lower ⟨byte.toNat - 0x61, by omega⟩, hbyte rfl hrange.1 (by omega), ?_⟩
      rw [← Option.some.inj h, Nat.add_comm]
      rfl
    next =>
      split at h
      next hrange =>
        refine ⟨.upper ⟨byte.toNat - 0x41, by omega⟩, hbyte rfl hrange.1 (by omega), ?_⟩
        rw [← Option.some.inj h, Nat.add_comm]
        rfl
      next => cases h

theorem HexCode.toNat_lt_of_mem_source (code : HexCode) : ∀ c ∈ code.source, c.toNat < 0x80 := by
  simp [HexCode.source, HexDigit.toNat_char_lt]

theorem HexCode.encode_source (code : HexCode) :
    Text.encode code.source =
      [UInt8.ofNat code.first.char.toNat, UInt8.ofNat code.second.char.toNat,
        UInt8.ofNat code.third.char.toNat, UInt8.ofNat code.fourth.char.toNat] := by
  simp only [HexCode.source, Text.encode_cons_of_lt (HexDigit.toNat_char_lt _), Text.encode_nil]

theorem HexCode.encode_escape (code : HexCode) (rest : Text) :
    Text.encode ('\\' :: 'u' :: (code.source ++ rest)) =
      0x5C :: 0x75 :: UInt8.ofNat code.first.char.toNat :: UInt8.ofNat code.second.char.toNat ::
        UInt8.ofNat code.third.char.toNat :: UInt8.ofNat code.fourth.char.toNat ::
          Text.encode rest := by
  rw [Text.encode_cons_of_lt (by decide), Text.encode_cons_of_lt (by decide),
    Text.encode_append, encode_source]
  rfl

theorem hexValue?_source (code : HexCode) :
    hexValue? (UInt8.ofNat code.first.char.toNat) (UInt8.ofNat code.second.char.toNat)
      (UInt8.ofNat code.third.char.toNat) (UInt8.ofNat code.fourth.char.toNat) =
        some code.value := by
  simp only [hexValue?, hexDigit?_char, Option.some.injEq, HexCode.value]
  omega

theorem exists_of_hexValue?_eq_some
    {a b c d : UInt8} {value : Nat} (h : hexValue? a b c d = some value)
    {text : Text} {rest : Bytes} (htext : Text.encode text = a :: b :: c :: d :: rest) :
    ∃ (code : HexCode) (more : Text),
      text = code.source ++ more ∧ rest = Text.encode more ∧ value = code.value := by
  simp only [hexValue?] at h
  split at h
  next first second third fourth hfirst hsecond hthird hfourth =>
    obtain ⟨first, rfl, rfl⟩ := exists_of_hexDigit?_eq_some hfirst
    obtain ⟨second, rfl, rfl⟩ := exists_of_hexDigit?_eq_some hsecond
    obtain ⟨third, rfl, rfl⟩ := exists_of_hexDigit?_eq_some hthird
    obtain ⟨fourth, rfl, rfl⟩ := exists_of_hexDigit?_eq_some hfourth
    have hsource : Text.encode text =
        Text.encode (HexCode.source ⟨first, second, third, fourth⟩) ++ rest := by
      rw [htext, HexCode.encode_source]
      rfl
    obtain ⟨more, rfl, rfl⟩ :=
      (Text.encode_eq_append_iff (HexCode.toNat_lt_of_mem_source _)).mp hsource
    refine ⟨_, more, rfl, rfl, ?_⟩
    rw [← Option.some.inj h, HexCode.value]
    dsimp only
    omega
  next => cases h

theorem Escape.toNat_letter_lt (escape : Escape) : escape.letter.toNat < 0x80 := by
  cases escape <;> decide

theorem Escape.toNat_value_lt (escape : Escape) : escape.value.toNat < 0x80 := by
  cases escape <;> decide

theorem Escape.letter_ne_u (escape : Escape) : UInt8.ofNat escape.letter.toNat ≠ 0x75 := by
  cases escape <;> decide

/-! ## Escapes -/

theorem HexCode.isLowSurrogate_iff (code : HexCode) :
    isLowSurrogate code.value = true ↔ code.IsLow := by
  simp only [isLowSurrogate, HexCode.IsLow, Bool.and_eq_true, decide_eq_true_eq]
  omega

theorem HexCode.isHighSurrogate_iff (code : HexCode) :
    isHighSurrogate code.value = true ↔ code.IsHigh := by
  simp only [isHighSurrogate, HexCode.IsHigh, Bool.and_eq_true, decide_eq_true_eq]
  omega

theorem pairedChar_eq {high low : HexCode} (hhigh : high.IsHigh) (hlow : low.IsLow) :
    pairedChar high.value low.value = LiteralChar.value (.paired high low hhigh hlow) := by
  obtain ⟨hhigh, hhigh'⟩ := hhigh
  obtain ⟨hlow, hlow'⟩ := hlow
  have hfirst : high.value % 0x400 = high.value - 0xD800 := by
    omega
  have hsecond : low.value % 0x400 = low.value - 0xDC00 := by
    omega
  simp only [pairedChar, LiteralChar.value, hfirst, hsecond]

theorem escapedByte?_letter (escape : Escape) :
    escapedByte? (UInt8.ofNat escape.letter.toNat) = some (UInt8.ofNat escape.value.toNat) := by
  cases escape <;> decide

theorem exists_of_escapedByte?_eq_some
    {letter value : UInt8} (h : escapedByte? letter = some value) :
    ∃ escape : Escape, letter = UInt8.ofNat escape.letter.toNat := by
  unfold escapedByte? at h
  split at h
  next hletter => exact ⟨.quote, hletter⟩
  split at h
  next hletter => exact ⟨.backslash, hletter⟩
  split at h
  next hletter => exact ⟨.slash, hletter⟩
  split at h
  next hletter => exact ⟨.backspace, hletter⟩
  split at h
  next hletter => exact ⟨.formFeed, hletter⟩
  split at h
  next hletter => exact ⟨.lineFeed, hletter⟩
  split at h
  next hletter => exact ⟨.carriageReturn, hletter⟩
  split at h
  next hletter => exact ⟨.tab, hletter⟩
  next => cases h

/-! ## One character of a literal -/

theorem readString_quote (taken : Bytes) (text : Text) :
    readString taken (Text.encode ('"' :: text)) =
      .ok (Utf8.decodeDropping taken.reverse, Text.encode text) := by
  rw [Text.encode_cons_of_lt (by decide), readString.eq_def]
  exact if_pos rfl

/-- Bytes that are no control character, quote or backslash are taken as they are. -/
theorem readString_append
    {bytes : Bytes} (h : ∀ byte ∈ bytes, byte ≠ 0x22 ∧ byte ≠ 0x5C ∧ ¬byte < 0x20)
    (taken rest : Bytes) :
    readString taken (bytes ++ rest) = readString (bytes.reverse ++ taken) rest := by
  induction bytes generalizing taken with
  | nil => rfl
  | cons byte bytes ih =>
      obtain ⟨⟨hquote, hbackslash, hcontrol⟩, hbytes⟩ := List.forall_mem_cons.mp h
      rw [List.cons_append, readString.eq_def]
      dsimp only
      rw [if_neg hquote, if_neg hbackslash, if_neg hcontrol, ih hbytes]
      simp

theorem IsPlain.of_mem_utf8EncodeChar
    {c : Char} (h : IsPlain c) {byte : UInt8} (hbyte : byte ∈ String.utf8EncodeChar c) :
    byte ≠ 0x22 ∧ byte ≠ 0x5C ∧ ¬byte < 0x20 := by
  obtain ⟨hcontrol, hquote, hbackslash⟩ := h
  simp only [ne_eq, ← UInt8.toNat_inj, UInt8.lt_iff_toNat_lt, UInt8.reduceToNat]
  rcases Nat.lt_or_ge c.toNat 0x80 with hc | hc
  · rw [utf8EncodeChar_of_lt hc, List.mem_singleton] at hbyte
    have hvalue : byte.toNat = c.toNat := by
      rw [hbyte, toNat_ofNat_toNat hc]
    rw [hvalue]
    exact ⟨fun h => hquote (Char.toNat_inj.mp h), fun h => hbackslash (Char.toNat_inj.mp h),
      by omega⟩
  · have hge := le_of_mem_utf8EncodeChar hc hbyte
    omega

/-- However a character is spelled, reading it pushes its value. -/
theorem readString_source (char : LiteralChar) (taken : Bytes) (text : Text) :
    readString taken (Text.encode (char.source ++ text)) =
      readString (pushChar char.value taken) (Text.encode text) := by
  cases char with
  | plain c h => exact readString_append (fun _ => h.of_mem_utf8EncodeChar) taken _
  | escaped escape =>
      rw [LiteralChar.source, List.cons_append, List.cons_append, List.nil_append,
        Text.encode_cons_of_lt (by decide), Text.encode_cons_of_lt escape.toNat_letter_lt,
        readString.eq_def]
      dsimp only
      rw [if_neg (by decide), if_pos (by decide), if_neg escape.letter_ne_u, escapedByte?_letter]
      dsimp only
      rw [LiteralChar.value, pushChar, utf8EncodeChar_of_lt escape.toNat_value_lt]
      rfl
  | coded code hhigh hlow =>
      rw [LiteralChar.source, List.cons_append, List.cons_append, HexCode.encode_escape,
        readString.eq_def]
      dsimp only
      rw [if_neg (by decide), if_pos rfl, if_pos rfl, hexValue?_source]
      dsimp only
      rw [if_neg (by rwa [HexCode.isLowSurrogate_iff]),
        if_neg (by rwa [HexCode.isHighSurrogate_iff])]
      rfl
  | paired high low hhigh hlow =>
      have hnotLow : ¬high.IsLow := fun h => by
        rw [HexCode.IsHigh] at hhigh
        rw [HexCode.IsLow] at h
        omega
      have hsource :
          LiteralChar.source (.paired high low hhigh hlow) ++ text =
            '\\' :: 'u' :: (high.source ++ '\\' :: 'u' :: (low.source ++ text)) := by
        simp [LiteralChar.source]
      rw [hsource, HexCode.encode_escape, HexCode.encode_escape, readString.eq_def]
      dsimp only
      rw [if_neg (by decide), if_pos rfl, if_pos rfl, hexValue?_source]
      dsimp only
      rw [if_neg (by rwa [HexCode.isLowSurrogate_iff]),
        if_pos (by rwa [HexCode.isHighSurrogate_iff]), if_neg (by decide), if_neg (by decide),
        hexValue?_source]
      dsimp only
      rw [if_pos (by rwa [HexCode.isLowSurrogate_iff]), pairedChar_eq hhigh hlow]

/-- A reading that goes on after `\u` has met four digits, and after the first half of a
pair also the second half. -/
theorem exists_code_of_readString_eq_ok
    {taken : Bytes} {text value : Text} {rest : Bytes}
    (h : readString taken (0x5C :: 0x75 :: Text.encode text) = .ok (value, rest)) :
    ∃ (code : HexCode) (more : Text), text = code.source ++ more ∧ ¬code.IsLow ∧
      (code.IsHigh → ∃ (low : HexCode) (after : Text), low.IsLow ∧
        more = '\\' :: 'u' :: (low.source ++ after)) := by
  rw [readString.eq_def] at h
  dsimp only at h
  rw [if_neg (by decide), if_pos rfl, if_pos rfl] at h
  split at h
  next a b c d after hdigits =>
    split at h
    next => cases h
    next code hcode =>
      obtain ⟨code, more, rfl, rfl, rfl⟩ := exists_of_hexValue?_eq_some hcode hdigits
      split at h
      next => cases h
      next hlow =>
        refine ⟨code, more, rfl, fun h => hlow ((HexCode.isLowSurrogate_iff code).mpr h),
          fun hhigh => ?_⟩
        rw [if_pos ((HexCode.isHighSurrogate_iff code).mpr hhigh)] at h
        split at h
        next => cases h
        next slash afterSlash hslash =>
          split at h
          next => cases h
          next hbackslash =>
            rw [not_not.mp hbackslash] at hslash
            obtain ⟨more, rfl, rfl⟩ := (Text.encode_eq_cons_iff (c := '\\') (by decide)).mp hslash
            split at h
            next => cases h
            next letter afterLetter hletter =>
              split at h
              next => cases h
              next hu =>
                rw [not_not.mp hu] at hletter
                obtain ⟨more, rfl, rfl⟩ :=
                  (Text.encode_eq_cons_iff (c := 'u') (by decide)).mp hletter
                split at h
                next a b c d after hdigits =>
                  split at h
                  next => cases h
                  next low hlowCode =>
                    obtain ⟨low, more, rfl, rfl, rfl⟩ :=
                      exists_of_hexValue?_eq_some hlowCode hdigits
                    split at h
                    next hlow =>
                      exact ⟨low, more, (HexCode.isLowSurrogate_iff low).mp hlow, rfl⟩
                    next => cases h
                next => cases h
  next => cases h

/-- A reading that goes on after a backslash has met an escape. -/
theorem exists_escape_of_readString_eq_ok
    {taken : Bytes} {text value : Text} {rest : Bytes}
    (h : readString taken (0x5C :: Text.encode text) = .ok (value, rest)) :
    ∃ (char : LiteralChar) (more : Text), '\\' :: text = char.source ++ more := by
  have hescape := h
  rw [readString.eq_def] at h
  dsimp only at h
  rw [if_neg (by decide), if_pos rfl] at h
  split at h
  next => cases h
  next letter after hletter =>
    by_cases hu : letter = 0x75
    · rw [hu] at hletter
      obtain ⟨text, rfl, rfl⟩ := (Text.encode_eq_cons_iff (c := 'u') (by decide)).mp hletter
      rw [hletter] at hescape
      obtain ⟨code, more, rfl, hlow, hpair⟩ := exists_code_of_readString_eq_ok hescape
      by_cases hhigh : code.IsHigh
      · obtain ⟨low, after, hlow, rfl⟩ := hpair hhigh
        exact ⟨.paired code low hhigh hlow, after, by simp [LiteralChar.source]⟩
      · exact ⟨.coded code hhigh hlow, more, rfl⟩
    · rw [if_neg hu] at h
      split at h
      next => cases h
      next hvalue =>
        obtain ⟨escape, rfl⟩ := exists_of_escapedByte?_eq_some hvalue
        obtain ⟨more, rfl, rfl⟩ := (Text.encode_eq_cons_iff escape.toNat_letter_lt).mp hletter
        exact ⟨.escaped escape, more, rfl⟩

/-- A reading that succeeds has met the closing quote or a character of a literal. -/
theorem exists_source_of_readString_eq_ok
    {taken : Bytes} {text value : Text} {rest : Bytes}
    (h : readString taken (Text.encode text) = .ok (value, rest)) :
    (∃ more, text = '"' :: more) ∨
      ∃ (char : LiteralChar) (more : Text), text = char.source ++ more := by
  cases text with
  | nil => simp [readString] at h
  | cons c text =>
      by_cases hquote : c = '"'
      · exact .inl ⟨text, by rw [hquote]⟩
      by_cases hbackslash : c = '\\'
      · rw [hbackslash, Text.encode_cons_of_lt (by decide)] at h
        rw [hbackslash]
        exact .inr (exists_escape_of_readString_eq_ok h)
      · refine .inr ⟨.plain c ⟨?_, hquote, hbackslash⟩, text, rfl⟩
        by_contra hcontrol
        have hbyte : (UInt8.ofNat c.toNat).toNat = c.toNat := toNat_ofNat_toNat (by omega)
        rw [Text.encode_cons_of_lt (by omega), readString.eq_def] at h
        simp only [← UInt8.toNat_inj, UInt8.lt_iff_toNat_lt, hbyte, UInt8.reduceToNat] at h
        rw [if_neg (by omega), if_neg (by omega), if_pos (by omega)] at h
        cases h

theorem LiteralChar.length_source_pos (char : LiteralChar) : 0 < char.source.length := by
  cases char <;> simp [source]

/-- Reading the rest of a string is reading characters of a literal up to a quote. -/
theorem readString_encode_eq_ok_iff
    {taken : Bytes} {text value : Text} {rest : Bytes} :
    readString taken (Text.encode text) = .ok (value, rest) ↔
      ∃ (chars : List LiteralChar) (more : Text),
        text = chars.flatMap LiteralChar.source ++ '"' :: more ∧ rest = Text.encode more ∧
        value =
          Utf8.decodeDropping (taken.reverse ++ Text.encode (chars.map LiteralChar.value)) := by
  constructor
  · intro h
    induction hlength : text.length using Nat.strong_induction_on generalizing text taken with
    | _ length ih =>
        rcases exists_source_of_readString_eq_ok h with ⟨more, rfl⟩ | ⟨char, more, rfl⟩
        · rw [readString_quote, Except.ok.injEq, Prod.mk.injEq] at h
          obtain ⟨rfl, rfl⟩ := h
          exact ⟨[], more, rfl, rfl, by simp⟩
        · rw [readString_source] at h
          have hshorter : more.length < length := by
            have := char.length_source_pos
            rw [← hlength, List.length_append]
            omega
          obtain ⟨chars, after, rfl, rfl, rfl⟩ := ih more.length hshorter h rfl
          refine ⟨char :: chars, after, by simp, rfl, ?_⟩
          simp [pushChar, Text.encode_cons]
  · rintro ⟨chars, more, rfl, rfl, rfl⟩
    induction chars generalizing taken with
    | nil => simp [readString_quote]
    | cons char chars ih =>
        rw [List.flatMap_cons, List.append_assoc, readString_source, ih]
        simp [pushChar, Text.encode_cons]

theorem readString_nil_encode_eq_ok_iff {text value : Text} {rest : Bytes} :
    readString [] (Text.encode text) = .ok (value, rest) ↔
      ∃ (literal : Literal) (more : Text),
        '"' :: text = literal.source ++ more ∧ value = literal.value ∧ rest = Text.encode more := by
  rw [readString_encode_eq_ok_iff]
  constructor
  · rintro ⟨chars, more, rfl, rfl, rfl⟩
    refine ⟨⟨chars⟩, more, by simp [Literal.source], ?_, rfl⟩
    rw [List.reverse_nil, List.nil_append, Text.decodeDropping_encode, Literal.value]
  · rintro ⟨literal, more, htext, rfl, rfl⟩
    refine ⟨literal.chars, more, ?_, rfl, ?_⟩
    · rw [(List.cons.inj htext).2]
      simp
    · rw [List.reverse_nil, List.nil_append, Text.decodeDropping_encode, Literal.value]

theorem readStringValue_encode_eq_ok_iff {text value : Text} {rest : Bytes} :
    readStringValue (Text.encode text) = .ok (value, rest) ↔
      ∃ (literal : Literal) (more : Text),
        text = literal.source ++ more ∧ value = literal.value ∧ rest = Text.encode more := by
  constructor
  · intro h
    unfold readStringValue at h
    split at h
    next => cases h
    next byte bytes hbytes =>
      split at h
      next hquote =>
        rw [hquote] at hbytes
        obtain ⟨more, rfl, rfl⟩ := (Text.encode_eq_cons_iff (c := '"') (by decide)).mp hbytes
        exact readString_nil_encode_eq_ok_iff.mp h
      next => cases h
  · rintro ⟨literal, more, rfl, hvalue, hrest⟩
    rw [Literal.source, List.cons_append, Text.encode_cons_of_lt (by decide), readStringValue,
      if_pos (by decide)]
    exact readString_nil_encode_eq_ok_iff.mpr ⟨literal, more, rfl, hvalue, hrest⟩

end DeadExports.Settings
