import DeadExports.Proofs.Utf8Encoding
import Mathlib.Data.List.Induction

/-!
# Damaged texts

A file need not hold UTF-8. One can still read a text from its bytes without any notion of a
broken sequence: where the encoding of a character starts the character is taken, and
everywhere else a single byte is left out. `ReadsBytewise` describes this reading. The decoder
works differently. It looks at every byte once and leaves out a broken sequence as a whole,
when the byte comes that breaks it.

Both readings come to the same text. A decoder that stands inside a character has read a first
byte and bytes behind it, and at a byte of the latter kind no character starts. As soon as it
is clear that the character will not be completed, the decoder is therefore where it would be
had it left out these bytes one by one, and the byte that breaks the sequence is read afresh by
both. The same fact confines the damage: a text that is cut in front of any byte but one of
these can be decoded part by part.
-/

namespace DeadExports.Utf8

/-- A byte that stands behind the first byte of a character. -/
def IsContinuation (byte : UInt8) : Prop :=
  0x80 ≤ byte ∧ byte ≤ 0xBF

instance (byte : UInt8) : Decidable (IsContinuation byte) :=
  inferInstanceAs (Decidable (0x80 ≤ byte ∧ byte ≤ 0xBF))

/-- A reading of bytes that takes a character wherever one is encoded and leaves out one byte
everywhere else. -/
inductive ReadsBytewise : Bytes → Text → Prop where
  | nil : ReadsBytewise [] []
  | keep (c : Char) {rest : Bytes} {text : Text} :
      ReadsBytewise rest text → ReadsBytewise (String.utf8EncodeChar c ++ rest) (c :: text)
  | drop {byte : UInt8} {rest : Bytes} {text : Text} :
      (∀ c, ¬String.utf8EncodeChar c <+: byte :: rest) →
        ReadsBytewise rest text → ReadsBytewise (byte :: rest) text

/-! ## The bytes of a character -/

theorem isContinuation_iff {byte : UInt8} :
    IsContinuation byte ↔ 0x80 ≤ byte.toNat ∧ byte.toNat ≤ 0xBF := by
  rw [IsContinuation, UInt8.le_iff_toNat_le, UInt8.le_iff_toNat_le]
  rfl

theorem isContinuation_ofNat (code : Nat) : IsContinuation (UInt8.ofNat (code % 64 + 0x80)) := by
  rw [isContinuation_iff, toNat_continuation]
  omega

/-- All bytes of a character but the first are continuation bytes. -/
theorem isContinuation_of_utf8EncodeChar
    {c : Char} {first byte : UInt8} {others : Bytes}
    (h : String.utf8EncodeChar c = first :: others) (hbyte : byte ∈ others) :
    IsContinuation byte := by
  have hothers : others = (String.utf8EncodeChar c).tail := by
    rw [h, List.tail_cons]
  rw [hothers, String.utf8EncodeChar] at hbyte
  split at hbyte
  · cases hbyte
  split at hbyte
  · rw [List.tail_cons, List.mem_singleton] at hbyte
    exact hbyte ▸ isContinuation_ofNat _
  split at hbyte
  · rw [List.tail_cons, List.mem_pair] at hbyte
    rcases hbyte with rfl | rfl <;> exact isContinuation_ofNat _
  · rw [List.tail_cons, List.mem_cons, List.mem_pair] at hbyte
    rcases hbyte with rfl | rfl | rfl <;> exact isContinuation_ofNat _

theorem ofNat_eq_of_eq_toNat (byte : UInt8) {code : Nat} (h : code = byte.toNat) :
    UInt8.ofNat code = byte := by
  rw [h, UInt8.ofNat_toNat]

theorem val_ofNat {code : Nat} (h : code.isValidChar) : (Char.ofNat code).val.toNat = code := by
  rw [Char.ofNat, dif_pos h]
  rfl

/-- Two bytes that the decoder takes for a character encode it. -/
theorem exists_utf8EncodeChar_two
    {first second : UInt8} (hlow : 0xC2 ≤ first.toNat) (hhigh : first.toNat < 0xE0)
    (hsecond : IsContinuation second) :
    ∃ c, String.utf8EncodeChar c = [first, second] := by
  rw [isContinuation_iff] at hsecond
  obtain ⟨code, hcode⟩ : ∃ code, code = (first.toNat - 0xC0) * 64 + (second.toNat - 0x80) :=
    ⟨_, rfl⟩
  have hvalid : code.isValidChar := Or.inl (by omega)
  refine ⟨Char.ofNat code, ?_⟩
  rw [String.utf8EncodeChar, val_ofNat hvalid, if_neg (by omega), if_pos (by omega),
    ofNat_eq_of_eq_toNat first (by omega),
    ofNat_eq_of_eq_toNat second (by omega)]

/-- Likewise for three bytes. The second one excludes codes that fit into two bytes and the
codes that are no characters. -/
theorem exists_utf8EncodeChar_three
    {first second third : UInt8} (hlow : 0xE0 ≤ first.toNat) (hhigh : first.toNat < 0xF0)
    (hsecond : IsContinuation second) (hthird : IsContinuation third)
    (hlong : first.toNat = 0xE0 → 0xA0 ≤ second.toNat)
    (hsurrogate : first.toNat = 0xED → second.toNat ≤ 0x9F) :
    ∃ c, String.utf8EncodeChar c = [first, second, third] := by
  rw [isContinuation_iff] at hsecond hthird
  obtain ⟨code, hcode⟩ : ∃ code, code = ((first.toNat - 0xE0) * 64 + (second.toNat - 0x80)) * 64 +
      (third.toNat - 0x80) := ⟨_, rfl⟩
  have hvalid : code.isValidChar := by
    rcases Nat.lt_or_ge first.toNat 0xEE with hfirst | hfirst
    · exact Or.inl (by omega)
    · exact Or.inr ⟨by omega, by omega⟩
  refine ⟨Char.ofNat code, ?_⟩
  rw [String.utf8EncodeChar, val_ofNat hvalid, if_neg (by omega), if_neg (by omega),
    if_pos (by omega), ofNat_eq_of_eq_toNat first (by omega),
    ofNat_eq_of_eq_toNat second (by omega),
    ofNat_eq_of_eq_toNat third (by omega)]

/-- Likewise for four bytes. The second one excludes codes that fit into three bytes and those
above the last character. -/
theorem exists_utf8EncodeChar_four
    {first second third fourth : UInt8} (hlow : 0xF0 ≤ first.toNat) (hhigh : first.toNat < 0xF5)
    (hsecond : IsContinuation second) (hthird : IsContinuation third)
    (hfourth : IsContinuation fourth)
    (hlong : first.toNat = 0xF0 → 0x90 ≤ second.toNat)
    (hlarge : first.toNat = 0xF4 → second.toNat ≤ 0x8F) :
    ∃ c, String.utf8EncodeChar c = [first, second, third, fourth] := by
  rw [isContinuation_iff] at hsecond hthird hfourth
  obtain ⟨code, hcode⟩ : ∃ code, code = (((first.toNat - 0xF0) * 64 + (second.toNat - 0x80)) * 64 +
      (third.toNat - 0x80)) * 64 + (fourth.toNat - 0x80) := ⟨_, rfl⟩
  have hvalid : code.isValidChar := Or.inr ⟨by omega, by omega⟩
  refine ⟨Char.ofNat code, ?_⟩
  rw [String.utf8EncodeChar, val_ofNat hvalid, if_neg (by omega), if_neg (by omega),
    if_neg (by omega), ofNat_eq_of_eq_toNat first (by omega),
    ofNat_eq_of_eq_toNat second (by omega),
    ofNat_eq_of_eq_toNat third (by omega),
    ofNat_eq_of_eq_toNat fourth (by omega)]

/-! ## A decoder inside a character -/

/-- Bytes that complete a character, of which the first must lie in a range and is followed by a
given number of continuation bytes. -/
def Completes : (more : Nat) → (low high : UInt8) → Bytes → Prop
  | _, _, _, [] => False
  | 0, low, high, byte :: rest => low ≤ byte ∧ byte ≤ high ∧ rest = []
  | more + 1, low, high, byte :: rest =>
      low ≤ byte ∧ byte ≤ high ∧ Completes more 0x80 0xBF rest

/-- A byte that can only stand behind others, or in no character at all. -/
theorem start_of_misplaced
    {byte : UInt8}
    (h : IsContinuation byte ∨ 0xC0 ≤ byte.toNat ∧ byte.toNat < 0xC2 ∨ 0xF5 ≤ byte.toNat) :
    start byte = (.ready, [none]) := by
  rw [isContinuation_iff] at h
  simp only [start, UInt8.lt_iff_toNat_lt, ← UInt8.toNat_inj, UInt8.reduceToNat]
  rw [if_neg (by omega)]
  split
  · rfl
  rw [if_neg (by omega), if_neg (by omega), if_neg (by omega), if_neg (by omega), if_neg (by omega),
    if_neg (by omega), if_neg (by omega)]

/-- What a byte does where a character may begin. It is a character by itself, it is misplaced,
or it is the first byte of exactly those characters that the bytes after it complete. -/
theorem start_cases (byte : UInt8) :
    (∃ c, String.utf8EncodeChar c = [byte]) ∨
    start byte = (.ready, [none]) ∨
    ∃ code more low high, start byte = (.inside code more low high, []) ∧
      0x80 ≤ low ∧ high ≤ 0xBF ∧
        ∀ others, Completes more low high others →
          ∃ c, String.utf8EncodeChar c = byte :: others := by
  by_cases hascii : byte.toNat < 0x80
  · left
    have hvalid : byte.toNat.isValidChar := Or.inl (by omega)
    refine ⟨Char.ofNat byte.toNat, ?_⟩
    rw [String.utf8EncodeChar, val_ofNat hvalid, if_pos (by omega), UInt8.ofNat_toNat]
  right
  by_cases hmisplaced : byte.toNat < 0xC2 ∨ 0xF5 ≤ byte.toNat
  · left
    apply start_of_misplaced
    rw [isContinuation_iff]
    omega
  right
  by_cases htwo : byte.toNat < 0xE0
  · refine ⟨_, _, _, _, start_of_lt_e0 (by omega) htwo, UInt8.le_refl _, UInt8.le_refl _, ?_⟩
    intro others hothers
    match others, hothers with
    | [second], ⟨hlow, hhigh, _⟩ =>
        exact exists_utf8EncodeChar_two (by omega) htwo ⟨hlow, hhigh⟩
  by_cases hthree : byte.toNat < 0xF0
  · have hleast : 0x80 ≤ (if byte.toNat = 0xE0 then 0xA0 else 0x80 : UInt8) := by
      split <;> decide
    have hmost : (if byte.toNat = 0xED then 0x9F else 0xBF : UInt8) ≤ 0xBF := by
      split <;> decide
    refine ⟨_, _, _, _, start_of_lt_f0 (by omega) hthree, hleast, hmost, ?_⟩
    intro others hothers
    match others, hothers with
    | [second, third], ⟨hlow, hhigh, hthird, hthird', _⟩ =>
        apply exists_utf8EncodeChar_three (by omega) hthree
          ⟨UInt8.le_trans hleast hlow, UInt8.le_trans hhigh hmost⟩ ⟨hthird, hthird'⟩
        · intro hfirst
          rwa [if_pos hfirst, UInt8.le_iff_toNat_le] at hlow
        · intro hfirst
          rwa [if_pos hfirst, UInt8.le_iff_toNat_le] at hhigh
  · have hleast : 0x80 ≤ (if byte.toNat = 0xF0 then 0x90 else 0x80 : UInt8) := by
      split <;> decide
    have hmost : (if byte.toNat = 0xF4 then 0x8F else 0xBF : UInt8) ≤ 0xBF := by
      split <;> decide
    refine ⟨_, _, _, _, start_of_lt_f5 (by omega) (by omega), hleast, hmost, ?_⟩
    intro others hothers
    match others, hothers with
    | [second, third, fourth], ⟨hlow, hhigh, hthird, hthird', hfourth, hfourth', _⟩ =>
        apply exists_utf8EncodeChar_four (by omega) (by omega)
          ⟨UInt8.le_trans hleast hlow, UInt8.le_trans hhigh hmost⟩ ⟨hthird, hthird'⟩
          ⟨hfourth, hfourth'⟩
        · intro hfirst
          rwa [if_pos hfirst, UInt8.le_iff_toNat_le] at hlow
        · intro hfirst
          rwa [if_pos hfirst, UInt8.le_iff_toNat_le] at hhigh

/-! ## Both readings -/

/-- The text that a decoder with some progress makes of the bytes to come. -/
def textFrom : Progress → Bytes → Text
  | _, [] => []
  | progress, byte :: rest =>
      (step progress byte).2.filterMap id ++ textFrom (step progress byte).1 rest

theorem filterMap_piecesFrom (progress : Progress) (bytes : Bytes) :
    (piecesFrom progress bytes).filterMap id = textFrom progress bytes := by
  induction bytes generalizing progress with
  | nil => cases progress <;> rfl
  | cons byte rest ih => rw [piecesFrom, List.filterMap_append, ih, textFrom]

theorem decodeDropping_eq_textFrom (bytes : Bytes) :
    decodeDropping bytes = textFrom .ready bytes := by
  rw [decodeDropping, pieces_eq_piecesFrom, filterMap_piecesFrom]

theorem decodeDropping_utf8EncodeChar_append (c : Char) (rest : Bytes) :
    decodeDropping (String.utf8EncodeChar c ++ rest) = c :: decodeDropping rest := by
  rw [decodeDropping, pieces_utf8EncodeChar_append, decodeDropping]
  rfl

theorem textFrom_ready_of_start
    {byte : UInt8} (h : start byte = (.ready, [none])) (rest : Bytes) :
    textFrom .ready (byte :: rest) = textFrom .ready rest := by
  rw [textFrom, step, h]
  rfl

/-- A decoder inside a character either completes it or goes on as if it had not started it. -/
theorem textFrom_inside
    (code more : Nat) {low high : UInt8} (hlow : 0x80 ≤ low) (hhigh : high ≤ 0xBF) (bytes : Bytes) :
    (∃ front rest, bytes = front ++ rest ∧ Completes more low high front) ∨
      textFrom (.inside code more low high) bytes = textFrom .ready bytes := by
  induction bytes generalizing code more low high with
  | nil => exact Or.inr rfl
  | cons byte rest ih =>
      by_cases hrange : low ≤ byte ∧ byte ≤ high
      · have hmisplaced : start byte = (.ready, [none]) :=
          start_of_misplaced
            (Or.inl ⟨UInt8.le_trans hlow hrange.1, UInt8.le_trans hrange.2 hhigh⟩)
        cases more with
        | zero => exact Or.inl ⟨[byte], rest, rfl, hrange.1, hrange.2, rfl⟩
        | succ more =>
            rcases ih (code * 64 + (byte.toNat - 0x80)) more (UInt8.le_refl 0x80)
              (UInt8.le_refl 0xBF) with ⟨front, back, rfl, hfront⟩ | hsame
            · exact Or.inl ⟨byte :: front, back, rfl, hrange.1, hrange.2, hfront⟩
            · right
              rw [textFrom_ready_of_start hmisplaced, ← hsame, textFrom, step, if_pos hrange]
              rfl
      · right
        simp only [textFrom, step, if_neg hrange, List.filterMap_cons_none, id]

theorem decodeDropping_cons_of_no_start
    {byte : UInt8} {rest : Bytes} (h : ∀ c, ¬String.utf8EncodeChar c <+: byte :: rest) :
    decodeDropping (byte :: rest) = decodeDropping rest := by
  rw [decodeDropping_eq_textFrom, decodeDropping_eq_textFrom]
  rcases start_cases byte with
    ⟨c, hc⟩ | hmisplaced | ⟨code, more, low, high, hstart, hlow, hhigh, hcompletes⟩
  · exact absurd (hc ▸ List.prefix_append [byte] rest) (h c)
  · exact textFrom_ready_of_start hmisplaced rest
  · rcases textFrom_inside code more hlow hhigh rest with
      ⟨front, back, rfl, hfront⟩ | hsame
    · obtain ⟨c, hc⟩ := hcompletes front hfront
      exact absurd (hc ▸ List.prefix_append (byte :: front) back) (h c)
    · rw [← hsame, textFrom, step, hstart]
      rfl

theorem ReadsBytewise.decodeDropping_eq
    {bytes : Bytes} {text : Text} (h : ReadsBytewise bytes text) : decodeDropping bytes = text := by
  induction h with
  | nil => rfl
  | keep c _ ih => rw [decodeDropping_utf8EncodeChar_append, ih]
  | drop hnone _ ih => rw [decodeDropping_cons_of_no_start hnone, ih]

theorem exists_readsBytewise (bytes : Bytes) : ∃ text, ReadsBytewise bytes text := by
  induction hlength : bytes.length using Nat.strongRecOn generalizing bytes with
  | ind length ih =>
      subst hlength
      cases bytes with
      | nil => exact ⟨[], .nil⟩
      | cons byte rest =>
          by_cases hchar : ∃ c, String.utf8EncodeChar c <+: byte :: rest
          · obtain ⟨c, back, hback⟩ := hchar
            have hpos : 0 < (String.utf8EncodeChar c).length :=
              List.length_pos_of_ne_nil String.utf8EncodeChar_ne_nil
            have hshort : back.length < (byte :: rest).length := by
              rw [← hback, List.length_append]
              omega
            obtain ⟨text, htext⟩ := ih back.length hshort back rfl
            exact ⟨c :: text, hback ▸ htext.keep c⟩
          · obtain ⟨text, htext⟩ := ih rest.length (Nat.lt_succ_self _) rest rfl
            exact ⟨text, htext.drop (not_exists.mp hchar)⟩

theorem decodeDropping_eq_iff {bytes : Bytes} {text : Text} :
    decodeDropping bytes = text ↔ ReadsBytewise bytes text := by
  constructor
  · intro h
    obtain ⟨other, hother⟩ := exists_readsBytewise bytes
    rwa [← h, hother.decodeDropping_eq]
  · exact ReadsBytewise.decodeDropping_eq

/-! ## Texts in two parts -/

/-- No character reaches across a cut that is not in front of a continuation byte. -/
theorem prefix_of_prefix_append
    {c : Char} {byte : UInt8} {rest back : Bytes}
    (hback : ∀ next ∈ back.head?, ¬IsContinuation next)
    (h : String.utf8EncodeChar c <+: byte :: rest ++ back) :
    String.utf8EncodeChar c <+: byte :: rest := by
  obtain ⟨tail, htail⟩ := h
  rcases List.append_eq_append_iff.mp htail with ⟨more, hmore, -⟩ | ⟨more, hmore, hrest⟩
  · exact ⟨more, hmore.symm⟩
  · cases more with
    | nil => exact ⟨[], by simpa using hmore⟩
    | cons next more =>
        have hnext : IsContinuation next :=
          isContinuation_of_utf8EncodeChar hmore (by simp)
        exact absurd hnext (hback next (by simp [hrest]))

theorem ReadsBytewise.append
    {front back : Bytes} {text other : Text}
    (hfront : ReadsBytewise front text) (hback : ReadsBytewise back other)
    (hcut : ∀ next ∈ back.head?, ¬IsContinuation next) :
    ReadsBytewise (front ++ back) (text ++ other) := by
  induction hfront with
  | nil => exact hback
  | keep c _ ih =>
      rw [List.append_assoc]
      exact ih.keep c
  | drop hnone _ ih => exact ih.drop fun c hc => hnone c (prefix_of_prefix_append hcut hc)

/-- Decoding is reading byte by byte. An encoded text is read back, and bytes that are cut in
front of anything but a continuation byte can be decoded part by part. -/
theorem decodeDropping_characterization :
    (∀ bytes text, decodeDropping bytes = text ↔ ReadsBytewise bytes text) ∧
    (∀ text : Text, decodeDropping text.encode = text) ∧
    ∀ front back : Bytes, (∀ next ∈ back.head?, ¬IsContinuation next) →
      decodeDropping (front ++ back) = decodeDropping front ++ decodeDropping back := by
  refine ⟨fun bytes text => decodeDropping_eq_iff, Text.decodeDropping_encode, ?_⟩
  intro front back hcut
  have hfront : ReadsBytewise front (decodeDropping front) := decodeDropping_eq_iff.mp rfl
  have hback : ReadsBytewise back (decodeDropping back) := decodeDropping_eq_iff.mp rfl
  exact (hfront.append hback hcut).decodeDropping_eq

/-- A character whose last byte is missing takes nothing away from what follows it. -/
theorem decodeDropping_cutCharacter :
    (∀ next ∈ ([0x66, 0x67] : Bytes).head?, ¬IsContinuation next) ∧
      decodeDropping ([0x65, 0xE2, 0x82] ++ [0x66, 0x67]) =
        decodeDropping [0x65, 0xE2, 0x82] ++ decodeDropping [0x66, 0x67] := by
  have hcut : ∀ next ∈ ([0x66, 0x67] : Bytes).head?, ¬IsContinuation next := by
    intro next hnext
    cases hnext
    decide
  exact ⟨hcut, decodeDropping_characterization.2.2 [0x65, 0xE2, 0x82] [0x66, 0x67] hcut⟩

example : decodeDropping [0x4A, 0x6F, 0x69, 0xFE, 0xFF, 0x6E, 0x65, 0x64] = "Joined".toList := by
  decide

end DeadExports.Utf8
