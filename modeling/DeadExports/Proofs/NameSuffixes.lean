import DeadExports.Proofs.DamagedText
import DeadExports.Proofs.SourceListing

/-!
# Suffixes of damaged names

A scan selects files by the names as they are shown, with one mark for each broken sequence. The
names themselves are bytes, and what one expects is that a file qualifies when these bytes end
with the bytes of a suffix. For suffixes without marks both come to the same.

One direction is that decoding recovers in time. The first byte of a suffix is no continuation
byte, so a decoder that stands inside a character when it comes closes the broken sequence and
reads the suffix as if nothing had been there before it. The other is that marks are nothing
but marks: bytes can be cut into the pieces that they are decoded to, and a piece that is a
character was cut out of its encoding, so characters at the end come from their encodings at the
end.
-/

namespace DeadExports

namespace Utf8

/-! ## From pieces to bytes -/

theorem pieces_cons_of_start {byte : UInt8} (h : start byte = (.ready, [none])) (rest : Bytes) :
    pieces (byte :: rest) = none :: pieces rest := by
  rw [pieces_eq_piecesFrom, pieces_eq_piecesFrom, piecesFrom, step, h]
  rfl

/-- A byte that cannot continue a character closes the broken sequence and is read afresh. -/
theorem piecesFrom_inside_cons
    {low high byte : UInt8} (h : ¬(low ≤ byte ∧ byte ≤ high)) (code more : Nat) (rest : Bytes) :
    piecesFrom (.inside code more low high) (byte :: rest) = none :: pieces (byte :: rest) := by
  rw [piecesFrom, step, if_neg h, pieces_eq_piecesFrom, piecesFrom, step]
  rfl

/-- A decoder inside a character completes it, or closes a broken sequence and starts afresh. -/
theorem piecesFrom_inside (code more : Nat) (low high : UInt8) (bytes : Bytes) :
    (∃ front rest, bytes = front ++ rest ∧ Completes more low high front) ∨
      ∃ front rest, bytes = front ++ rest ∧
        piecesFrom (.inside code more low high) bytes = none :: pieces rest := by
  induction bytes generalizing code more low high with
  | nil => exact Or.inr ⟨[], [], rfl, rfl⟩
  | cons byte rest ih =>
      by_cases hrange : low ≤ byte ∧ byte ≤ high
      · cases more with
        | zero => exact Or.inl ⟨[byte], rest, rfl, hrange.1, hrange.2, rfl⟩
        | succ more =>
            rcases ih (code * 64 + (byte.toNat - 0x80)) more 0x80 0xBF with
              ⟨front, back, rfl, hfront⟩ | ⟨front, back, rfl, hpieces⟩
            · exact Or.inl ⟨byte :: front, back, rfl, hrange.1, hrange.2, hfront⟩
            · refine Or.inr ⟨byte :: front, back, rfl, ?_⟩
              rw [piecesFrom, step, if_pos hrange]
              exact hpieces
      · exact Or.inr ⟨[], byte :: rest, rfl, piecesFrom_inside_cons hrange code more rest⟩

/-- The first piece is a character whose encoding comes first, or a mark for some of the first
bytes. -/
theorem pieces_cons_cases (byte : UInt8) (rest : Bytes) :
    (∃ c back, byte :: rest = String.utf8EncodeChar c ++ back ∧
      pieces (byte :: rest) = some c :: pieces back) ∨
    ∃ front back, rest = front ++ back ∧ pieces (byte :: rest) = none :: pieces back := by
  rcases start_cases byte with
    ⟨c, hc⟩ | hmisplaced | ⟨code, more, low, high, hstart, -, -, hcompletes⟩
  · have hbytes : byte :: rest = String.utf8EncodeChar c ++ rest := by rw [hc]; rfl
    exact Or.inl ⟨c, rest, hbytes, hbytes ▸ pieces_utf8EncodeChar_append c rest⟩
  · exact Or.inr ⟨[], rest, rfl, pieces_cons_of_start hmisplaced rest⟩
  · rcases piecesFrom_inside code more low high rest with
      ⟨front, back, rfl, hfront⟩ | ⟨front, back, hrest, hpieces⟩
    · obtain ⟨c, hc⟩ := hcompletes front hfront
      have hbytes : byte :: (front ++ back) = String.utf8EncodeChar c ++ back := by rw [hc]; rfl
      exact Or.inl ⟨c, back, hbytes, hbytes ▸ pieces_utf8EncodeChar_append c back⟩
    · refine Or.inr ⟨front, back, hrest, ?_⟩
      rw [pieces_eq_piecesFrom, piecesFrom, step, hstart]
      exact hpieces

/-- Bytes that can be cut into some pieces. A character is cut out of its encoding, a mark
stands for any bytes but none. -/
inductive CutsInto : Bytes → List Piece → Prop where
  | nil : CutsInto [] []
  | char (c : Char) {rest : Bytes} {pieces : List Piece} :
      CutsInto rest pieces → CutsInto (String.utf8EncodeChar c ++ rest) (some c :: pieces)
  | mark (byte : UInt8) (front : Bytes) {rest : Bytes} {pieces : List Piece} :
      CutsInto rest pieces → CutsInto (byte :: (front ++ rest)) (none :: pieces)

theorem cutsInto_pieces (bytes : Bytes) : CutsInto bytes (pieces bytes) := by
  induction hlength : bytes.length using Nat.strongRecOn generalizing bytes with
  | ind length ih =>
      subst hlength
      cases bytes with
      | nil => exact .nil
      | cons byte rest =>
          rcases pieces_cons_cases byte rest with
            ⟨c, back, hbytes, hpieces⟩ | ⟨front, back, rfl, hpieces⟩
          · have hshorter : back.length < (byte :: rest).length := by
              have hpos := List.length_pos_iff.mpr (String.utf8EncodeChar_ne_nil (c := c))
              rw [hbytes, List.length_append]
              omega
            rw [hpieces, hbytes]
            exact .char c (ih _ hshorter back rfl)
          · have hshorter : back.length < (byte :: (front ++ back)).length := by
              simp only [List.length_cons, List.length_append]
              omega
            rw [hpieces]
            exact .mark byte front (ih _ hshorter back rfl)

theorem CutsInto.exists_suffix
    {bytes : Bytes} {front back : List Piece} (h : CutsInto bytes (front ++ back)) :
    ∃ rest, rest <:+ bytes ∧ CutsInto rest back := by
  induction front generalizing bytes with
  | nil => exact ⟨bytes, List.suffix_refl _, h⟩
  | cons piece front ih =>
      cases h with
      | char c hrest =>
          obtain ⟨rest, hsuffix, hcuts⟩ := ih hrest
          exact ⟨rest, hsuffix.trans (List.suffix_append _ _), hcuts⟩
      | mark byte skipped hrest =>
          obtain ⟨rest, hsuffix, hcuts⟩ := ih hrest
          exact ⟨rest, hsuffix.trans (List.suffix_append (byte :: skipped) _), hcuts⟩

theorem CutsInto.eq_encode
    {bytes : Bytes} {text : Text} (h : CutsInto bytes (text.map some)) : bytes = text.encode := by
  induction text generalizing bytes with
  | nil =>
      cases h
      rfl
  | cons c text ih =>
      cases h with
      | char _ hrest => rw [ih hrest, Text.encode_cons]

/-! ## From bytes to pieces -/

/-- A decoder that only waits for continuation bytes. -/
def Progress.IsConfined : Progress → Prop
  | .ready => True
  | .inside _ _ low high => 0x80 ≤ low ∧ high ≤ 0xBF

theorem isConfined_start (byte : UInt8) : (start byte).1.IsConfined := by
  rcases start_cases byte with
    ⟨c, hc⟩ | hmisplaced | ⟨code, more, low, high, hstart, hlow, hhigh, -⟩
  · have hready : (start byte).1 = .ready := by
      have hfeed := foldl_feed_utf8EncodeChar c []
      rw [hc] at hfeed
      exact congrArg Decoder.progress hfeed
    rw [hready]
    trivial
  · rw [hmisplaced]
    trivial
  · rw [hstart]
    exact ⟨hlow, hhigh⟩

theorem isConfined_step (progress : Progress) (byte : UInt8) :
    (step progress byte).1.IsConfined := by
  cases progress with
  | ready => exact isConfined_start byte
  | inside code more low high =>
      rw [step]
      split
      · cases more with
        | zero => trivial
        | succ more => exact ⟨UInt8.le_refl _, UInt8.le_refl _⟩
      · exact isConfined_start byte

/-- In front of anything but a continuation byte, decoding starts afresh. -/
theorem piecesFrom_append
    {progress : Progress} (hprogress : progress.IsConfined) (front : Bytes) {back : Bytes}
    (hback : ∀ next ∈ back.head?, ¬IsContinuation next) :
    piecesFrom progress (front ++ back) = piecesFrom progress front ++ pieces back := by
  induction front generalizing progress with
  | nil =>
      cases progress with
      | ready => exact (pieces_eq_piecesFrom back).symm
      | inside code more low high =>
          cases back with
          | nil => rfl
          | cons next rest =>
              have hrange : ¬(low ≤ next ∧ next ≤ high) := fun hnext =>
                hback next rfl
                  ⟨UInt8.le_trans hprogress.1 hnext.1, UInt8.le_trans hnext.2 hprogress.2⟩
              exact piecesFrom_inside_cons hrange code more rest
  | cons byte front ih =>
      rw [List.cons_append, piecesFrom, piecesFrom, ih (isConfined_step progress byte),
        List.append_assoc]

theorem pieces_append
    (front : Bytes) {back : Bytes} (hback : ∀ next ∈ back.head?, ¬IsContinuation next) :
    pieces (front ++ back) = pieces front ++ pieces back := by
  have hready : Progress.ready.IsConfined := trivial
  rw [pieces_eq_piecesFrom, pieces_eq_piecesFrom front]
  exact piecesFrom_append hready front hback

theorem not_isContinuation_of_utf8EncodeChar
    {c : Char} {first : UInt8} {others : Bytes} (h : String.utf8EncodeChar c = first :: others) :
    ¬IsContinuation first := by
  intro hfirst
  have hpieces := pieces_utf8EncodeChar_append c []
  rw [h, List.cons_append, pieces_cons_of_start (start_of_misplaced (Or.inl hfirst))] at hpieces
  cases hpieces

theorem not_isContinuation_head?_encode (text : Text) :
    ∀ next ∈ text.encode.head?, ¬IsContinuation next := by
  intro next hnext
  cases text with
  | nil => cases hnext
  | cons c text =>
      cases hbytes : String.utf8EncodeChar c with
      | nil => exact absurd hbytes String.utf8EncodeChar_ne_nil
      | cons first others =>
          rw [Text.encode_cons, hbytes, List.cons_append, List.head?_cons, Option.mem_some_iff]
            at hnext
          exact hnext ▸ not_isContinuation_of_utf8EncodeChar hbytes

theorem decodeReplacing_append_encode (front : Bytes) (text : Text) :
    decodeReplacing (front ++ text.encode) = decodeReplacing front ++ text := by
  have htext : (text.map some).map (·.getD '\uFFFD') = text := by
    rw [List.map_map]
    exact List.map_id text
  rw [decodeReplacing, pieces_append front (not_isContinuation_head?_encode text),
    Text.pieces_encode, List.map_append, htext, decodeReplacing]

/-! ## Suffixes -/

theorem eq_map_some_of_map_getD
    {pieces : List Piece} {text : Text} (h : pieces.map (·.getD '\uFFFD') = text)
    (hmark : '\uFFFD' ∉ text) : pieces = text.map some := by
  subst h
  induction pieces with
  | nil => rfl
  | cons piece pieces ih =>
      rw [List.map_cons, List.mem_cons, not_or] at hmark
      cases piece with
      | none => exact absurd rfl hmark.1
      | some c => rw [List.map_cons, List.map_cons, ← ih hmark.2, Option.getD_some]

/-- A name ends, as it is shown, with a text without marks exactly when its bytes end with the
encoding of that text. -/
theorem suffix_decodeReplacing_iff {name : Bytes} {text : Text} (hmark : '\uFFFD' ∉ text) :
    text <:+ decodeReplacing name ↔ text.encode <:+ name := by
  constructor
  · rintro ⟨shown, hshown⟩
    obtain ⟨front, back, hpieces, -, hback⟩ := List.map_eq_append_iff.mp hshown.symm
    have hcuts := cutsInto_pieces name
    rw [hpieces, eq_map_some_of_map_getD hback hmark] at hcuts
    obtain ⟨rest, hsuffix, hrest⟩ := hcuts.exists_suffix
    rwa [← hrest.eq_encode]
  · rintro ⟨front, rfl⟩
    rw [decodeReplacing_append_encode]
    exact List.suffix_append _ _

end Utf8

/-- A path with a file name qualifies for suffixes without marks exactly when the bytes of the
name end with the encoding of one of them. A path without a file name never qualifies. -/
theorem hasSuffix_bytewise (path : Path) :
    (∀ (suffixes : List Text) (name : Bytes), (∀ suffix ∈ suffixes, '\uFFFD' ∉ suffix) →
      path.fileName? = some name →
        (hasSuffix suffixes path = true ↔ ∃ suffix ∈ suffixes, suffix.encode <:+ name)) ∧
    (path.fileName? = none → ∀ suffixes : List Text, hasSuffix suffixes path = false) := by
  constructor
  · intro suffixes name hmarks hname
    have hqualifies : NameQualifies suffixes name ↔ ∃ suffix ∈ suffixes, suffix.encode <:+ name :=
      exists_congr fun suffix => and_congr_right fun hsuffix =>
        Utf8.suffix_decodeReplacing_iff (hmarks suffix hsuffix)
    rw [hasSuffix_iff, ← hqualifies, hname]
    simp
  · intro hnone suffixes
    rw [hasSuffix, hnone]

/-- A name in which two bytes of a character stand in front of `é.ts`. -/
def tornName : Bytes :=
  [0xE2, 0x82] ++ Bytes.ofString "é.ts"

theorem hasSuffix_bytewise_tornName :
    (∀ suffix ∈ ["é.ts".toList, ".tsx".toList], '\uFFFD' ∉ suffix) ∧
      Path.fileName? (Bytes.ofString "src/" ++ tornName) = some tornName ∧
      hasSuffix ["é.ts".toList, ".tsx".toList] (Bytes.ofString "src/" ++ tornName) = true ∧
      Path.fileName? (Bytes.ofString "src/..") = none ∧
      hasSuffix [[]] (Bytes.ofString "src/..") = false := by
  have hmarks : ∀ suffix ∈ ["é.ts".toList, ".tsx".toList], '\uFFFD' ∉ suffix := by decide
  have hname : Path.fileName? (Bytes.ofString "src/" ++ tornName) = some tornName := by decide
  have hnone : Path.fileName? (Bytes.ofString "src/..") = none := by decide
  refine ⟨hmarks, hname, ?_, hnone, (hasSuffix_bytewise _).2 hnone _⟩
  apply ((hasSuffix_bytewise _).1 _ _ hmarks hname).mpr
  exact ⟨"é.ts".toList, List.mem_cons_self, List.suffix_append _ _⟩

/-- A suffix that is itself a mark is found where a sequence is broken. -/
example : hasSuffix [['\uFFFD']] [0xFF] = true := by
  decide

end DeadExports
