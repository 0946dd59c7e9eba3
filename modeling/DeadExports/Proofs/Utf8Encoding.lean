import DeadExports.Text.Utf8
import Mathlib.Data.List.Basic

/-!
# Encoded texts

The decoder reads a text back from its encoding. It is enough to see this for one
character: whatever the number of its bytes, they take the decoder from standing between
two characters to standing between two characters, and complete that character.

A reader that looks at single bytes only ever asks for ASCII bytes. Such a byte is never
part of a longer character, so a question about the first byte of an encoded text is a
question about its first character.
-/

namespace DeadExports

/-! ## The bytes of a character -/

theorem toNat_ofNat_toNat {c : Char} (h : c.toNat < 0x80) :
    (UInt8.ofNat c.toNat).toNat = c.toNat := by
  rw [UInt8.toNat_ofNat']
  omega

theorem utf8EncodeChar_of_lt {c : Char} (h : c.toNat < 0x80) :
    String.utf8EncodeChar c = [UInt8.ofNat c.toNat] := by
  rw [String.utf8EncodeChar]
  exact if_pos (Nat.le_of_lt_succ h)

/-- A byte after the first one carries six bits of the code. -/
theorem toNat_continuation (code : Nat) :
    (UInt8.ofNat (code % 64 + 0x80)).toNat = code % 64 + 0x80 := by
  rw [UInt8.toNat_ofNat']
  omega

/-- A character beyond ASCII has no ASCII byte. -/
theorem le_of_mem_utf8EncodeChar
    {c : Char} (h : 0x80 ≤ c.toNat) {byte : UInt8} (hbyte : byte ∈ String.utf8EncodeChar c) :
    0x80 ≤ byte.toNat := by
  have hc : ¬c.val.toNat ≤ 0x7F := Nat.not_le.mpr h
  simp only [String.utf8EncodeChar, if_neg hc] at hbyte
  split at hbyte
  · simp only [List.mem_cons, List.not_mem_nil, or_false] at hbyte
    rcases hbyte with rfl | rfl <;> rw [UInt8.toNat_ofNat'] <;> omega
  · split at hbyte
    · simp only [List.mem_cons, List.not_mem_nil, or_false] at hbyte
      rcases hbyte with rfl | rfl | rfl <;> rw [UInt8.toNat_ofNat'] <;> omega
    · simp only [List.mem_cons, List.not_mem_nil, or_false] at hbyte
      rcases hbyte with rfl | rfl | rfl | rfl <;> rw [UInt8.toNat_ofNat'] <;> omega

/-! ## Decoding -/

namespace Utf8

theorem start_of_lt_80 {byte : UInt8} (h : byte.toNat < 0x80) :
    start byte = (.ready, [some (Char.ofNat byte.toNat)]) := by
  rw [start, if_pos (UInt8.lt_iff_toNat_lt.mpr h)]

theorem start_of_lt_e0 {byte : UInt8} (hlow : 0xC2 ≤ byte.toNat) (hhigh : byte.toNat < 0xE0) :
    start byte = (.inside (byte.toNat - 0xC0) 0 0x80 0xBF, []) := by
  simp only [start, UInt8.lt_iff_toNat_lt, UInt8.reduceToNat]
  rw [if_neg (by omega), if_neg (by omega), if_pos hhigh]

/-- The second byte of a character of three bytes has a range of its own where the code
could be too small or a surrogate. -/
theorem start_of_lt_f0 {byte : UInt8} (hlow : 0xE0 ≤ byte.toNat) (hhigh : byte.toNat < 0xF0) :
    start byte =
      (.inside (byte.toNat - 0xE0) 1 (if byte.toNat = 0xE0 then 0xA0 else 0x80)
        (if byte.toNat = 0xED then 0x9F else 0xBF), []) := by
  simp only [start, UInt8.lt_iff_toNat_lt, ← UInt8.toNat_inj, UInt8.reduceToNat]
  rw [if_neg (by omega), if_neg (by omega), if_neg (by omega)]
  split
  next h => simp [h]
  next =>
    split
    next h => simp [h]
    next => rfl

/-- Likewise for four bytes, where the code could be too small or too large. -/
theorem start_of_lt_f5 {byte : UInt8} (hlow : 0xF0 ≤ byte.toNat) (hhigh : byte.toNat < 0xF5) :
    start byte =
      (.inside (byte.toNat - 0xF0) 2 (if byte.toNat = 0xF0 then 0x90 else 0x80)
        (if byte.toNat = 0xF4 then 0x8F else 0xBF), []) := by
  simp only [start, UInt8.lt_iff_toNat_lt, ← UInt8.toNat_inj, UInt8.reduceToNat]
  rw [if_neg (by omega), if_neg (by omega), if_neg (by omega), if_neg (by omega),
    if_neg (by omega), if_neg (by omega)]
  split
  next h => simp [h]
  next =>
    split
    next => rw [if_neg (by omega)]
    next => simp [show byte.toNat = 0xF4 by omega]

section Feeding

variable {code more : Nat} {low high byte : UInt8} {output : List Piece}

theorem feed_starting {progress : Progress} {pieces : List Piece}
    (h : start byte = (progress, pieces)) :
    Decoder.feed ⟨.ready, output⟩ byte = ⟨progress, pieces.reverse ++ output⟩ := by
  simp [Decoder.feed, step, h]

theorem feed_continuing (hlow : low.toNat ≤ byte.toNat) (hhigh : byte.toNat ≤ high.toNat) :
    Decoder.feed ⟨.inside code (more + 1) low high, output⟩ byte =
      ⟨.inside (code * 64 + (byte.toNat - 0x80)) more 0x80 0xBF, output⟩ := by
  simp [Decoder.feed, step, UInt8.le_iff_toNat_le, hlow, hhigh]

theorem feed_completing (hlow : low.toNat ≤ byte.toNat) (hhigh : byte.toNat ≤ high.toNat) :
    Decoder.feed ⟨.inside code 0 low high, output⟩ byte =
      ⟨.ready, some (Char.ofNat (code * 64 + (byte.toNat - 0x80))) :: output⟩ := by
  simp [Decoder.feed, step, UInt8.le_iff_toNat_le, hlow, hhigh]

end Feeding

/-- The bytes of a character complete that character. -/
theorem foldl_feed_utf8EncodeChar (c : Char) (output : List Piece) :
    (String.utf8EncodeChar c).foldl Decoder.feed ⟨.ready, output⟩ =
      ⟨.ready, some c :: output⟩ := by
  obtain ⟨n, hn⟩ : ∃ n, n = c.val.toNat := ⟨_, rfl⟩
  have hvalid : n < 0xD800 ∨ 0xDFFF < n ∧ n < 0x110000 := hn ▸ c.valid
  have hread {code : Nat} (hcode : code = n) : Char.ofNat code = c := by
    rw [hcode, hn]
    exact Char.ofNat_toNat c
  have hlow (m : Nat) : (0x80 : UInt8).toNat ≤ (UInt8.ofNat (m % 64 + 0x80)).toNat := by
    simp only [toNat_continuation, UInt8.reduceToNat]
    omega
  have hhigh (m : Nat) : (UInt8.ofNat (m % 64 + 0x80)).toNat ≤ (0xBF : UInt8).toNat := by
    simp only [toNat_continuation, UInt8.reduceToNat]
    omega
  simp only [String.utf8EncodeChar, ← hn]
  split
  next h =>
    have hbyte : (UInt8.ofNat n).toNat = n := by
      rw [UInt8.toNat_ofNat']
      omega
    rw [List.foldl_cons, feed_starting (start_of_lt_80 (by omega)), hread hbyte]
    rfl
  next hone =>
    split
    next htwo =>
      have hfirst : (UInt8.ofNat (n / 64 % 32 + 0xC0)).toNat = n / 64 + 0xC0 := by
        rw [UInt8.toNat_ofNat']
        omega
      rw [List.foldl_cons, feed_starting (start_of_lt_e0 (by omega) (by omega)),
        List.foldl_cons, feed_completing (hlow _) (hhigh _),
        hread (by rw [toNat_continuation, hfirst]; omega)]
      rfl
    next htwo =>
      split
      next hthree =>
        have hfirst : (UInt8.ofNat (n / 4096 % 16 + 0xE0)).toNat = n / 4096 + 0xE0 := by
          rw [UInt8.toNat_ofNat']
          omega
        rw [List.foldl_cons, feed_starting (start_of_lt_f0 (by omega) (by omega)),
          List.foldl_cons, feed_continuing, List.foldl_cons, feed_completing (hlow _) (hhigh _),
          hread (by rw [toNat_continuation, toNat_continuation, hfirst]; omega)]
        · rfl
        · rw [toNat_continuation, hfirst]
          split <;> simp only [UInt8.reduceToNat] <;> omega
        · rw [toNat_continuation, hfirst]
          split <;> simp only [UInt8.reduceToNat] <;> omega
      next hthree =>
        have hfirst : (UInt8.ofNat (n / 262144 % 8 + 0xF0)).toNat = n / 262144 + 0xF0 := by
          rw [UInt8.toNat_ofNat']
          omega
        rw [List.foldl_cons, feed_starting (start_of_lt_f5 (by omega) (by omega)),
          List.foldl_cons, feed_continuing, List.foldl_cons, feed_continuing (hlow _) (hhigh _),
          List.foldl_cons, feed_completing (hlow _) (hhigh _),
          hread (by rw [toNat_continuation, toNat_continuation, toNat_continuation, hfirst]; omega)]
        · rfl
        · rw [toNat_continuation, hfirst]
          split <;> simp only [UInt8.reduceToNat] <;> omega
        · rw [toNat_continuation, hfirst]
          split <;> simp only [UInt8.reduceToNat] <;> omega

/-- The pieces that a decoder with some progress makes of the bytes to come. -/
def piecesFrom : Progress → Bytes → List Piece
  | progress, [] => Decoder.finish ⟨progress, []⟩
  | progress, byte :: rest =>
      (step progress byte).2 ++ piecesFrom (step progress byte).1 rest

theorem finish_foldl_feed (bytes : Bytes) (progress : Progress) (output : List Piece) :
    (bytes.foldl Decoder.feed ⟨progress, output⟩).finish =
      output.reverse ++ piecesFrom progress bytes := by
  induction bytes generalizing progress output with
  | nil => cases progress <;> simp [Decoder.finish, piecesFrom]
  | cons byte rest ih =>
      rw [List.foldl_cons, Decoder.feed, ih, piecesFrom]
      simp

theorem pieces_eq_piecesFrom (bytes : Bytes) : pieces bytes = piecesFrom .ready bytes :=
  finish_foldl_feed bytes .ready []

theorem pieces_utf8EncodeChar_append (c : Char) (rest : Bytes) :
    pieces (String.utf8EncodeChar c ++ rest) = some c :: pieces rest := by
  rw [pieces, Decoder.initial, List.foldl_append, foldl_feed_utf8EncodeChar, finish_foldl_feed,
    pieces_eq_piecesFrom]
  rfl

end Utf8

/-! ## Whole texts -/

namespace Text

@[simp]
theorem encode_nil : encode [] = [] :=
  rfl

theorem encode_cons (c : Char) (text : Text) :
    encode (c :: text) = String.utf8EncodeChar c ++ encode text :=
  rfl

theorem encode_eq_nil_iff {text : Text} : encode text = [] ↔ text = [] := by
  cases text with
  | nil => simp
  | cons c text => simp [encode_cons, String.utf8EncodeChar_ne_nil]

theorem encode_append (first second : Text) :
    encode (first ++ second) = encode first ++ encode second :=
  List.flatMap_append

theorem pieces_encode (text : Text) : Utf8.pieces (encode text) = text.map some := by
  induction text with
  | nil => rfl
  | cons c text ih => rw [encode_cons, Utf8.pieces_utf8EncodeChar_append, ih, List.map_cons]

theorem isValid_encode (text : Text) : Utf8.isValid (encode text) = true := by
  simp [Utf8.isValid, pieces_encode]

theorem decodeDropping_encode (text : Text) : Utf8.decodeDropping (encode text) = text := by
  simp [Utf8.decodeDropping, pieces_encode, List.filterMap_map]

theorem encode_injective : Function.Injective encode := by
  intro first second h
  rw [← decodeDropping_encode first, h, decodeDropping_encode]

/-! ## ASCII bytes in an encoded text -/

theorem encode_cons_of_lt {c : Char} (h : c.toNat < 0x80) (text : Text) :
    encode (c :: text) = UInt8.ofNat c.toNat :: encode text := by
  rw [encode_cons, utf8EncodeChar_of_lt h]
  rfl

theorem mem_encode_iff {c : Char} (h : c.toNat < 0x80) {text : Text} :
    UInt8.ofNat c.toNat ∈ encode text ↔ c ∈ text := by
  have hbyte := toNat_ofNat_toNat h
  rw [encode, List.mem_flatMap]
  constructor
  · rintro ⟨d, hd, hmem⟩
    rcases Nat.lt_or_ge d.toNat 0x80 with hlt | hge
    · rw [utf8EncodeChar_of_lt hlt, List.mem_singleton] at hmem
      have hvalue := congrArg UInt8.toNat hmem
      rw [hbyte, toNat_ofNat_toNat hlt] at hvalue
      rwa [Char.toNat_inj.mp hvalue]
    · have := le_of_mem_utf8EncodeChar hge hmem
      omega
  · intro hc
    refine ⟨c, hc, ?_⟩
    rw [utf8EncodeChar_of_lt h]
    exact List.mem_singleton_self _

theorem notMem_encode_singleton {c d : Char} (h : c.toNat < 0x80) (hne : d ≠ c) :
    UInt8.ofNat c.toNat ∉ encode [d] := by
  rw [mem_encode_iff h, List.mem_singleton]
  exact hne.symm

theorem encode_eq_cons_iff {c : Char} (h : c.toNat < 0x80) {text : Text} {rest : Bytes} :
    encode text = UInt8.ofNat c.toNat :: rest ↔ ∃ more, text = c :: more ∧ rest = encode more := by
  constructor
  · intro htext
    cases text with
    | nil => simp at htext
    | cons d text =>
        have hd : d = c := by
          have hmem : UInt8.ofNat c.toNat ∈ encode [d] := by
            cases hbytes : String.utf8EncodeChar d with
            | nil => exact absurd hbytes String.utf8EncodeChar_ne_nil
            | cons first bytes =>
                rw [encode_cons, hbytes, List.cons_append] at htext
                rw [encode_cons, hbytes, (List.cons.inj htext).1]
                exact List.mem_cons_self
          by_contra hne
          exact notMem_encode_singleton h hne hmem
        rw [hd, encode_cons_of_lt h] at htext
        exact ⟨text, by rw [hd], (List.cons.inj htext).2.symm⟩
  · rintro ⟨more, rfl, rfl⟩
    exact encode_cons_of_lt h more

theorem encode_eq_append_iff
    {front : Text} (h : ∀ c ∈ front, c.toNat < 0x80) {text : Text} {rest : Bytes} :
    encode text = encode front ++ rest ↔
      ∃ more, text = front ++ more ∧ rest = encode more := by
  induction front generalizing text with
  | nil => simp [eq_comm]
  | cons c front ih =>
      obtain ⟨hc, hfront⟩ := List.forall_mem_cons.mp h
      rw [encode_cons_of_lt hc, List.cons_append, encode_eq_cons_iff hc]
      constructor
      · rintro ⟨tail, rfl, htail⟩
        obtain ⟨more, rfl, hrest⟩ := (ih hfront).mp htail.symm
        exact ⟨more, rfl, hrest⟩
      · rintro ⟨more, rfl, hrest⟩
        exact ⟨front ++ more, rfl, ((ih hfront).mpr ⟨more, rfl, hrest⟩).symm⟩

end Text

end DeadExports
