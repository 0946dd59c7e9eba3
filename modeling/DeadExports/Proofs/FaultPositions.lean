import DeadExports.Proofs.CommentRemoval
import DeadExports.Proofs.DocumentReading
import Mathlib.Data.List.Forall2
import Mathlib.Data.List.TakeWhile

/-!
# Where faults are reported

Positions are counted in the text without comments, and a user looks them up in the file. Every
line of that text is a beginning of the line with the same number in the file, so a line and a
column that exist in the text exist in the file too, with the same bytes in front of them.

That the place of a fault lies in the text at all is a property of the readers: each leaves no
more bytes than it was given, and reports a fault within these bytes.
-/

namespace DeadExports.Settings

/-! ## Positions in a text -/

theorem Position.behind_of_notMem {line : Bytes} (h : 0x0A ∉ line) :
    Position.behind line = ⟨1, line.length⟩ := by
  have hcolumn : line.reverse.takeWhile (· ≠ 0x0A) = line.reverse := by
    rw [List.takeWhile_eq_self_iff]
    intro byte hbyte
    rw [decide_eq_true_eq]
    rintro rfl
    exact h (List.mem_reverse.mp hbyte)
  rw [Position.behind, List.count_eq_zero.mpr h, hcolumn, List.length_reverse]

theorem Position.behind_append_cons {line : Bytes} (h : 0x0A ∉ line) (rest : Bytes) :
    Position.behind (line ++ 0x0A :: rest) =
      ⟨(Position.behind rest).line + 1, (Position.behind rest).column⟩ := by
  have hcount : (line ++ 0x0A :: rest).count 0x0A = rest.count 0x0A + 1 := by
    rw [List.count_append, List.count_cons_self, List.count_eq_zero.mpr h, Nat.zero_add]
  have hcolumn : ((line ++ 0x0A :: rest).reverse.takeWhile (· ≠ 0x0A)) =
      rest.reverse.takeWhile (· ≠ 0x0A) := by
    rw [List.reverse_append, List.reverse_cons, List.append_assoc, List.takeWhile_append]
    split
    next hall =>
      rw [(List.takeWhile_prefix _).eq_of_length hall]
      exact List.append_nil _
    next => rfl
  rw [Position.behind, Position.behind, hcount, hcolumn]
  rfl

/-- A position behind the beginning of a text is on a line of the text. -/
theorem Position.exists_line_of_take (text : Bytes) (length : Nat) :
    ∃ number line, (Position.behind (text.take length)).line = number + 1 ∧
      (cutAt 0x0A text)[number]? = some line ∧
      (Position.behind (text.take length)).column ≤ line.length := by
  induction text using lines_induction (0x0A : UInt8) generalizing length with
  | last line hline =>
      have hfront : 0x0A ∉ line.take length := fun h => hline (List.mem_of_mem_take h)
      rw [Position.behind_of_notMem hfront, cutAt_of_notMem hline]
      exact ⟨0, line, rfl, rfl, (List.take_prefix length line).length_le⟩
  | more line rest hline ih =>
      rw [cutAt_append_cons, cutAt_of_notMem hline]
      by_cases hlength : length ≤ line.length
      · have hfront : 0x0A ∉ line.take length := fun h => hline (List.mem_of_mem_take h)
        rw [List.take_append_of_le_length hlength, Position.behind_of_notMem hfront]
        exact ⟨0, line, rfl, rfl, (List.take_prefix length line).length_le⟩
      · obtain ⟨more, rfl⟩ : ∃ more, length = line.length + (more + 1) :=
          ⟨length - line.length - 1, by omega⟩
        obtain ⟨number, found, hnumber, hfound, hcolumn⟩ := ih more
        have htake : (line ++ 0x0A :: rest).take (line.length + (more + 1)) =
            line ++ 0x0A :: rest.take more := by
          rw [List.take_length_add_append, List.take_succ_cons]
        rw [htake, Position.behind_append_cons hline]
        refine ⟨number + 1, found, ?_, ?_, hcolumn⟩
        · rw [hnumber]
        · rw [List.singleton_append, List.getElem?_cons_succ, hfound]

/-! ## Lines without comments -/

def commentStart : Bytes := [0x2F, 0x2F]

theorem prefix_cutComment (line : Bytes) : cutComment line <+: line := by
  induction line with
  | nil => exact List.nil_prefix
  | cons byte line ih =>
      rw [cutComment]
      split
      next => exact List.nil_prefix
      next => exact (List.prefix_cons_inj byte).mpr ih

theorem not_commentStart_infix_cutComment (line : Bytes) :
    ¬commentStart <:+: cutComment line := by
  induction line with
  | nil => decide
  | cons byte line ih =>
      rw [cutComment]
      split
      next => decide
      next hstart =>
        rw [List.infix_cons_iff, not_or]
        refine ⟨?_, ih⟩
        intro hbegins
        obtain ⟨hbyte, hnext⟩ := List.cons_prefix_cons.mp hbegins
        obtain ⟨back, hback⟩ := hnext.trans (prefix_cutComment line)
        exact hstart ⟨hbyte.symm, by rw [← hback]; rfl⟩

theorem prefix_cutComment_dropLastMark (line : Bytes) :
    cutComment (dropLastMark 0x0D line) <+: line := by
  have hdropped : dropLastMark 0x0D line <+: line := by
    rcases dropLastMark_cases 0x0D line with hsame | hmark
    · exact ⟨[], (List.append_nil _).trans hsame⟩
    · exact ⟨[0x0D], hmark.symm⟩
  exact (prefix_cutComment _).trans hdropped

/-- The lines of the text without comments are beginnings of the first lines of the file. -/
theorem exists_forall₂_cutAt_stripComments (content : Bytes) :
    ∃ lines, List.Forall₂ (· <+: ·) (cutAt 0x0A (stripComments content)) lines ∧
      lines <+: cutAt 0x0A content := by
  induction content using lines_induction (0x0A : UInt8) with
  | last line hline =>
      have hleft : 0x0A ∉ cutComment line := fun h => hline ((prefix_cutComment line).subset h)
      rw [stripComments_of_notMem hline, cutAt_of_notMem hleft, cutAt_of_notMem hline]
      exact ⟨[line], .cons (prefix_cutComment line) .nil, List.prefix_rfl⟩
  | more line rest hline ih =>
      have hbegins := prefix_cutComment_dropLastMark line
      have hleft : 0x0A ∉ cutComment (dropLastMark 0x0D line) :=
        fun h => hline (hbegins.subset h)
      rw [stripComments_append_cons hline, cutAt_append_cons, cutAt_of_notMem hline]
      split
      next =>
        rw [List.append_nil, cutAt_of_notMem hleft]
        exact ⟨[line], .cons hbegins .nil, List.prefix_append _ _⟩
      next =>
        obtain ⟨lines, hlines, hfirst⟩ := ih
        rw [cutAt_append_cons, cutAt_of_notMem hleft]
        exact ⟨line :: lines, .cons hbegins hlines, (List.prefix_cons_inj line).mpr hfirst⟩

/-- What has no mark in it stands on one side of a mark. -/
theorem infix_append_cons_iff
    {α : Type} {mark : α} {part front back : List α} (h : mark ∉ part) :
    part <:+: front ++ mark :: back ↔ part <:+: front ∨ part <:+: back := by
  constructor
  · rintro ⟨before, after, hwhole⟩
    rcases List.append_eq_append_iff.mp hwhole with ⟨more, hfront, -⟩ | ⟨more, hpart, hback⟩
    · exact .inl ⟨before, more, hfront.symm⟩
    -- The occurrence reaches the mark, so it begins behind it unless it ends in front of it.
    rcases List.append_eq_append_iff.mp hpart with ⟨inner, hfront, rfl⟩ | ⟨inner, -, rfl⟩
    · cases more with
      | nil => exact .inl ⟨before, [], by simp [hfront]⟩
      | cons first more =>
          obtain ⟨rfl, -⟩ := List.cons.inj hback
          simp at h
    · cases inner with
      | nil =>
          cases part with
          | nil => exact .inl List.nil_infix
          | cons first part =>
              obtain ⟨rfl, -⟩ := List.cons.inj hback
              simp at h
      | cons first inner => exact .inr ⟨inner, after, (List.cons.inj hback).2.symm⟩
  · rintro (hfront | hback)
    · exact hfront.trans (List.prefix_append _ _).isInfix
    · exact hback.trans ((List.suffix_cons mark back).trans (List.suffix_append _ _)).isInfix

theorem not_commentStart_infix_stripComments (content : Bytes) :
    ¬commentStart <:+: stripComments content := by
  induction content using lines_induction (0x0A : UInt8) with
  | last line hline =>
      rw [stripComments_of_notMem hline]
      exact not_commentStart_infix_cutComment line
  | more line rest hline ih =>
      rw [stripComments_append_cons hline]
      split
      next =>
        rw [List.append_nil]
        exact not_commentStart_infix_cutComment _
      next =>
        rw [infix_append_cons_iff (by decide), not_or]
        exact ⟨not_commentStart_infix_cutComment _, ih⟩

/-! ## Readers do not go back -/

@[simp] theorem Fault.remaining_here (problem : Problem) (rest : Bytes) :
    (Fault.here problem rest).remaining = rest.length := rfl

@[simp] theorem Fault.remaining_ahead (problem : Problem) (rest : Bytes) :
    (Fault.ahead problem rest).remaining = rest.length - 1 := rfl

/-- What a reader leaves, or what follows the place of its fault, is no longer than the bytes
that it was given. -/
def StaysWithin {α : Type} (left : α → Bytes) (bytes : Bytes) : Except Fault α → Prop
  | .error fault => fault.remaining ≤ bytes.length
  | .ok value => (left value).length ≤ bytes.length

section StaysWithin

variable {α β : Type} {left : α → Bytes} {left' : β → Bytes} {bytes : Bytes}

theorem StaysWithin.length_le
    {reading : Except Fault α} {value : α} (h : StaysWithin left bytes reading)
    (hok : reading = .ok value) : (left value).length ≤ bytes.length := by
  rwa [hok] at h

theorem StaysWithin.remaining_le
    {reading : Except Fault α} {fault : Fault} (h : StaysWithin left bytes reading)
    (herror : reading = .error fault) : fault.remaining ≤ bytes.length := by
  rwa [herror] at h

theorem StaysWithin.mono
    {wider : Bytes} {reading : Except Fault α} (h : StaysWithin left bytes reading)
    (hle : bytes.length ≤ wider.length) : StaysWithin left wider reading := by
  cases reading with
  | error fault => exact Nat.le_trans h hle
  | ok value => exact Nat.le_trans h hle

theorem StaysWithin.bind
    {reading : Except Fault α} {next : α → Except Fault β} (h : StaysWithin left bytes reading)
    (hnext : ∀ value, reading = .ok value → StaysWithin left' (left value) (next value)) :
    StaysWithin left' bytes (reading >>= next) := by
  cases reading with
  | error fault => exact h
  | ok value => exact (hnext value rfl).mono h

end StaysWithin

theorem length_le_of_skipBlanks {bytes rest : Bytes} (h : skipBlanks bytes = rest) :
    rest.length ≤ bytes.length :=
  h ▸ length_skipBlanks_le bytes

theorem readString_staysWithin (taken bytes : Bytes) :
    StaysWithin Prod.snd bytes (readString taken bytes) := by
  fun_induction readString taken bytes
  all_goals first
    | exact StaysWithin.mono ‹_› (by simp only [List.length_cons]; omega)
    | simp only [StaysWithin, Fault.remaining_here, List.length_cons, List.length_nil]; omega

/-! ### Numbers -/

theorem length_takeDigits_le (bytes : Bytes) : (takeDigits bytes).2.length ≤ bytes.length := by
  induction bytes with
  | nil => exact Nat.le_refl 0
  | cons byte bytes ih =>
      rw [takeDigits]
      split
      next => exact Nat.le_refl _
      next => exact Nat.le_succ_of_le ih

theorem length_exponentSign_le (bytes : Bytes) :
    (exponentSign bytes).2.length ≤ bytes.length := by
  cases bytes with
  | nil => exact Nat.le_refl 0
  | cons byte bytes =>
      rw [exponentSign]
      split
      next => exact Nat.le_succ _
      next =>
        split
        next => exact Nat.le_succ _
        next => exact Nat.le_refl _

theorem length_readExponentDigits_le (value : Nat) (bytes : Bytes) :
    (readExponentDigits value bytes).2.length ≤ bytes.length := by
  induction bytes generalizing value with
  | nil => exact Nat.le_refl 0
  | cons byte bytes ih =>
      rw [readExponentDigits]
      split
      next => exact Nat.le_refl _
      next =>
        split
        next => exact Nat.le_succ _
        next => exact Nat.le_succ_of_le (ih _)

theorem scaled_staysWithin (positive : Bool) (significand : Nat) (exponent : Int) (rest : Bytes) :
    StaysWithin Prod.snd rest (scaled positive significand exponent rest) := by
  rw [scaled]
  split
  next => exact Nat.le_refl _
  next => exact Nat.le_refl _

theorem readExponent_staysWithin
    (positive : Bool) (significand : Nat) (start : Int) (bytes : Bytes) :
    StaysWithin Prod.snd bytes (readExponent positive significand start bytes) := by
  have hsign := length_exponentSign_le bytes
  simp only [readExponent]
  split
  next => exact Nat.zero_le _
  next byte rest hrest =>
    rw [hrest, List.length_cons] at hsign
    split
    next => exact Nat.le_of_succ_le hsign
    next d _ =>
      have hdigits := length_readExponentDigits_le d rest
      split
      next exponent more hmore =>
        rw [hmore] at hdigits
        exact (scaled_staysWithin _ _ _ more).mono (Nat.le_trans hdigits (by omega))
      next more hmore =>
        rw [hmore] at hdigits
        split
        next => exact Nat.le_trans hdigits (by omega)
        next =>
          exact Nat.le_trans (length_takeDigits_le more) (Nat.le_trans hdigits (by omega))

theorem readScale_staysWithin
    (positive : Bool) (significand : Nat) (exponent : Int) (bytes : Bytes) :
    StaysWithin Prod.snd bytes (readScale positive significand exponent bytes) := by
  cases bytes with
  | nil => exact scaled_staysWithin _ _ _ []
  | cons byte rest =>
      rw [readScale]
      split
      next => exact (readExponent_staysWithin _ _ _ rest).mono (Nat.le_succ _)
      next => exact scaled_staysWithin _ _ _ _

theorem readFraction_staysWithin
    (positive : Bool) (significand : Nat) (exponent : Int) (bytes : Bytes) :
    StaysWithin Prod.snd bytes (readFraction positive significand exponent bytes) := by
  have hdigits := length_takeDigits_le bytes
  rw [readFraction]
  split
  next => exact Nat.zero_le _
  next byte rest hrest =>
    rw [hrest] at hdigits
    exact Nat.le_trans (Nat.sub_le _ _) hdigits
  next digits rest _ _ hrest =>
    rw [hrest] at hdigits
    exact (readScale_staysWithin _ _ _ rest).mono hdigits

theorem readTail_staysWithin
    (positive : Bool) (significand dropped : Nat) (bytes : Bytes) :
    StaysWithin Prod.snd bytes (readTail positive significand dropped bytes) := by
  cases bytes with
  | nil =>
      rw [readTail]
      split
      next => exact Nat.le_refl 0
      next => exact scaled_staysWithin _ _ _ []
  | cons byte rest =>
      rw [readTail]
      split
      next => exact (readFraction_staysWithin _ _ _ rest).mono (Nat.le_succ _)
      split
      next => exact (readExponent_staysWithin _ _ _ rest).mono (Nat.le_succ _)
      split
      next => exact Nat.le_refl _
      next => exact scaled_staysWithin _ _ _ _

theorem readNumber_staysWithin (positive : Bool) (bytes : Bytes) :
    StaysWithin Prod.snd bytes (readNumber positive bytes) := by
  cases bytes with
  | nil => exact Nat.le_refl 0
  | cons byte rest =>
      have hdigits := length_takeDigits_le rest
      rw [readNumber]
      split
      next => exact Nat.le_succ _
      next =>
        split
        next => exact Nat.le_trans (Nat.sub_le _ _) (Nat.le_succ _)
        next => exact (readTail_staysWithin _ _ _ rest).mono (Nat.le_succ _)
      next => exact (readTail_staysWithin _ _ _ _).mono (Nat.le_succ_of_le hdigits)

/-! ### Values of the wrong type -/

theorem readLiteral_staysWithin (found : Found) (letters bytes : Bytes) :
    StaysWithin Prod.snd bytes (readLiteral found letters bytes) := by
  fun_induction readLiteral found letters bytes with
  | case1 => exact Nat.le_refl _
  | case2 => exact Nat.le_refl 0
  | case3 letters byte rest ih => exact ih.mono (Nat.le_succ _)
  | case4 => exact Nat.le_succ _

theorem readFound_staysWithin (bytes : Bytes) :
    StaysWithin Prod.snd bytes (readFound bytes) := by
  cases bytes with
  | nil => exact Nat.le_refl 0
  | cons byte rest =>
      have hstep : rest.length ≤ (byte :: rest).length := Nat.le_succ _
      rw [readFound]
      split
      next => exact (readLiteral_staysWithin _ _ rest).mono hstep
      split
      next => exact (readLiteral_staysWithin _ _ rest).mono hstep
      split
      next => exact (readLiteral_staysWithin _ _ rest).mono hstep
      split
      next => exact (readNumber_staysWithin _ rest).mono hstep
      split
      next => exact readNumber_staysWithin _ _
      split
      next =>
        have hstring := (readString_staysWithin [] rest).mono hstep
        split
        next fault hfault => exact hstring.remaining_le hfault
        next text more hmore => exact hstring.length_le hmore
      split
      next => exact Nat.le_refl _
      split
      next => exact Nat.le_refl _
      next => exact Nat.sub_le _ _

theorem remaining_mismatch_le (wanted : Wanted) (bytes : Bytes) :
    (mismatch wanted bytes).remaining ≤ bytes.length := by
  have hfound := readFound_staysWithin bytes
  rw [mismatch]
  split
  next fault hfault => exact hfound.remaining_le hfault
  next found rest hrest => exact hfound.length_le hrest

/-! ### Arrays and objects -/

theorem nextElement_staysWithin (first : Bool) (bytes : Bytes) :
    StaysWithin Prod.snd bytes (nextElement first bytes) := by
  rw [nextElement]
  split
  next => exact Nat.zero_le _
  next byte rest hrest =>
    have hle := length_le_of_skipBlanks hrest
    split
    next => exact hle
    split
    next => exact hle
    split
    next =>
      split
      next => exact Nat.zero_le _
      next second more hmore =>
        have hmoreLe := Nat.le_trans (length_le_of_skipBlanks hmore) (Nat.le_of_succ_le hle)
        split
        next => exact Nat.le_trans (Nat.sub_le _ _) hmoreLe
        next => exact hmoreLe
    next => exact Nat.le_trans (Nat.sub_le _ _) hle

theorem readStringValue_staysWithin (bytes : Bytes) :
    StaysWithin Prod.snd bytes (readStringValue bytes) := by
  cases bytes with
  | nil => exact Nat.le_refl 0
  | cons byte rest =>
      rw [readStringValue]
      split
      next => exact (readString_staysWithin [] rest).mono (Nat.le_succ _)
      next => exact remaining_mismatch_le _ _

theorem readStrings_staysWithin (first : Bool) (bytes : Bytes) :
    StaysWithin Prod.snd bytes (readStrings first bytes) := by
  fun_induction readStrings first bytes with
  | case1 first bytes fault hnext => exact (nextElement_staysWithin first bytes).remaining_le hnext
  | case2 first bytes rest hnext =>
      have hrest := (nextElement_staysWithin first bytes).length_le hnext
      exact Nat.le_trans (List.tail_sublist rest).length_le hrest
  | case3 first bytes rest hnext fault hvalue =>
      have hrest := (nextElement_staysWithin first bytes).length_le hnext
      exact Nat.le_trans ((readStringValue_staysWithin rest).remaining_le hvalue) hrest
  | case4 first bytes rest hnext text rest' hvalue fault htexts ih =>
      have hrest := (nextElement_staysWithin first bytes).length_le hnext
      have hrest' := (readStringValue_staysWithin rest).length_le hvalue
      exact Nat.le_trans (ih.remaining_le htexts) (Nat.le_trans hrest' hrest)
  | case5 first bytes rest hnext text rest' hvalue texts rest'' htexts ih =>
      have hrest := (nextElement_staysWithin first bytes).length_le hnext
      have hrest' := (readStringValue_staysWithin rest).length_le hvalue
      have hrest'' : rest''.length ≤ rest'.length := ih.length_le htexts
      exact Nat.le_trans hrest'' (Nat.le_trans hrest' hrest)

theorem readField_staysWithin (bytes : Bytes) :
    StaysWithin Prod.snd bytes (readField bytes) := by
  rw [readField]
  split
  next => exact Nat.zero_le _
  next byte rest hrest =>
    have hle := length_le_of_skipBlanks hrest
    split
    next => exact (readStrings_staysWithin true rest).mono (Nat.le_of_succ_le hle)
    next => exact Nat.le_trans (remaining_mismatch_le _ _) hle

theorem closeArray_staysWithin (bytes : Bytes) : StaysWithin id bytes (closeArray bytes) := by
  rw [closeArray]
  split
  next => exact Nat.zero_le _
  next byte rest hrest =>
    have hle := length_le_of_skipBlanks hrest
    split
    next => exact Nat.le_of_succ_le hle
    split
    next =>
      split
      next => exact Nat.zero_le _
      next second more hmore =>
        have hmoreLe := Nat.le_trans (length_le_of_skipBlanks hmore) (Nat.le_of_succ_le hle)
        split
        next => exact Nat.le_trans (Nat.sub_le _ _) hmoreLe
        next => exact Nat.le_trans (Nat.sub_le _ _) hmoreLe
    next => exact Nat.le_trans (Nat.sub_le _ _) hle

theorem readFieldElement_staysWithin (first : Bool) (bytes : Bytes) :
    StaysWithin Prod.snd bytes (readFieldElement first bytes) := by
  apply (nextElement_staysWithin first bytes).bind
  rintro ⟨more, rest⟩ -
  cases more with
  | false => exact Nat.le_refl _
  | true => exact readField_staysWithin rest

theorem readArray_staysWithin (bytes : Bytes) :
    StaysWithin Prod.snd bytes (readArray bytes) := by
  apply (readFieldElement_staysWithin true bytes).bind
  rintro ⟨allow, rest⟩ -
  apply (readFieldElement_staysWithin false rest).bind
  rintro ⟨extensions, rest⟩ -
  apply (closeArray_staysWithin rest).bind
  intro rest _
  exact Nat.le_refl _

theorem nextKey_staysWithin (first : Bool) (bytes : Bytes) :
    StaysWithin Prod.snd bytes (nextKey first bytes) := by
  rw [nextKey]
  split
  next => exact Nat.zero_le _
  next byte rest hrest =>
    have hle := length_le_of_skipBlanks hrest
    split
    next => exact Nat.le_of_succ_le hle
    split
    next =>
      split
      next => exact Nat.le_of_succ_le hle
      next => exact Nat.le_trans (Nat.sub_le _ _) hle
    split
    next =>
      split
      next => exact Nat.zero_le _
      next second more hmore =>
        have hmoreLe := Nat.le_trans (length_le_of_skipBlanks hmore) (Nat.le_of_succ_le hle)
        split
        next => exact Nat.le_of_succ_le hmoreLe
        split
        next => exact Nat.le_trans (Nat.sub_le _ _) hmoreLe
        next => exact Nat.le_trans (Nat.sub_le _ _) hmoreLe
    next => exact Nat.le_trans (Nat.sub_le _ _) hle

theorem remaining_keyFault_le (problem : Problem) (bytes : Bytes) :
    (keyFault problem bytes).remaining ≤ bytes.length := by
  rw [keyFault]
  split
  next => exact Nat.zero_le _
  next byte rest hrest =>
    have hle := length_le_of_skipBlanks hrest
    split
    next => exact Nat.le_of_succ_le hle
    next => exact hle

theorem readColon_staysWithin (bytes : Bytes) : StaysWithin id bytes (readColon bytes) := by
  rw [readColon]
  split
  next => exact Nat.zero_le _
  next byte rest hrest =>
    have hle := length_le_of_skipBlanks hrest
    split
    next => exact Nat.le_of_succ_le hle
    next => exact Nat.le_trans (Nat.sub_le _ _) hle

theorem readMember_staysWithin (fields : Fields) (bytes : Bytes) :
    StaysWithin Prod.snd bytes (readMember fields bytes) := by
  apply (readString_staysWithin [] bytes).bind
  rintro ⟨key, rest⟩ -
  dsimp only
  split
  next => exact remaining_keyFault_le _ _
  next field _ =>
    split
    next => exact remaining_keyFault_le _ _
    next =>
      apply (readColon_staysWithin rest).bind
      intro rest _
      apply (readField_staysWithin rest).bind
      rintro ⟨value, rest⟩ -
      exact Nat.le_refl _

theorem readMembers_staysWithin (first : Bool) (fields : Fields) (bytes : Bytes) :
    StaysWithin Prod.snd bytes (readMembers first fields bytes) := by
  fun_induction readMembers first fields bytes with
  | case1 first fields bytes fault hnext =>
      exact (nextKey_staysWithin first bytes).remaining_le hnext
  | case2 first fields bytes rest hnext =>
      exact (nextKey_staysWithin first bytes).length_le hnext
  | case3 first fields bytes rest hnext fault hmember =>
      have hrest := (nextKey_staysWithin first bytes).length_le hnext
      exact Nat.le_trans ((readMember_staysWithin fields rest).remaining_le hmember) hrest
  | case4 first fields bytes rest hnext fields' rest' hmember ih =>
      have hrest := (nextKey_staysWithin first bytes).length_le hnext
      have hrest' := (readMember_staysWithin fields rest).length_le hmember
      exact ih.mono (Nat.le_trans hrest' hrest)

theorem readSettings_staysWithin (bytes : Bytes) :
    StaysWithin Prod.snd bytes (readSettings bytes) := by
  rw [readSettings]
  split
  next => exact Nat.zero_le _
  next byte rest hrest =>
    have hle := length_le_of_skipBlanks hrest
    split
    next => exact (readArray_staysWithin rest).mono (Nat.le_of_succ_le hle)
    split
    next => exact (readMembers_staysWithin _ _ rest).mono (Nat.le_of_succ_le hle)
    next => exact Nat.le_trans (remaining_mismatch_le _ _) hle

theorem remaining_le_of_readDocument
    {bytes : Bytes} {fault : Fault} (h : readDocument bytes = .error fault) :
    fault.remaining ≤ bytes.length := by
  have hsettings := readSettings_staysWithin bytes
  rw [readDocument] at h
  split at h
  next fault' hfault =>
    obtain rfl := Except.error.inj h
    exact hsettings.remaining_le hfault
  next settings rest hrest =>
    split at h
    next => cases h
    next byte more hmore =>
      obtain rfl := Except.error.inj h
      have hle := Nat.le_trans (length_le_of_skipBlanks hmore) (hsettings.length_le hrest)
      exact Nat.le_trans (Nat.sub_le _ _) hle

/-! ## Positions in the file -/

/-- A line and a column of the text without comments are also a line and a column of the file. -/
theorem exists_lines_of_take (content : Bytes) (length : Nat) :
    let position := Position.behind ((stripComments content).take length)
    0 < position.line ∧ ∃ line left,
      (cutAt 0x0A content)[position.line - 1]? = some line ∧
      (cutAt 0x0A (stripComments content))[position.line - 1]? = some left ∧
      position.column ≤ line.length ∧ position.column ≤ left.length ∧
      line.take position.column = left.take position.column := by
  intro position
  obtain ⟨lines, hlines, hfirst⟩ := exists_forall₂_cutAt_stripComments content
  obtain ⟨number, left, hnumber, hleft, hcolumn⟩ :=
    Position.exists_line_of_take (stripComments content) length
  obtain ⟨hnumberLt, hleftEq⟩ := List.getElem?_eq_some_iff.mp hleft
  have hlt : number < lines.length := hlines.length_eq ▸ hnumberLt
  have hbegins : left <+: lines[number] := hleftEq ▸ hlines.get hnumberLt hlt
  have hline : (cutAt 0x0A content)[number]? = some lines[number] :=
    List.prefix_iff_getElem?.mp hfirst number hlt
  have hposition : position.line = number + 1 := hnumber
  rw [hposition, Nat.add_sub_cancel]
  refine ⟨Nat.succ_pos number, lines[number], left, hline, hleft,
    Nat.le_trans hcolumn hbegins.length_le, hcolumn, ?_⟩
  obtain ⟨back, hback⟩ := hbegins
  rw [← hback, List.take_append_of_le_length hcolumn]

/-- A fault in a settings file is reported at a line and a column of the file itself, with the
same bytes in front of it on that line as in the text without comments. No comment is left in
that text. -/
theorem ofFile_fault_position (content : Bytes) :
    ¬commentStart <:+: stripComments content ∧
    ∀ (fs : FileSystem) (path : Path) (fault : Fault),
      fs.read path = .ok content → Utf8.isValid content = true →
      readDocument (stripComments content) = .error fault →
        let position := fault.position (stripComments content)
        ofFile fs path = .error (.invalid path fault.problem position) ∧
        fault.remaining ≤ (stripComments content).length ∧
        0 < position.line ∧ ∃ line left,
          (cutAt 0x0A content)[position.line - 1]? = some line ∧
          (cutAt 0x0A (stripComments content))[position.line - 1]? = some left ∧
          position.column ≤ line.length ∧ position.column ≤ left.length ∧
          line.take position.column = left.take position.column := by
  refine ⟨not_commentStart_infix_stripComments content, ?_⟩
  intro fs path fault hread hvalid hfault position
  refine ⟨?_, remaining_le_of_readDocument hfault, exists_lines_of_take content _⟩
  simp only [ofFile, hread, hvalid, if_true, ofContent, hfault]
  rfl

/-- A number stands where a list is wanted, behind a comment and in front of another. -/
def numberSource : Text := "[ // allow\r\n  7 // extensions\r\n]".toList

/-- The fault is behind the number. -/
def numberFault : Fault := ⟨.wrongType (.integer 7) .sequence, 3⟩

theorem ofFile_fault_position_numberSource :
    (settingsTree numberSource).read (Bytes.ofString "s") = .ok (Text.encode numberSource) ∧
      Utf8.isValid (Text.encode numberSource) = true ∧
      readDocument (stripComments (Text.encode numberSource)) = .error numberFault ∧
      ofFile (settingsTree numberSource) (Bytes.ofString "s") =
        .error (.invalid (Bytes.ofString "s") numberFault.problem ⟨2, 3⟩) ∧
      ∃ line left, (cutAt 0x0A (Text.encode numberSource))[1]? = some line ∧
        (cutAt 0x0A (stripComments (Text.encode numberSource)))[1]? = some left ∧
        line.take 3 = left.take 3 := by
  have hread : (settingsTree numberSource).read (Bytes.ofString "s") =
      .ok (Text.encode numberSource) := rfl
  have hvalid : Utf8.isValid (Text.encode numberSource) = true := by decide
  have hfault : readDocument (stripComments (Text.encode numberSource)) = .error numberFault := rfl
  have hposition :
      numberFault.position (stripComments (Text.encode numberSource)) = ⟨2, 3⟩ := by decide
  obtain ⟨-, hreported⟩ := ofFile_fault_position (Text.encode numberSource)
  obtain ⟨hofFile, -, -, line, left, hline, hleft, -, -, hsame⟩ :=
    hreported (settingsTree numberSource) (Bytes.ofString "s") numberFault hread hvalid hfault
  rw [hposition] at hofFile hline hleft hsame
  exact ⟨hread, hvalid, hfault, hofFile, line, left, hline, hleft, hsame⟩

end DeadExports.Settings
