import DeadExports.Settings.Number
import DeadExports.Text.Utf8

/-!
# Reading a settings document

A settings document is either an object with the keys `allow` and `extensions`,
each at most once and in any order, or an array of at most two members that give
the same two fields by position. Every field is an array of strings.

Each reader takes the bytes that remain and returns its value with the bytes that
remain after it, or the first fault. The loops over array elements and object
members end because a string that has been read has taken at least its quotes and
a member that has been read gives a field that was missing.
-/

namespace DeadExports.Settings

def isBlank (byte : UInt8) : Bool :=
  byte = 0x20 || byte = 0x0A || byte = 0x09 || byte = 0x0D

def skipBlanks (bytes : Bytes) : Bytes :=
  bytes.dropWhile isBlank

/-! ## Strings -/

def hexDigit? (byte : UInt8) : Option Nat :=
  if 0x30 ≤ byte ∧ byte ≤ 0x39 then some (byte.toNat - 0x30)
  else if 0x61 ≤ byte ∧ byte ≤ 0x66 then some (byte.toNat - 0x61 + 10)
  else if 0x41 ≤ byte ∧ byte ≤ 0x46 then some (byte.toNat - 0x41 + 10)
  else none

def hexValue? (a b c d : UInt8) : Option Nat :=
  match hexDigit? a, hexDigit? b, hexDigit? c, hexDigit? d with
  | some a, some b, some c, some d => some (((a * 16 + b) * 16 + c) * 16 + d)
  | _, _, _, _ => none

/-- The byte that a one-letter escape stands for. -/
def escapedByte? (letter : UInt8) : Option UInt8 :=
  if letter = 0x22 then some 0x22
  else if letter = 0x5C then some 0x5C
  else if letter = 0x2F then some 0x2F
  else if letter = 0x62 then some 0x08
  else if letter = 0x66 then some 0x0C
  else if letter = 0x6E then some 0x0A
  else if letter = 0x72 then some 0x0D
  else if letter = 0x74 then some 0x09
  else none

def isHighSurrogate (code : Nat) : Bool :=
  0xD800 ≤ code && code ≤ 0xDBFF

def isLowSurrogate (code : Nat) : Bool :=
  0xDC00 ≤ code && code ≤ 0xDFFF

def pairedChar (high low : Nat) : Char :=
  Char.ofNat (0x10000 + (high - 0xD800) * 0x400 + (low - 0xDC00))

/-- Adds a character to the bytes of a string, the latest byte first. -/
def pushChar (c : Char) (taken : Bytes) : Bytes :=
  (String.utf8EncodeChar c).reverse ++ taken

/-- Reads the rest of a string after its opening quote. `taken` holds the bytes
of its value so far, the latest first. -/
def readString : (taken : Bytes) → Bytes → Except Fault (Text × Bytes)
  | _, [] => .error (.here .stringEnds [])
  | taken, byte :: rest =>
      if byte = 0x22 then .ok (Utf8.decodeDropping taken.reverse, rest)
      else if byte = 0x5C then
        match rest with
        | [] => .error (.here .stringEnds [])
        | letter :: rest =>
            if letter = 0x75 then
              match rest with
              | a :: b :: c :: d :: rest =>
                  match hexValue? a b c d with
                  | none => .error (.here .invalidEscape rest)
                  | some code =>
                      if isLowSurrogate code then .error (.here .unpairedSurrogate rest)
                      else if isHighSurrogate code then
                        match rest with
                        | [] => .error (.here .stringEnds [])
                        | slash :: rest =>
                            if slash ≠ 0x5C then .error (.here .escapeEnds rest)
                            else
                              match rest with
                              | [] => .error (.here .stringEnds [])
                              | letter :: rest =>
                                  if letter ≠ 0x75 then .error (.here .escapeEnds rest)
                                  else
                                    match rest with
                                    | a :: b :: c :: d :: rest =>
                                        match hexValue? a b c d with
                                        | none => .error (.here .invalidEscape rest)
                                        | some low =>
                                            if isLowSurrogate low then
                                              readString (pushChar (pairedChar code low) taken) rest
                                            else .error (.here .unpairedSurrogate rest)
                                    | _ => .error (.here .stringEnds [])
                      else readString (pushChar (Char.ofNat code) taken) rest
              | _ => .error (.here .stringEnds [])
            else
              match escapedByte? letter with
              | none => .error (.here .invalidEscape rest)
              | some value => readString (value :: taken) rest
      else if byte < 0x20 then .error (.here .controlCharacter rest)
      else readString (byte :: taken) rest

/-! ## Values of the wrong type -/

def readLiteral (found : Found) : (letters : Bytes) → Bytes → Except Fault (Found × Bytes)
  | [], rest => .ok (found, rest)
  | _ :: _, [] => .error (.here .valueEnds [])
  | letter :: letters, byte :: rest =>
      if byte = letter then readLiteral found letters rest
      else .error (.here .literalExpected rest)

/-- Reads a value of the wrong type far enough to name it. Arrays and objects are
named without being read. -/
def readFound : Bytes → Except Fault (Found × Bytes)
  | [] => .error (.ahead .valueExpected [])
  | byte :: rest =>
      if byte = 0x6E then readLiteral .null (Bytes.ofString "ull") rest
      else if byte = 0x74 then readLiteral (.boolean true) (Bytes.ofString "rue") rest
      else if byte = 0x66 then readLiteral (.boolean false) (Bytes.ofString "alse") rest
      else if byte = 0x2D then readNumber false rest
      else if (digit? byte).isSome then readNumber true (byte :: rest)
      else if byte = 0x22 then
        match readString [] rest with
        | .error fault => .error fault
        | .ok (text, rest) => .ok (.string text, rest)
      else if byte = 0x5B then .ok (.sequence, byte :: rest)
      else if byte = 0x7B then .ok (.map, byte :: rest)
      else .error (.ahead .valueExpected (byte :: rest))

def mismatch (wanted : Wanted) (bytes : Bytes) : Fault :=
  match readFound bytes with
  | .error fault => fault
  | .ok (found, rest) => .here (.wrongType found wanted) rest

/-! ## Arrays of strings -/

/-- Whether an array goes on, and where: the bytes that remain begin with the
further element or with the closing bracket. -/
def nextElement (first : Bool) (bytes : Bytes) : Except Fault (Bool × Bytes) :=
  match skipBlanks bytes with
  | [] => .error (.ahead .listEnds [])
  | byte :: rest =>
      if byte = 0x5D then .ok (false, byte :: rest)
      else if first then .ok (true, byte :: rest)
      else if byte = 0x2C then
        match skipBlanks rest with
        | [] => .error (.ahead .valueEnds [])
        | byte :: rest =>
            if byte = 0x5D then .error (.ahead .trailingComma (byte :: rest))
            else .ok (true, byte :: rest)
      else .error (.ahead .listCommaOrEndExpected (byte :: rest))

def readStringValue (bytes : Bytes) : Except Fault (Text × Bytes) :=
  match bytes with
  | [] => .error (.ahead .valueEnds [])
  | byte :: rest =>
      if byte = 0x22 then readString [] rest else .error (mismatch .string (byte :: rest))

theorem length_skipBlanks_le (bytes : Bytes) :
    (skipBlanks bytes).length ≤ bytes.length :=
  (List.dropWhile_sublist isBlank).length_le

theorem nextElement_length_le
    {first more : Bool} {bytes rest : Bytes}
    (h : nextElement first bytes = .ok (more, rest)) :
    rest.length ≤ bytes.length := by
  have hskip := length_skipBlanks_le bytes
  unfold nextElement at h
  split at h
  · simp at h
  · next byte tail htail =>
      rw [htail] at hskip
      have htailSkip := length_skipBlanks_le tail
      split at h
      · simp only [Except.ok.injEq, Prod.mk.injEq] at h
        obtain ⟨_, rfl⟩ := h
        exact hskip
      · split at h
        · simp only [Except.ok.injEq, Prod.mk.injEq] at h
          obtain ⟨_, rfl⟩ := h
          exact hskip
        · split at h
          · split at h
            · simp at h
            · next second tail' htail' =>
                rw [htail'] at htailSkip
                split at h
                · simp at h
                · simp only [Except.ok.injEq, Prod.mk.injEq] at h
                  obtain ⟨_, rfl⟩ := h
                  simp only [List.length_cons] at hskip htailSkip ⊢
                  omega
          · simp at h

theorem readString_length_lt
    {taken bytes rest : Bytes} {text : Text}
    (h : readString taken bytes = .ok (text, rest)) :
    rest.length < bytes.length := by
  fun_induction readString taken bytes <;> simp_all <;> omega

theorem readStringValue_length_lt
    {bytes rest : Bytes} {text : Text}
    (h : readStringValue bytes = .ok (text, rest)) :
    rest.length < bytes.length := by
  unfold readStringValue at h
  split at h
  · simp at h
  · split at h
    · have hlt := readString_length_lt h
      simp only [List.length_cons]
      omega
    · simp at h

def readStrings (first : Bool) (bytes : Bytes) : Except Fault (List Text × Bytes) :=
  match _hnext : nextElement first bytes with
  | .error fault => .error fault
  | .ok (false, rest) => .ok ([], rest.tail)
  | .ok (true, rest) =>
      match _hvalue : readStringValue rest with
      | .error fault => .error fault
      | .ok (text, rest') =>
          match readStrings false rest' with
          | .error fault => .error fault
          | .ok (texts, rest'') => .ok (text :: texts, rest'')
termination_by bytes.length
decreasing_by
  exact Nat.lt_of_lt_of_le (readStringValue_length_lt _hvalue) (nextElement_length_le _hnext)

def readField (bytes : Bytes) : Except Fault (List Text × Bytes) :=
  match skipBlanks bytes with
  | [] => .error (.ahead .valueEnds [])
  | byte :: rest =>
      if byte = 0x5B then readStrings true rest
      else .error (mismatch .sequence (byte :: rest))

/-! ## Settings as an array -/

def closeArray (bytes : Bytes) : Except Fault Bytes :=
  match skipBlanks bytes with
  | [] => .error (.ahead .listEnds [])
  | byte :: rest =>
      if byte = 0x5D then .ok rest
      else if byte = 0x2C then
        match skipBlanks rest with
        | [] => .error (.ahead .trailingCharacters [])
        | byte :: rest =>
            if byte = 0x5D then .error (.ahead .trailingComma (byte :: rest))
            else .error (.ahead .trailingCharacters (byte :: rest))
      else .error (.ahead .trailingCharacters (byte :: rest))

def readFieldElement (first : Bool) (bytes : Bytes) : Except Fault (List Text × Bytes) := do
  match ← nextElement first bytes with
  | (false, rest) => .ok ([], rest)
  | (true, rest) => readField rest

def readArray (bytes : Bytes) : Except Fault (Settings × Bytes) := do
  let (allow, rest) ← readFieldElement true bytes
  let (extensions, rest) ← readFieldElement false rest
  let rest ← closeArray rest
  .ok (⟨allow, extensions⟩, rest)

/-! ## Settings as an object -/

structure Fields where
  allow : Option (List Text)
  extensions : Option (List Text)

def Fields.get? (fields : Fields) : Field → Option (List Text)
  | .allow => fields.allow
  | .extensions => fields.extensions

def Fields.set (fields : Fields) (value : List Text) : Field → Fields
  | .allow => { fields with allow := some value }
  | .extensions => { fields with extensions := some value }

def Fields.settings (fields : Fields) : Settings :=
  ⟨fields.allow.getD [], fields.extensions.getD []⟩

def Fields.missing (fields : Fields) : Nat :=
  (if fields.allow.isNone then 1 else 0) + (if fields.extensions.isNone then 1 else 0)

theorem Fields.missing_set_lt
    {fields : Fields} {field : Field} (value : List Text)
    (h : fields.get? field = none) :
    (fields.set value field).missing < fields.missing := by
  cases field <;> simp_all [Fields.get?, Fields.set, Fields.missing]

/-- Whether an object goes on, and where: the bytes that remain follow the opening
quote of the further key or the closing brace. -/
def nextKey (first : Bool) (bytes : Bytes) : Except Fault (Bool × Bytes) :=
  match skipBlanks bytes with
  | [] => .error (.ahead .objectEnds [])
  | byte :: rest =>
      if byte = 0x7D then .ok (false, rest)
      else if first then
        if byte = 0x22 then .ok (true, rest) else .error (.ahead .keyExpected (byte :: rest))
      else if byte = 0x2C then
        match skipBlanks rest with
        | [] => .error (.ahead .valueEnds [])
        | byte :: rest =>
            if byte = 0x22 then .ok (true, rest)
            else if byte = 0x7D then .error (.ahead .trailingComma (byte :: rest))
            else .error (.ahead .keyExpected (byte :: rest))
      else .error (.ahead .objectCommaOrEndExpected (byte :: rest))

/-- The fault of a key that names no field, or one that was given before. It is
reported behind the white space and the closing brace that follow the key. -/
def keyFault (problem : Problem) (bytes : Bytes) : Fault :=
  match skipBlanks bytes with
  | [] => .here problem []
  | byte :: rest => if byte = 0x7D then .here problem rest else .here problem (byte :: rest)

def readColon (bytes : Bytes) : Except Fault Bytes :=
  match skipBlanks bytes with
  | [] => .error (.ahead .objectEnds [])
  | byte :: rest =>
      if byte = 0x3A then .ok rest else .error (.ahead .colonExpected (byte :: rest))

/-- Reads a member of an object after the opening quote of its key. -/
def readMember (fields : Fields) (bytes : Bytes) : Except Fault (Fields × Bytes) := do
  let (key, rest) ← readString [] bytes
  match Field.ofName? key with
  | none => .error (keyFault (.unknownField key) rest)
  | some field =>
      if (fields.get? field).isSome then .error (keyFault (.duplicateField field) rest)
      else
        let rest ← readColon rest
        let (value, rest) ← readField rest
        .ok (fields.set value field, rest)

theorem readMember_missing_lt
    {fields fields' : Fields} {bytes rest : Bytes}
    (h : readMember fields bytes = .ok (fields', rest)) :
    fields'.missing < fields.missing := by
  unfold readMember at h
  simp only [bind, Except.bind] at h
  repeat' split at h
  all_goals simp_all
  obtain ⟨rfl, _⟩ := h
  exact Fields.missing_set_lt _ (by assumption)

def readMembers
    (first : Bool) (fields : Fields) (bytes : Bytes) : Except Fault (Settings × Bytes) :=
  match nextKey first bytes with
  | .error fault => .error fault
  | .ok (false, rest) => .ok (fields.settings, rest)
  | .ok (true, rest) =>
      match _hmember : readMember fields rest with
      | .error fault => .error fault
      | .ok (fields', rest') => readMembers false fields' rest'
termination_by fields.missing
decreasing_by
  exact readMember_missing_lt _hmember

/-! ## Documents -/

def readSettings (bytes : Bytes) : Except Fault (Settings × Bytes) :=
  match skipBlanks bytes with
  | [] => .error (.ahead .valueEnds [])
  | byte :: rest =>
      if byte = 0x5B then readArray rest
      else if byte = 0x7B then readMembers true ⟨none, none⟩ rest
      else .error (mismatch .settings (byte :: rest))

/-- Reads a whole document: settings with nothing but white space around them. -/
def readDocument (bytes : Bytes) : Except Fault Settings :=
  match readSettings bytes with
  | .error fault => .error fault
  | .ok (settings, rest) =>
      match skipBlanks rest with
      | [] => .ok settings
      | byte :: rest => .error (.ahead .trailingCharacters (byte :: rest))

end DeadExports.Settings
