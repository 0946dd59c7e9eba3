import DeadExports.Proofs.ArrayReading
import DeadExports.Proofs.CommentRemoval
import DeadExports.Settings.File

/-!
# Reading documents

The members of an object are read one after the other into the fields given so far. That
every key is known and none comes twice is a property of the whole object; the reader tests
it at each member, against the fields that are still missing.

Together with the readers of arrays and literals this gives the reader of documents, which
succeeds exactly on the texts of the grammar, and the reader of settings files, which
applies it to what is left after comments were removed.
-/

namespace DeadExports.Settings

/-! ## Objects -/

theorem nextKey_eq_false_iff {first : Bool} {text : Text} {rest : Bytes} :
    nextKey first (Text.encode text) = .ok (false, rest) ↔
      ∃ more, Begins [.mark .closeBrace] text more ∧ rest = Text.encode more := by
  rw [← skipBlanks_encode_eq_cons_iff, nextKey]
  constructor
  · intro h
    split at h
    next => cases h
    next byte bytes hbytes =>
      split at h
      next hbyte =>
        obtain ⟨rfl⟩ := h
        rw [hbytes, hbyte]
        rfl
      next =>
        repeat' split at h
        all_goals cases h
  · intro h
    rw [h]
    rfl

/-- An object goes on exactly when a literal begins after the separator. -/
theorem nextKey_eq_true_iff {first : Bool} {text : Text} {rest : Bytes} :
    nextKey first (Text.encode text) = .ok (true, rest) ↔
      ∃ more after : Text, Begins (separator first) text more ∧
        more.dropWhile isWhite = '"' :: after ∧ rest = Text.encode after := by
  rw [nextKey]
  constructor
  · intro h
    split at h
    next => cases h
    next byte bytes hbytes =>
      split at h
      next => cases h
      next =>
        split at h
        next hfirst =>
          split at h
          next hbyte =>
            obtain ⟨rfl⟩ := h
            rw [hbyte, skipBlanks_encode] at hbytes
            obtain ⟨after, hafter, rfl⟩ :=
              (Text.encode_eq_cons_iff (c := '"') (by decide)).mp hbytes
            exact ⟨text, after, by simp [separator, hfirst, begins_nil], hafter, rfl⟩
          next => cases h
        next hfirst =>
          split at h
          next hcomma =>
            rw [hcomma] at hbytes
            obtain ⟨more, hmore, rfl⟩ := (skipBlanks_encode_eq_cons_iff .comma).mp hbytes
            split at h
            next => cases h
            next byte bytes hbytes =>
              split at h
              next hbyte =>
                obtain ⟨rfl⟩ := h
                rw [hbyte, skipBlanks_encode] at hbytes
                obtain ⟨after, hafter, rfl⟩ :=
                  (Text.encode_eq_cons_iff (c := '"') (by decide)).mp hbytes
                exact ⟨more, after, by simpa [separator, hfirst] using hmore, hafter, rfl⟩
              next =>
                split at h
                all_goals cases h
          next => cases h
  · rintro ⟨more, after, hmore, hafter, rfl⟩
    have hbytes : skipBlanks (Text.encode more) = 0x22 :: Text.encode after := by
      rw [skipBlanks_encode, hafter, Text.encode_cons_of_lt (by decide)]
      rfl
    cases first with
    | true =>
        obtain rfl : text = more := hmore
        rw [hbytes]
        rfl
    | false =>
        rw [(skipBlanks_encode_eq_cons_iff _).mpr ⟨more, hmore, rfl⟩]
        dsimp only
        rw [if_neg (by decide), if_neg (by decide), if_pos (by decide), hbytes]
        rfl

theorem readColon_encode_eq_ok_iff {text : Text} {rest : Bytes} :
    readColon (Text.encode text) = .ok rest ↔
      ∃ more, Begins [.mark .colon] text more ∧ rest = Text.encode more := by
  rw [← skipBlanks_encode_eq_cons_iff, readColon]
  constructor
  · intro h
    split at h
    next => cases h
    next byte bytes hbytes =>
      split at h
      next hbyte =>
        rw [hbytes, hbyte, Except.ok.inj h]
        rfl
      next => cases h
  · intro h
    rw [h]
    rfl

/-- The fields of an object after a further member; none if its key is unknown or was given
before. -/
def Fields.add? (fields : Fields) (member : Member) : Option Fields :=
  match Field.ofName? member.key.value with
  | none => none
  | some field =>
      if (fields.get? field).isSome then none
      else some (fields.set (member.values.map Literal.value) field)

theorem readMember_encode_eq_ok_iff
    {fields fields' : Fields} {text : Text} {rest : Bytes} :
    readMember fields (Text.encode text) = .ok (fields', rest) ↔
      ∃ (member : Member) (more : Text), Begins member.tokens ('"' :: text) more ∧
        fields.add? member = some fields' ∧ rest = Text.encode more := by
  have hquote : ('"' :: text).dropWhile isWhite = '"' :: text := rfl
  simp only [readMember, bind, Except.bind]
  constructor
  · intro h
    split at h
    next => cases h
    next key hkey =>
      obtain ⟨key, more, hmore, hvalue, hrest⟩ := readString_nil_encode_eq_ok_iff.mp hkey
      rw [hvalue] at h
      split at h
      next => cases h
      next field hfield =>
        split at h
        next => cases h
        next hmissing =>
          rw [hrest] at h
          split at h
          next => cases h
          next hcolon =>
            obtain ⟨more', hmore', rfl⟩ := readColon_encode_eq_ok_iff.mp hcolon
            split at h
            next => cases h
            next values hvalues =>
              obtain ⟨literals, more'', hliterals, hvalues, hrest⟩ :=
                readField_encode_eq_ok_iff.mp hvalues
              obtain ⟨rfl⟩ := h
              refine ⟨⟨key, literals⟩, more'', ?_, ?_, hrest⟩
              · refine begins_cons.mpr ⟨more, hquote.trans hmore, ?_⟩
                exact begins_cons_iff_singleton.mpr ⟨more', hmore', hliterals⟩
              · simp [Fields.add?, hfield, hmissing, hvalues]
  · rintro ⟨⟨key, literals⟩, more, hbegins, hadd, rfl⟩
    obtain ⟨more', hkey, htokens⟩ := begins_cons.mp hbegins
    obtain ⟨more'', hcolon, hliterals⟩ := begins_cons_iff_singleton.mp htokens
    rw [readString_nil_encode_eq_ok_iff.mpr ⟨key, more', hquote.symm.trans hkey, rfl, rfl⟩]
    dsimp only
    rw [readColon_encode_eq_ok_iff.mpr ⟨more'', hcolon, rfl⟩]
    dsimp only
    rw [readField_encode_eq_ok_iff.mpr ⟨literals, more, hliterals, rfl, rfl⟩]
    cases hfield : Field.ofName? key.value with
    | none =>
      simp only [Fields.add?, hfield] at hadd
      cases hadd
    | some field =>
      simp only [Fields.add?, hfield] at hadd
      by_cases hgiven : (fields.get? field).isSome
      · rw [if_pos hgiven] at hadd
        cases hadd
      · rw [if_neg hgiven] at hadd
        cases hadd
        exact if_neg hgiven

def Fields.addAll? (fields : Fields) (members : List Member) : Option Fields :=
  members.foldlM Fields.add? fields

theorem readMembers_of_member
    {first : Bool} {fields fields' : Fields} {bytes rest rest' : Bytes}
    (h : nextKey first bytes = .ok (true, rest))
    (hmember : readMember fields rest = .ok (fields', rest')) :
    readMembers first fields bytes = readMembers false fields' rest' := by
  rw [readMembers, h]
  dsimp only
  split
  next hmember' => simp [hmember] at hmember'
  next hmember' =>
    rw [hmember] at hmember'
    obtain ⟨rfl⟩ := hmember'
    rfl

theorem readMembers_encode_eq_ok_iff
    {first : Bool} {fields : Fields} {text : Text} {settings : Settings} {rest : Bytes} :
    readMembers first fields (Text.encode text) = .ok (settings, rest) ↔
      ∃ (members : List Member) (more : Text) (fields' : Fields),
        Begins (separated first (members.map Member.tokens) ++ [.mark .closeBrace]) text more ∧
        fields.addAll? members = some fields' ∧ settings = fields'.settings ∧
        rest = Text.encode more := by
  constructor
  · intro h
    generalize hbytes : Text.encode text = bytes at h
    fun_induction readMembers first fields bytes generalizing text with
    | case1 => cases h
    | case2 first fields bytes after hnext =>
        rw [← hbytes] at hnext
        obtain ⟨more, hmore, rfl⟩ := nextKey_eq_false_iff.mp hnext
        obtain ⟨rfl⟩ := h
        exact ⟨[], more, fields, hmore, rfl, rfl, rfl⟩
    | case3 => cases h
    | case4 first fields bytes after hnext fields' after' hmember ih =>
        rw [← hbytes] at hnext
        obtain ⟨more, after, hmore, hafter, rfl⟩ := nextKey_eq_true_iff.mp hnext
        obtain ⟨member, more', htokens, hadd, rfl⟩ := readMember_encode_eq_ok_iff.mp hmember
        obtain ⟨members, more'', fields'', hmembers, haddAll, rfl, rfl⟩ := ih rfl h
        refine ⟨member :: members, more'', fields'', ?_, ?_, rfl, rfl⟩
        · rw [List.map_cons, separated, List.append_assoc, List.append_assoc, begins_append]
          refine ⟨more, hmore, begins_append.mpr ⟨more', ?_, hmembers⟩⟩
          rw [← hafter] at htokens
          exact begins_dropWhile.mp htokens
        · simp only [Fields.addAll?, List.foldlM_cons, hadd]
          exact haddAll
  · rintro ⟨members, more, fields', hbegins, hadd, rfl, rfl⟩
    induction members generalizing first fields text with
    | nil =>
        have hnext : nextKey first (Text.encode text) = _ :=
          nextKey_eq_false_iff.mpr ⟨more, hbegins, rfl⟩
        obtain ⟨rfl⟩ := hadd
        rw [readMembers, hnext]
    | cons member members ih =>
        rw [List.map_cons, separated, List.append_assoc, List.append_assoc,
          begins_append] at hbegins
        obtain ⟨after, hseparator, hbegins⟩ := hbegins
        obtain ⟨more', htokens, hmembers⟩ := begins_append.mp hbegins
        obtain ⟨_, hkey, -⟩ := begins_cons.mp htokens
        have hnext := nextKey_eq_true_iff.mpr ⟨after, _, hseparator, hkey, rfl⟩
        obtain ⟨fields'', hmember, hmembers'⟩ := Option.bind_eq_some_iff.mp hadd
        have hread := readMember_encode_eq_ok_iff.mpr
          ⟨member, more', hkey ▸ begins_dropWhile.mpr htokens, hmember, rfl⟩
        rw [readMembers_of_member hnext hread]
        exact ih hmembers hmembers'

/-! ## The fields of an object -/

theorem Field.ofName?_eq_some_iff {name : Text} {field : Field} :
    Field.ofName? name = some field ↔ name = field.name := by
  constructor
  · intro h
    rw [Field.ofName?] at h
    split at h
    next hname =>
      obtain ⟨rfl⟩ := h
      exact hname
    next =>
      split at h
      next hname =>
        obtain ⟨rfl⟩ := h
        exact hname
      next => cases h
  · rintro rfl
    cases field <;> rfl

theorem Field.name_injective : Function.Injective Field.name := by
  intro field other h
  have hother := Field.ofName?_eq_some_iff.mpr h
  rw [Field.ofName?_eq_some_iff.mpr rfl] at hother
  exact Option.some.inj hother

theorem Fields.get?_set (fields : Fields) (values : List Text) (field other : Field) :
    (fields.set values field).get? other =
      if other = field then some values else fields.get? other := by
  cases field <;> cases other <;> rfl

theorem Fields.ext_get? {fields fields' : Fields}
    (h : ∀ field, fields.get? field = fields'.get? field) : fields = fields' := by
  obtain ⟨allow, extensions⟩ := fields
  obtain ⟨allow', extensions'⟩ := fields'
  obtain rfl : allow = allow' := h .allow
  obtain rfl : extensions = extensions' := h .extensions
  rfl

theorem Fields.add?_eq_some_iff {fields fields' : Fields} {member : Member} :
    fields.add? member = some fields' ↔ ∃ field : Field, member.key.value = field.name ∧
      fields.get? field = none ∧ fields' = fields.set (member.values.map Literal.value) field := by
  rw [Fields.add?]
  constructor
  · intro h
    split at h
    next => cases h
    next field hfield =>
      split at h
      next => cases h
      next hmissing =>
        obtain ⟨rfl⟩ := h
        exact ⟨field, Field.ofName?_eq_some_iff.mp hfield,
          Option.not_isSome_iff_eq_none.mp hmissing, rfl⟩
  · rintro ⟨field, hkey, hmissing, rfl⟩
    simp [Field.ofName?_eq_some_iff.mpr hkey, hmissing]

/-- What some members give for a field. -/
def given? (members : List Member) (field : Field) : Option (List Text) :=
  (members.find? (·.key.value = field.name)).map fun member => member.values.map Literal.value

theorem given?_cons (member : Member) (members : List Member) (field : Field) :
    given? (member :: members) field =
      if member.key.value = field.name then some (member.values.map Literal.value)
      else given? members field := by
  rw [given?, List.find?_cons]
  split
  next h => rw [if_pos (of_decide_eq_true h)]; rfl
  next h => rw [if_neg (of_decide_eq_false h)]; rfl

theorem given?_eq_none {members : List Member} {field : Field}
    (h : field.name ∉ members.map (·.key.value)) : given? members field = none := by
  rw [given?, List.find?_eq_none.mpr, Option.map_none]
  intro member hmember hkey
  exact h (List.mem_map.mpr ⟨member, hmember, of_decide_eq_true hkey⟩)

/-- Members can be added exactly when every key names a field that is missing and no key
comes twice. -/
theorem Fields.addAll?_eq_some_iff {fields fields' : Fields} {members : List Member} :
    fields.addAll? members = some fields' ↔
      (∀ member ∈ members, ∃ field : Field, member.key.value = field.name ∧
        fields.get? field = none) ∧
      (members.map (·.key.value)).Nodup ∧
      ∀ field, fields'.get? field = (given? members field).or (fields.get? field) := by
  induction members generalizing fields with
  | nil =>
      constructor
      · rintro ⟨rfl⟩
        exact ⟨by simp, by simp, fun field => rfl⟩
      · rintro ⟨-, -, hget⟩
        exact congrArg some (Fields.ext_get? hget).symm
  | cons member members ih =>
      have hcons : fields.addAll? (member :: members) = some fields' ↔
          ∃ field : Field, member.key.value = field.name ∧ fields.get? field = none ∧
            (fields.set (member.values.map Literal.value) field).addAll? members =
              some fields' := by
        simp only [addAll?, List.foldlM_cons, Option.bind_eq_bind, Option.bind_eq_some_iff,
          add?_eq_some_iff]
        constructor
        · rintro ⟨_, ⟨field, hkey, hmissing, rfl⟩, hmembers⟩
          exact ⟨field, hkey, hmissing, hmembers⟩
        · rintro ⟨field, hkey, hmissing, hmembers⟩
          exact ⟨_, ⟨field, hkey, hmissing, rfl⟩, hmembers⟩
      rw [hcons, List.map_cons, List.nodup_cons]
      constructor
      · rintro ⟨field, hkey, hmissing, hmembers⟩
        obtain ⟨hkeys, hnodup, hget⟩ := ih.mp hmembers
        have hother : ∀ other ∈ members, ∃ field' : Field, other.key.value = field'.name ∧
            field' ≠ field ∧ fields.get? field' = none := by
          intro other hmem
          obtain ⟨field', hkey', hmissing'⟩ := hkeys other hmem
          rw [get?_set] at hmissing'
          split at hmissing'
          next => cases hmissing'
          next hne => exact ⟨field', hkey', hne, hmissing'⟩
        have hfresh : field.name ∉ members.map (·.key.value) := by
          intro hmem
          obtain ⟨other, hmem, hname⟩ := List.mem_map.mp hmem
          obtain ⟨field', hkey', hne, -⟩ := hother other hmem
          exact hne (Field.name_injective (hkey'.symm.trans hname))
        refine ⟨?_, ⟨hkey ▸ hfresh, hnodup⟩, fun field' => ?_⟩
        · intro other hmem
          rcases List.mem_cons.mp hmem with rfl | hmem
          · exact ⟨field, hkey, hmissing⟩
          · obtain ⟨field', hkey', -, hmissing'⟩ := hother other hmem
            exact ⟨field', hkey', hmissing'⟩
        · rw [hget, get?_set, given?_cons, hkey]
          by_cases hfield : field' = field
          · rw [hfield, given?_eq_none hfresh, if_pos rfl, if_pos rfl]
            rfl
          · rw [if_neg hfield, if_neg fun hname => hfield (Field.name_injective hname).symm]
      · rintro ⟨hkeys, ⟨hfresh, hnodup⟩, hget⟩
        obtain ⟨field, hkey, hmissing⟩ := hkeys member List.mem_cons_self
        rw [hkey] at hfresh
        refine ⟨field, hkey, hmissing, ih.mpr ⟨fun other hmem => ?_, hnodup, fun field' => ?_⟩⟩
        · obtain ⟨field', hkey', hmissing'⟩ := hkeys other (List.mem_cons_of_mem _ hmem)
          refine ⟨field', hkey', ?_⟩
          rw [get?_set, if_neg, hmissing']
          rintro rfl
          exact hfresh (List.mem_map.mpr ⟨other, hmem, hkey'⟩)
        · rw [hget, get?_set, given?_cons, hkey]
          by_cases hfield : field' = field
          · rw [hfield, given?_eq_none hfresh, if_pos rfl, if_pos rfl]
            rfl
          · rw [if_neg hfield, if_neg fun hname => hfield (Field.name_injective hname).symm]

theorem exists_addAll?_iff {members : List Member} {settings : Settings} :
    (∃ fields, Fields.addAll? ⟨none, none⟩ members = some fields ∧ settings = fields.settings) ↔
      (Document.object members).Denotes settings := by
  have hvalues (field : Field) :
      (given? members field).getD [] = Document.valuesOf members field.name := by
    rw [given?, Document.valuesOf]
    split
    next h => rw [h]; rfl
    next h => rw [h]; rfl
  have hname (name : Text) : (∃ field : Field, name = field.name ∧
      Fields.get? ⟨none, none⟩ field = none) ↔
        name = "allow".toList ∨ name = "extensions".toList := by
    constructor
    · rintro ⟨field, rfl, -⟩
      cases field
      · exact .inl rfl
      · exact .inr rfl
    · rintro (rfl | rfl)
      · exact ⟨.allow, rfl, rfl⟩
      · exact ⟨.extensions, rfl, rfl⟩
  simp only [Fields.addAll?_eq_some_iff, hname, Document.Denotes]
  constructor
  · rintro ⟨fields, ⟨hkeys, hnodup, hget⟩, rfl⟩
    have hallow : fields.allow = given? members .allow := (hget .allow).trans (Option.or_none ..)
    have hextensions : fields.extensions = given? members .extensions :=
      (hget .extensions).trans (Option.or_none ..)
    refine ⟨hkeys, hnodup, ?_⟩
    rw [Fields.settings, hallow, hextensions, hvalues, hvalues]
    rfl
  · rintro ⟨hkeys, hnodup, rfl⟩
    refine ⟨⟨given? members .allow, given? members .extensions⟩,
      ⟨hkeys, hnodup, fun field => ?_⟩, ?_⟩
    · cases field
      · exact (Option.or_none ..).symm
      · exact (Option.or_none ..).symm
    · rw [Fields.settings, hvalues, hvalues]
      rfl

/-! ## Documents -/

theorem readSettings_encode_eq_ok_iff {text : Text} {settings : Settings} {rest : Bytes} :
    readSettings (Text.encode text) = .ok (settings, rest) ↔
      ∃ (document : Document) (more : Text),
        Begins document.tokens text more ∧ document.Denotes settings ∧ rest = Text.encode more := by
  rw [readSettings]
  constructor
  · intro h
    split at h
    next => cases h
    next byte bytes hbytes =>
      split at h
      next hbyte =>
        rw [hbyte] at hbytes
        obtain ⟨more, hmore, rfl⟩ := (skipBlanks_encode_eq_cons_iff .openBracket).mp hbytes
        obtain ⟨fields, more', hfields, hdenotes, rfl⟩ := readArray_encode_eq_ok_iff.mp h
        refine ⟨.array fields, more', ?_, hdenotes, rfl⟩
        rw [Document.tokens, bracketed, ← separated_true]
        exact begins_cons_iff_singleton.mpr ⟨more, hmore, hfields⟩
      next =>
        split at h
        next hbyte =>
          rw [hbyte] at hbytes
          obtain ⟨more, hmore, rfl⟩ := (skipBlanks_encode_eq_cons_iff .openBrace).mp hbytes
          obtain ⟨members, more', fields, hmembers, hfields, hsettings, rfl⟩ :=
            readMembers_encode_eq_ok_iff.mp h
          refine ⟨.object members, more', ?_,
            exists_addAll?_iff.mp ⟨fields, hfields, hsettings⟩, rfl⟩
          rw [Document.tokens, ← separated_true]
          exact begins_cons_iff_singleton.mpr ⟨more, hmore, hmembers⟩
        next => cases h
  · rintro ⟨document, more', hbegins, hdenotes, rfl⟩
    cases document with
    | array fields =>
        rw [Document.tokens, bracketed, ← separated_true] at hbegins
        obtain ⟨more, hmore, hfields⟩ := begins_cons_iff_singleton.mp hbegins
        rw [(skipBlanks_encode_eq_cons_iff _).mpr ⟨more, hmore, rfl⟩]
        exact readArray_encode_eq_ok_iff.mpr ⟨fields, more', hfields, hdenotes, rfl⟩
    | object members =>
        rw [Document.tokens, ← separated_true] at hbegins
        obtain ⟨more, hmore, hmembers⟩ := begins_cons_iff_singleton.mp hbegins
        obtain ⟨fields, hfields, hsettings⟩ := exists_addAll?_iff.mpr hdenotes
        rw [(skipBlanks_encode_eq_cons_iff _).mpr ⟨more, hmore, rfl⟩]
        exact readMembers_encode_eq_ok_iff.mpr
          ⟨members, more', fields, hmembers, hfields, hsettings, rfl⟩

/-- Reading a text succeeds exactly when it is a settings document, and gives the settings
that the document denotes. -/
theorem readDocument_encode_eq_ok_iff {text : Text} {settings : Settings} :
    readDocument (Text.encode text) = .ok settings ↔
      ∃ document : Document, Spells document.tokens text ∧ document.Denotes settings := by
  have hended (more : Text) :
      skipBlanks (Text.encode more) = [] ↔ ∀ c ∈ more, isWhite c = true := by
    rw [skipBlanks_encode, Text.encode_eq_nil_iff, List.dropWhile_eq_nil_iff]
  rw [readDocument]
  constructor
  · intro h
    split at h
    next => cases h
    next hsettings =>
      obtain ⟨document, more, hbegins, hdenotes, rfl⟩ := readSettings_encode_eq_ok_iff.mp hsettings
      split at h
      next hnil =>
        obtain ⟨rfl⟩ := h
        exact ⟨document, ⟨more, hbegins, (hended more).mp hnil⟩, hdenotes⟩
      next => cases h
  · rintro ⟨document, ⟨more, hbegins, hwhite⟩, hdenotes⟩
    rw [readSettings_encode_eq_ok_iff.mpr ⟨document, more, hbegins, hdenotes, rfl⟩]
    dsimp only
    rw [(hended more).mpr hwhite]

/-! ## Settings files -/

/-- Reading a settings file in UTF-8 is reading its text without comments. -/
theorem ofFile_of_read
    {fs : FileSystem} {path : Path} {source text : Text}
    (hread : fs.read path = .ok (Text.encode source))
    (htext : stripComments (Text.encode source) = Text.encode text) :
    ofFile fs path = (readDocument (Text.encode text)).mapError fun fault =>
      .invalid path fault.problem (fault.position (Text.encode text)) := by
  rw [ofFile, hread]
  dsimp only
  rw [if_pos (Text.isValid_encode source), ofContent, htext]
  cases readDocument (Text.encode text) <;> rfl

theorem ofFile_of_read_eq_ok_iff
    {fs : FileSystem} {path : Path} {source text : Text}
    (hread : fs.read path = .ok (Text.encode source))
    (htext : stripComments (Text.encode source) = Text.encode text) {settings : Settings} :
    ofFile fs path = .ok settings ↔
      ∃ document : Document, Spells document.tokens text ∧ document.Denotes settings := by
  rw [← readDocument_encode_eq_ok_iff, ofFile_of_read hread htext]
  cases readDocument (Text.encode text) <;> simp [Except.mapError]

theorem exists_ofFile_eq_error
    {fs : FileSystem} {path : Path} {source text : Text}
    (hread : fs.read path = .ok (Text.encode source))
    (htext : stripComments (Text.encode source) = Text.encode text)
    (hnone : ¬∃ (document : Document) (settings : Settings),
      Spells document.tokens text ∧ document.Denotes settings) :
    ∃ problem position, ofFile fs path = .error (.invalid path problem position) := by
  rw [ofFile_of_read hread htext]
  cases hdocument : readDocument (Text.encode text) with
  | ok settings =>
      obtain ⟨document, hdenotes⟩ := readDocument_encode_eq_ok_iff.mp hdocument
      exact absurd ⟨document, settings, hdenotes⟩ hnone
  | error fault => exact ⟨_, _, rfl⟩

/-- A settings file in UTF-8 is accepted exactly when its text without comments is a
settings document, and then gives the settings that the document denotes. Any other text is
reported as invalid. -/
theorem ofFile_eq_ok_iff
    {fs : FileSystem} {path : Path} {source : Text}
    (hread : fs.read path = .ok (Text.encode source)) :
    ∃ text : Text, stripComments (Text.encode source) = Text.encode text ∧
      (∀ settings, ofFile fs path = .ok settings ↔
        ∃ document : Document, Spells document.tokens text ∧ document.Denotes settings) ∧
      ((¬∃ (document : Document) (settings : Settings),
          Spells document.tokens text ∧ document.Denotes settings) →
        ∃ problem position, ofFile fs path = .error (.invalid path problem position)) := by
  obtain ⟨text, htext⟩ := exists_stripComments_encode source
  refine ⟨text, htext, fun settings => ?_, fun hnone => ?_⟩
  · exact ofFile_of_read_eq_ok_iff hread htext
  · exact exists_ofFile_eq_error hread htext hnone

/-- A tree with nothing but the settings file `s`. -/
def settingsTree (source : Text) : FileSystem where
  top := .cons (Bytes.ofString "s") (.file (.ok (Text.encode source))) .nil
  current := []
  wellFormed := ⟨by decide, trivial, trivial, trivial⟩

/-- An object with one member. Its key `allow` is spelled with a code, and its value is a
character beyond the basic plane, spelled with a pair of codes. -/
def codedDocument : Document :=
  .object
    [{ key :=
        ⟨[.plain 'a' (by decide), .plain 'l' (by decide),
          .coded ⟨.decimal 0, .decimal 0, .decimal 6, .upper 2⟩ (by decide) (by decide),
          .plain 'o' (by decide), .plain 'w' (by decide)]⟩
       values :=
        [⟨[.paired ⟨.lower 3, .decimal 8, .decimal 3, .lower 3⟩
          ⟨.lower 3, .lower 4, .decimal 0, .decimal 0⟩ (by decide) (by decide)]⟩] }]

def codedSource : Text :=
  "\x7b\"al\\u006Cow\": [\"\\ud83d\\ude00\"]\x7d // aside".toList

/-- Keys are compared and values returned as they are meant, not as they are spelled. -/
theorem ofFile_codedSource :
    (settingsTree codedSource).read (Bytes.ofString "s") = .ok (Text.encode codedSource) ∧
      ofFile (settingsTree codedSource) (Bytes.ofString "s") = .ok ⟨["😀".toList], []⟩ := by
  have hread : (settingsTree codedSource).read (Bytes.ofString "s") =
      .ok (Text.encode codedSource) := rfl
  obtain ⟨text, htext, hok, -⟩ := ofFile_eq_ok_iff hread
  have hstripped : stripComments (Text.encode codedSource) =
      Text.encode "\x7b\"al\\u006Cow\": [\"\\ud83d\\ude00\"]\x7d ".toList := by decide +kernel
  obtain rfl := Text.encode_injective (htext.symm.trans hstripped)
  exact ⟨hread, (hok _).mpr ⟨codedDocument, by decide +kernel, by decide +kernel⟩⟩

end DeadExports.Settings
