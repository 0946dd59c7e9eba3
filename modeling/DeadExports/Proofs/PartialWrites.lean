import DeadExports.Report
import Mathlib.Data.List.TakeDrop

/-!
# Writing to a sink that runs full

`Writer.writeAll` offers a sink one fragment after the other, and of each is taken what fits. What
an output is written to may take less at a time: a call takes some of the bytes that it is offered,
the rest is offered again, and only a call that finds no room fails. `Sink.Takes` describes the
calls for one fragment and `Sink.Delivers` those for an output, and both leave open how much a call
takes.

None of this can be seen afterwards. A sink that has taken a part stands where it would stand
had the part been a fragment of its own, so parts can be put together again, and fragments too.
What is kept and how the writing ends depends on the bytes of the output alone. The reports and
summaries of a check are therefore cut off at the room of the sink, wherever that falls, and
the sink is flushed only when nothing had to be cut off.

Neither can a buffer in front of the sink. What a buffer has passed on and what it holds back are
together what it was given (`BufferedSink.Carries`), and at the end of an output the sink has taken
what it would have taken without the buffer.
-/

namespace DeadExports

open Writer

namespace Sink

/-! ## Parts of a fragment -/

section Parts

variable {sink : Sink} {part : Bytes}

theorem fitting_le_length (sink : Sink) (bytes : Bytes) : sink.fitting bytes ≤ bytes.length := by
  rw [fitting]
  split
  · exact Nat.le_refl _
  · exact Nat.min_le_right _ _

@[simp]
theorem take_nil (sink : Sink) : sink.take [] = sink := by
  obtain ⟨_ | room, flushFails, written⟩ := sink <;> simp [take, fitting]

/-- After a part that fits there is room for as much of the rest as there was for both. -/
theorem fitting_append (h : sink.fitting part = part.length) (rest : Bytes) :
    sink.fitting (part ++ rest) = part.length + (sink.take part).fitting rest := by
  obtain ⟨_ | room, flushFails, written⟩ := sink
  · simp [fitting, take]
  · simp only [fitting, take, Option.map_some, List.length_append] at h ⊢
    omega

theorem take_append (h : sink.fitting part = part.length) (rest : Bytes) :
    sink.take (part ++ rest) = (sink.take part).take rest := by
  have hroom : sink.room.map (· - sink.fitting (part ++ rest)) =
      (sink.take part).room.map (· - (sink.take part).fitting rest) := by
    rw [fitting_append h, take, h, Option.map_map]
    congr 1
    funext room
    exact (Nat.sub_sub _ _ _).symm
  have hwritten : sink.written ++ (part ++ rest).take (sink.fitting (part ++ rest)) =
      (sink.take part).written ++ rest.take ((sink.take part).fitting rest) := by
    rw [fitting_append h, List.take_length_add_append, ← List.append_assoc]
    congr 1
    rw [take, h, List.take_length]
  rw [take, hroom, hwritten]
  rfl

/-- What follows a part that does not fit makes no difference. -/
theorem fitting_append_of_lt (h : sink.fitting part < part.length) (rest : Bytes) :
    sink.fitting (part ++ rest) = sink.fitting part := by
  obtain ⟨_ | room, flushFails, written⟩ := sink
  · simp [fitting] at h
  · simp only [fitting, List.length_append] at h ⊢
    omega

theorem take_append_of_lt (h : sink.fitting part < part.length) (rest : Bytes) :
    sink.take (part ++ rest) = sink.take part := by
  rw [take, take, fitting_append_of_lt h, List.take_append_of_le_length (Nat.le_of_lt h)]

theorem room_take_of_lt (h : sink.fitting part < part.length) :
    (sink.take part).room = some 0 := by
  obtain ⟨_ | room, flushFails, written⟩ := sink
  · simp [fitting] at h
  · simp only [fitting, take, Option.map_some, Option.some.injEq] at h ⊢
    omega

end Parts

/-! ## Fragments of an output -/

theorem writeAll_cons (sink : Sink) (fragment : Bytes) (fragments : List Bytes) :
    writeAll sink (fragment :: fragments) =
      if sink.fitting fragment < fragment.length then (sink.take fragment, some .full)
      else writeAll (sink.take fragment) fragments := by
  have hput : Writer.put sink fragment =
      (sink.take fragment, if sink.fitting fragment < fragment.length then some .full else none) :=
    rfl
  rw [writeAll, hput]
  by_cases hlt : sink.fitting fragment < fragment.length
  · simp only [if_pos hlt]
  · simp only [if_neg hlt]

/-- An output is written as if it were a single fragment. -/
theorem writeAll_eq (sink : Sink) (fragments : List Bytes) :
    writeAll sink fragments =
      (sink.take fragments.flatten,
        if sink.fitting fragments.flatten < fragments.flatten.length then some .full
        else sink.flush) := by
  induction fragments generalizing sink with
  | nil =>
      rw [List.flatten_nil, take_nil, if_neg (by simp)]
      rfl
  | cons fragment fragments ih =>
      rw [writeAll_cons, List.flatten_cons]
      by_cases hlt : sink.fitting fragment < fragment.length
      · rw [if_pos hlt, take_append_of_lt hlt, fitting_append_of_lt hlt, List.length_append,
          if_pos (Nat.lt_add_right _ hlt)]
      · have hfits : sink.fitting fragment = fragment.length :=
          Nat.le_antisymm (fitting_le_length _ _) (Nat.not_lt.mp hlt)
        rw [if_neg hlt, ih, take_append hfits, fitting_append hfits, List.length_append]
        simp only [Nat.add_lt_add_iff_left]
        rfl

theorem writeAll_of_room_eq_none
    {sink : Sink} (h : sink.room = none) (fragments : List Bytes) :
    writeAll sink fragments =
      ({ sink with written := sink.written ++ fragments.flatten }, sink.flush) := by
  have hfits : sink.fitting fragments.flatten = fragments.flatten.length := by
    rw [fitting, h]
  rw [writeAll_eq, if_neg (by omega), take, hfits, List.take_length, h]
  rfl

/-! ## Calls -/

/-- What becomes of a fragment that is offered until nothing is left of it. A call takes at
least one byte, and as many more of those that fit as it pleases. A call that finds no room
fails. -/
inductive Takes : Sink → Bytes → Sink × Option SinkError → Prop where
  | nothing (sink : Sink) : Takes sink [] (sink, none)
  | call {sink : Sink} {part rest : Bytes} {outcome : Sink × Option SinkError} :
      part ≠ [] → sink.fitting part = part.length → Takes (sink.take part) rest outcome →
        Takes sink (part ++ rest) outcome
  | refused {sink : Sink} {bytes : Bytes} :
      bytes ≠ [] → sink.room = some 0 → Takes sink bytes (sink, some .full)

/-- What becomes of an output. Its fragments are offered one after the other until one is
refused, and the sink is flushed if none is. -/
inductive Delivers : Sink → List Bytes → Sink × Option SinkError → Prop where
  | flushed (sink : Sink) : Delivers sink [] (sink, sink.flush)
  | taken {sink next : Sink} {fragment : Bytes} {fragments : List Bytes}
      {outcome : Sink × Option SinkError} :
      Takes sink fragment (next, none) → Delivers next fragments outcome →
        Delivers sink (fragment :: fragments) outcome
  | failed {sink next : Sink} {fragment : Bytes} {fragments : List Bytes} {error : SinkError} :
      Takes sink fragment (next, some error) →
        Delivers sink (fragment :: fragments) (next, some error)

theorem fitting_of_room_eq_zero {sink : Sink} (h : sink.room = some 0) (bytes : Bytes) :
    sink.fitting bytes = 0 := by
  rw [fitting, h]
  exact Nat.zero_min _

theorem take_of_room_eq_zero {sink : Sink} (h : sink.room = some 0) (bytes : Bytes) :
    sink.take bytes = sink := by
  obtain ⟨room, flushFails, written⟩ := sink
  obtain rfl : room = some 0 := h
  simp [take, fitting]

theorem Takes.eq
    {sink : Sink} {bytes : Bytes} {outcome : Sink × Option SinkError}
    (h : Takes sink bytes outcome) :
    outcome =
      (sink.take bytes, if sink.fitting bytes < bytes.length then some .full else none) := by
  induction h with
  | nothing sink => simp
  | call _ hfits _ ih =>
      rw [ih, take_append hfits, fitting_append hfits, List.length_append]
      simp only [Nat.add_lt_add_iff_left]
  | refused hne hroom =>
      rw [take_of_room_eq_zero hroom, fitting_of_room_eq_zero hroom,
        if_pos (List.length_pos_iff.mpr hne)]

theorem Takes.append
    {sink : Sink} {part rest : Bytes} {outcome : Sink × Option SinkError}
    (hfits : sink.fitting part = part.length) (h : Takes (sink.take part) rest outcome) :
    Takes sink (part ++ rest) outcome := by
  by_cases hne : part = []
  · subst hne
    rwa [take_nil] at h
  · exact .call hne hfits h

/-- A fragment can be taken by one call for what fits and one more for the rest. -/
theorem takes_take (sink : Sink) (bytes : Bytes) :
    Takes sink bytes
      (sink.take bytes, if sink.fitting bytes < bytes.length then some .full else none) := by
  by_cases hlt : sink.fitting bytes < bytes.length
  · obtain ⟨room, hroom⟩ : ∃ room, sink.room = some room := by
      cases hroom : sink.room with
      | none => simp [fitting, hroom] at hlt
      | some room => exact ⟨room, rfl⟩
    have hshort : room < bytes.length := by
      rw [fitting, hroom] at hlt
      exact Nat.lt_of_not_le fun hle => absurd hlt (by simp [Nat.min_eq_right hle])
    have hlength : (bytes.take room).length = room := by
      rw [List.length_take, Nat.min_eq_left (Nat.le_of_lt hshort)]
    have hfits : sink.fitting (bytes.take room) = (bytes.take room).length := by
      simp only [fitting, hroom, hlength, Nat.min_self]
    have hfull : (sink.take (bytes.take room)).room = some 0 := by
      simp only [take, hroom, hfits, hlength, Option.map_some, Nat.sub_self]
    have hne : bytes.drop room ≠ [] := by
      rw [← List.length_pos_iff, List.length_drop]
      omega
    have hcalls := Takes.append hfits (.refused hne hfull)
    have htake := take_append hfits (bytes.drop room)
    rw [List.take_append_drop] at hcalls htake
    rw [if_pos hlt, htake, take_of_room_eq_zero hfull]
    exact hcalls
  · have hfits : sink.fitting bytes = bytes.length :=
      Nat.le_antisymm (fitting_le_length _ _) (Nat.not_lt.mp hlt)
    have hcalls := Takes.append hfits (.nothing _)
    rw [List.append_nil] at hcalls
    rwa [if_neg hlt]

/-- However much the calls take, the same bytes arrive and the same error is returned. -/
theorem takes_iff {sink : Sink} {bytes : Bytes} {outcome : Sink × Option SinkError} :
    Takes sink bytes outcome ↔
      outcome =
        (sink.take bytes, if sink.fitting bytes < bytes.length then some .full else none) := by
  constructor
  · exact Takes.eq
  · rintro rfl
    exact takes_take sink bytes

theorem Delivers.eq
    {sink : Sink} {fragments : List Bytes} {outcome : Sink × Option SinkError}
    (h : Delivers sink fragments outcome) : outcome = writeAll sink fragments := by
  induction h with
  | flushed sink => rfl
  | @taken sink next fragment fragments outcome htakes _ ih =>
      obtain ⟨hnext, herror⟩ := Prod.mk.inj (takes_iff.mp htakes)
      have hfits : ¬sink.fitting fragment < fragment.length := by
        intro hlt
        rw [if_pos hlt] at herror
        cases herror
      rw [ih, writeAll_cons, if_neg hfits, hnext]
  | @failed sink next fragment fragments error htakes =>
      obtain ⟨hnext, herror⟩ := Prod.mk.inj (takes_iff.mp htakes)
      have hlt : sink.fitting fragment < fragment.length := by
        by_contra hfits
        rw [if_neg hfits] at herror
        cases herror
      rw [if_pos hlt] at herror
      rw [writeAll_cons, if_pos hlt, hnext, herror]

theorem delivers_writeAll (sink : Sink) (fragments : List Bytes) :
    Delivers sink fragments (writeAll sink fragments) := by
  induction fragments generalizing sink with
  | nil => exact .flushed sink
  | cons fragment fragments ih =>
      have htakes := takes_take sink fragment
      rw [writeAll_cons]
      split
      next hlt =>
        rw [if_pos hlt] at htakes
        exact .failed htakes
      next hfits =>
        rw [if_neg hfits] at htakes
        exact .taken htakes (ih _)

/-- Calls deliver an output as `writeAll` writes any fragments of the same bytes. -/
theorem delivers_iff
    {sink : Sink} {parts fragments : List Bytes} {outcome : Sink × Option SinkError}
    (h : parts.flatten = fragments.flatten) :
    Delivers sink parts outcome ↔ outcome = writeAll sink fragments := by
  have hsame : writeAll sink parts = writeAll sink fragments := by
    rw [writeAll_eq, writeAll_eq, h]
  constructor
  · intro hdelivers
    rw [hdelivers.eq, hsame]
  · rintro rfl
    rw [← hsame]
    exact delivers_writeAll sink parts

/-! ## The room of a sink -/

/-- How writing an output of some bytes to a sink with some room ends. The bytes for which there
is room are kept. The writing fails if these are not all, otherwise if the flush does. No other
outcome is possible, whatever fragments the output consists of and however much each call
takes. -/
structure CutAtRoom
    (sink : Sink) (room : Nat) (full : Bytes) (outcome : Sink × Option SinkError) : Prop where
  written_eq : outcome.1.written = sink.written ++ full.take (min room full.length)
  full_iff : outcome.2 = some .full ↔ room < full.length
  flushFailed_iff : outcome.2 = some .flushFailed ↔
    outcome.1.written = sink.written ++ full ∧ sink.flushFails = true
  none_iff : outcome.2 = none ↔ full.length ≤ room ∧ sink.flushFails = false
  delivers_iff : ∀ fragments : List Bytes, fragments.flatten = full →
    ∀ other, Delivers sink fragments other ↔ other = outcome

theorem cutAtRoom_writeAll
    {sink : Sink} {room : Nat} (hroom : sink.room = some room)
    {fragments : List Bytes} {full : Bytes} (hfull : fragments.flatten = full) :
    CutAtRoom sink room full (writeAll sink fragments) := by
  have hfitting : sink.fitting full = min room full.length := by
    rw [fitting, hroom]
  have hwritten : (writeAll sink fragments).1.written =
      sink.written ++ full.take (min room full.length) := by
    rw [writeAll_eq, hfull, take, hfitting]
  have hall : (writeAll sink fragments).1.written = sink.written ++ full ↔ full.length ≤ room := by
    rw [hwritten, List.append_cancel_left_eq, List.take_eq_self_iff]
    omega
  have hdelivers : ∀ parts : List Bytes, parts.flatten = full →
      ∀ other, Delivers sink parts other ↔ other = writeAll sink fragments :=
    fun _ hparts _ => delivers_iff (hparts.trans hfull.symm)
  rcases Nat.lt_or_ge room full.length with hlt | hle
  · have hnot : ¬full.length ≤ room := Nat.not_le.mpr hlt
    have herror : (writeAll sink fragments).2 = some .full := by
      rw [writeAll_eq, hfull, hfitting, if_pos (by omega)]
    exact {
      written_eq := hwritten
      full_iff := by simp [herror, hlt]
      flushFailed_iff := by simp [herror, hall, hnot]
      none_iff := by simp [herror, hnot]
      delivers_iff := hdelivers }
  · have hnot : ¬room < full.length := Nat.not_lt.mpr hle
    have herror : (writeAll sink fragments).2 = sink.flush := by
      rw [writeAll_eq, hfull, hfitting, if_neg (by omega)]
    exact {
      written_eq := hwritten
      full_iff := by simp [herror, flush, hnot]
      flushFailed_iff := by simp [herror, flush, hall, hle]
      none_iff := by simp [herror, flush, hle]
      delivers_iff := hdelivers }

end Sink

/-! ## Buffers -/

namespace BufferedSink

/-- What a buffered sink was given since it stood before some sink with nothing held back: a part
has been passed on, all of which fitted, and the rest is held back. -/
def Carries (sink : BufferedSink) (start : Sink) (given : Bytes) : Prop :=
  ∃ passed, given = passed ++ sink.pending ∧ start.fitting passed = passed.length ∧
    sink.inner = start.take passed

section Carrying

variable {sink : BufferedSink} {start : Sink} {given fragment : Bytes}

theorem carries_ofSink (sink : Sink) : (ofSink sink).Carries sink [] :=
  ⟨[], rfl, by simpa using sink.fitting_le_length [], sink.take_nil.symm⟩

theorem Carries.drain (h : sink.Carries start given) :
    start.fitting given = given.length ∧ sink.drain = (⟨[], start.take given⟩, none) ∨
      start.fitting given < given.length ∧
        ∃ left, sink.drain = (⟨left, start.take given⟩, some .full) := by
  obtain ⟨passed, rfl, hpassed, hinner⟩ := h
  have htake := Sink.take_append hpassed sink.pending
  have hfitting := Sink.fitting_append hpassed sink.pending
  rw [BufferedSink.drain, Sink.put, hinner, htake, hfitting, List.length_append]
  by_cases hlt : (start.take passed).fitting sink.pending < sink.pending.length
  · exact .inr ⟨by omega, _, by rw [if_pos hlt]⟩
  · have hall := Nat.le_antisymm (Sink.fitting_le_length _ _) (Nat.not_lt.mp hlt)
    exact .inl ⟨by omega, by rw [if_neg hlt, hall, List.drop_length]⟩

/-- A fragment goes past the buffer only when nothing is held back. -/
theorem Carries.accept
    (h : sink.Carries start given) (hempty : capacity ≤ fragment.length → sink.pending = []) :
    (∃ next, sink.accept fragment = (next, none) ∧ next.Carries start (given ++ fragment)) ∨
      start.fitting (given ++ fragment) < (given ++ fragment).length ∧
        ∃ left, sink.accept fragment = (⟨left, start.take (given ++ fragment)⟩, some .full) := by
  obtain ⟨passed, rfl, hpassed, hinner⟩ := h
  rw [BufferedSink.accept]
  split
  next hlong =>
    have hfitting := Sink.fitting_append hpassed fragment
    rw [hempty hlong, List.append_nil, Sink.put, hinner, ← Sink.take_append hpassed,
      List.length_append, hfitting]
    by_cases hlt : (start.take passed).fitting fragment < fragment.length
    · exact .inr ⟨by omega, _, by rw [if_pos hlt]⟩
    · have hall := Nat.le_antisymm (Sink.fitting_le_length _ _) (Nat.not_lt.mp hlt)
      refine .inl ⟨_, by rw [if_neg hlt], passed ++ fragment, ?_, ?_, rfl⟩
      · rw [List.append_nil]
      · rw [hfitting, hall, List.length_append]
  next => exact .inl ⟨_, rfl, passed, List.append_assoc _ _ _, hpassed, hinner⟩

theorem Carries.put (h : sink.Carries start given) (fragment : Bytes) :
    (∃ next, sink.put fragment = (next, none) ∧ next.Carries start (given ++ fragment)) ∨
      start.fitting (given ++ fragment) < (given ++ fragment).length ∧
        ∃ left, sink.put fragment = (⟨left, start.take (given ++ fragment)⟩, some .full) := by
  rw [BufferedSink.put]
  split
  next hspace =>
    apply h.accept
    intro hlong
    rw [← List.length_eq_zero_iff]
    simp only [capacity] at hspace hlong
    omega
  next =>
    rcases h.drain with ⟨hall, hdrain⟩ | ⟨hlt, left, hdrain⟩
    · have hdrained : Carries ⟨[], start.take given⟩ start given :=
        ⟨given, (List.append_nil given).symm, hall, rfl⟩
      rw [hdrain]
      exact hdrained.accept fun _ => rfl
    · rw [hdrain, Sink.take_append_of_lt hlt, Sink.fitting_append_of_lt hlt, List.length_append]
      exact .inr ⟨by omega, left, rfl⟩

/-- At the end of an output the sink stands where it would stand had it been given everything at
once. Something is still held back only if not everything fitted. -/
theorem Carries.writeAll (h : sink.Carries start given) (fragments : List Bytes) :
    ∃ left,
      Writer.writeAll sink fragments =
        (⟨left, start.take (given ++ fragments.flatten)⟩,
          (Writer.writeAll start [given ++ fragments.flatten]).2) ∧
      (left = [] ∨
        start.fitting (given ++ fragments.flatten) < (given ++ fragments.flatten).length) := by
  induction fragments generalizing sink given with
  | nil =>
      have hflush : Writer.writeAll sink [] = sink.flush := rfl
      rw [hflush, BufferedSink.flush, List.flatten_nil, List.append_nil, Sink.writeAll_eq,
        List.flatten_singleton]
      rcases h.drain with ⟨hall, hdrain⟩ | ⟨hlt, left, hdrain⟩
      · exact ⟨[], by rw [hdrain, if_neg (by omega)]; rfl, .inl rfl⟩
      · exact ⟨left, by rw [hdrain, if_pos hlt], .inr hlt⟩
  | cons fragment fragments ih =>
      have hput : Writer.put sink fragment = sink.put fragment := rfl
      rw [Writer.writeAll, hput, List.flatten_cons, ← List.append_assoc]
      rcases h.put fragment with ⟨next, hnext, hcarries⟩ | ⟨hlt, left, hfull⟩
      · rw [hnext]
        exact ih hcarries
      · have hlonger : start.fitting (given ++ fragment ++ fragments.flatten) <
            (given ++ fragment ++ fragments.flatten).length := by
          rw [Sink.fitting_append_of_lt hlt, List.length_append]
          omega
        refine ⟨left, ?_, .inr hlonger⟩
        rw [hfull, Sink.take_append_of_lt hlt, Sink.writeAll_eq, List.flatten_singleton,
          if_pos hlonger]

end Carrying

/-- A buffer in front of a sink makes no difference to what the sink takes from an output and to
the error that is returned, nor does closing the buffer. -/
theorem writeAll_ofSink (sink : Sink) (fragments : List Bytes) :
    ∃ left,
      writeAll (ofSink sink) fragments =
        (⟨left, (writeAll sink fragments).1⟩, (writeAll sink fragments).2) ∧
      close ⟨left, (writeAll sink fragments).1⟩ = (writeAll sink fragments).1 ∧
      ((writeAll sink fragments).2 = none → left = []) := by
  obtain ⟨left, hwrite, hleft⟩ := (carries_ofSink sink).writeAll fragments
  rw [List.nil_append, Sink.writeAll_eq, List.flatten_singleton] at hwrite
  rw [List.nil_append] at hleft
  rw [Sink.writeAll_eq]
  refine ⟨left, hwrite, ?_, ?_⟩
  · rcases hleft with rfl | hlt
    · exact Sink.take_nil _
    · exact Sink.take_of_room_eq_zero (Sink.room_take_of_lt hlt) left
  · rcases hleft with rfl | hlt
    · exact fun _ => rfl
    · rw [if_pos hlt]
      exact nofun

/-- An output that got through has been flushed, and flushing once more changes nothing. -/
theorem flush_of_writeAll
    {sink next : Sink} {fragments : List Bytes} (h : writeAll sink fragments = (next, none)) :
    flush ⟨[], next⟩ = (⟨[], next⟩, none) := by
  have hnext : next = sink.take fragments.flatten := by
    rw [Sink.writeAll_eq] at h
    exact (Prod.mk.inj h).1.symm
  have hflush : next.flush = none := by
    rw [hnext]
    rw [Sink.writeAll_eq] at h
    have hnone := (Prod.mk.inj h).2
    split at hnone
    · cases hnone
    · exact hnone
  have hdrain : drain ⟨[], next⟩ = (⟨[], next⟩, none) := by
    simp [drain, Sink.put]
  rw [flush, hdrain]
  dsimp only
  rw [hflush]

end BufferedSink

/-! ## Reports and summaries -/

theorem report_eq_written (findings : List Finding) :
    report findings = (writeReport Sink.unlimited findings).1.written := by
  rw [writeReport, Sink.writeAll_of_room_eq_none rfl, report]
  rfl

theorem summary_eq_written (colored : Bool) (result : CheckResult) (stats : RunStats) :
    summary colored result stats =
      (writeSummary Sink.unlimited colored result stats).1.written := by
  rw [writeSummary, Sink.writeAll_of_room_eq_none rfl, summary]
  rfl

/-- Reports and summaries are cut off at the room of the sink. What an unlimited sink receives is
kept as far as there is room, and an error is returned when something is left over, or when
nothing is and the flush fails. -/
theorem output_cutAtRoom {sink : Sink} {room : Nat} (hroom : sink.room = some room) :
    (∀ findings : List Finding,
      sink.CutAtRoom room (writeReport Sink.unlimited findings).1.written
        (writeReport sink findings)) ∧
    ∀ (colored : Bool) (result : CheckResult) (stats : RunStats),
      sink.CutAtRoom room (writeSummary Sink.unlimited colored result stats).1.written
        (writeSummary sink colored result stats) := by
  constructor
  · intro findings
    exact Sink.cutAtRoom_writeAll hroom (report_eq_written findings)
  · intro colored result stats
    exact Sink.cutAtRoom_writeAll hroom (summary_eq_written colored result stats)

/-- A finding in a file whose name is not UTF-8. The mark for the broken byte takes three bytes
of the report. -/
def damagedFinding : Finding :=
  ⟨"Foo".toList, [0x61, 0xFF]⟩

/-- A sink with room for its report up to the first byte of the mark. -/
def narrowSink : Sink :=
  ⟨some 24, true, []⟩

/-- The report of the finding, with the mark and the rest of the path apart. -/
def damagedParts : List Bytes :=
  ["UNUSED EXPORT: ", "Foo", " in ", "a", "\uFFFD", "\n"].map Bytes.ofString

/-- The result of a check of one file without findings, for which the summary has 71 bytes. -/
def cleanResult : CheckResult :=
  ⟨[], 1, 0⟩

theorem output_cutAtRoom_damagedFinding :
    narrowSink.room = some 24 ∧
      (writeReport narrowSink [damagedFinding]).1.written =
        Bytes.ofString "UNUSED EXPORT: Foo in a" ++ [0xEF] ∧
      (writeReport narrowSink [damagedFinding]).2 = some .full ∧
      damagedParts.flatten = (writeReport Sink.unlimited [damagedFinding]).1.written ∧
      narrowSink.Delivers damagedParts (writeReport narrowSink [damagedFinding]) ∧
      (writeSummary (⟨some 71, true, []⟩ : Sink) false cleanResult ⟨7, 2⟩).2 =
        some .flushFailed := by
  have hnarrow : narrowSink.room = some 24 := rfl
  have hwide : (⟨some 71, true, []⟩ : Sink).room = some 71 := rfl
  have hreport := (output_cutAtRoom hnarrow).1 [damagedFinding]
  have hsummary := (output_cutAtRoom hwide).2 false cleanResult ⟨7, 2⟩
  have hparts : damagedParts.flatten = (writeReport Sink.unlimited [damagedFinding]).1.written := by
    decide
  refine ⟨hnarrow, hreport.written_eq.trans (by decide), hreport.full_iff.mpr (by decide), hparts,
    (hreport.delivers_iff _ hparts _).mpr rfl, hsummary.flushFailed_iff.mpr ⟨?_, rfl⟩⟩
  decide

end DeadExports
