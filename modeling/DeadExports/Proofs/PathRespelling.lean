import DeadExports.Proofs.PathBelow
import Mathlib.Logic.Relation

/-!
# Spellings of one path

Two spellings have the same key exactly when one can be turned into the other by doubling
slashes, adding `.` components behind a slash and adding slashes at the end, or by undoing
this. None of these changes what comes before the first slash, which is why a leading `.`
counts. In the other direction every spelling can be turned into the one that writes out its
key, component after component from the left.
-/

namespace DeadExports.Path

/-- One thing that a spelling may leave out: a second slash, a `.` behind a slash, or a slash
or `.` at the end. -/
inductive Shortens : Path → Path → Prop where
  | twice (front back : Path) : Shortens (front ++ slash :: slash :: back) (front ++ slash :: back)
  | between (front back : Path) :
      Shortens (front ++ slash :: (here ++ slash :: back)) (front ++ slash :: back)
  | last (front : Path) (h : front ≠ []) : Shortens (front ++ [slash]) front
  | lastHere (front : Path) : Shortens (front ++ slash :: here) (front ++ [slash])

/-- Two paths that differ only in what their spellings leave out. -/
def Respelled : Path → Path → Prop :=
  Relation.EqvGen Shortens

/-! ## Respelling keeps the key -/

/-- What follows a slash adds its components to the key, without `.` components. -/
theorem key_append_slash {front : Path} (hfront : front ≠ []) (back : Path) :
    key (front ++ slash :: back) =
      ⟨(key front).absolute, (key front).parts ++ (pieces back).filter (· ≠ here)⟩ := by
  rw [key, key, isAbsolute_append _ hfront, pieces_append_slash]
  by_cases habsolute : isAbsolute front = true
  · rw [if_pos habsolute, if_pos habsolute, List.filter_append]
  · obtain ⟨first, rest, hpieces⟩ :=
      List.exists_cons_of_ne_nil (pieces_ne_nil_of_relative hfront (by simpa using habsolute))
    rw [if_neg habsolute, if_neg habsolute, hpieces, List.cons_append]
    dsimp only
    rw [List.filter_append, List.cons_append]

theorem pieces_slash_cons (back : Path) : pieces (slash :: back) = pieces back :=
  pieces_append_slash [] back

theorem key_slash_cons (back : Path) :
    key (slash :: back) = ⟨true, (pieces back).filter (· ≠ here)⟩ := by
  have habsolute : isAbsolute (slash :: back) = true := by
    simp [isAbsolute]
  rw [key, if_pos habsolute, pieces_slash_cons]

theorem key_append_slash_congr
    (front : Path) {back back' : Path}
    (h : (pieces back).filter (· ≠ here) = (pieces back').filter (· ≠ here)) :
    key (front ++ slash :: back) = key (front ++ slash :: back') := by
  by_cases hfront : front = []
  · rw [hfront, List.nil_append, List.nil_append, key_slash_cons, key_slash_cons, h]
  · rw [key_append_slash hfront, key_append_slash hfront, h]

theorem Shortens.key_eq {path other : Path} (h : Shortens path other) : path.key = other.key := by
  cases h with
  | twice front back =>
      apply key_append_slash_congr
      rw [pieces_slash_cons]
  | between front back =>
      apply key_append_slash_congr
      rw [pieces_append_slash, List.filter_append]
      rfl
  | last front hfront =>
      rw [key_append_slash hfront]
      exact congrArg (Key.mk _) (List.append_nil _)
  | lastHere front => exact key_append_slash_congr front rfl

theorem Respelled.key_eq {path other : Path} (h : Respelled path other) : path.key = other.key := by
  induction h with
  | rel _ _ h => exact h.key_eq
  | refl => rfl
  | symm _ _ _ ih => exact ih.symm
  | trans _ _ _ _ _ ih ih' => exact ih.trans ih'

/-! ## The spelling of a key -/

/-- The shortest spelling with a given key. -/
def Key.spelling (key : Key) : Path :=
  if key.absolute then
    match key.parts with
    | [] => [slash]
    | parts => parts.flatMap (slash :: ·)
  else
    match key.parts with
    | [] => []
    | first :: rest => first ++ rest.flatMap (slash :: ·)

theorem Shortens.respelled {path other : Path} (h : Shortens path other) : Respelled path other :=
  .rel path other h

namespace Respelled

theorem refl (path : Path) : Respelled path path :=
  Relation.EqvGen.refl path

theorem symm {path other : Path} (h : Respelled path other) : Respelled other path :=
  Relation.EqvGen.symm path other h

theorem trans {path other third : Path} (h : Respelled path other) (h' : Respelled other third) :
    Respelled path third :=
  Relation.EqvGen.trans path other third h h'

theorem append_slash {path other : Path} (h : Respelled path other) (back : Path) :
    Respelled (path ++ slash :: back) (other ++ slash :: back) := by
  induction h with
  | refl path => exact refl _
  | symm _ _ _ ih => exact symm ih
  | trans _ _ _ _ _ ih ih' => exact trans ih ih'
  | rel path other h =>
      cases h with
      | twice front middle => simpa using (Shortens.twice front (middle ++ slash :: back)).respelled
      | between front middle =>
          simpa using (Shortens.between front (middle ++ slash :: back)).respelled
      | last front hfront => simpa using (Shortens.twice other back).respelled
      | lastHere front =>
          have hlong := (Shortens.between front back).respelled
          have hshort := (Shortens.twice front back).respelled
          simpa using hlong.trans hshort.symm

end Respelled

/-! ## Spelling out a key -/

theorem exists_last_slash {path : Path} (h : slash ∈ path) :
    ∃ front last, path = front ++ slash :: last ∧ slash ∉ last := by
  obtain ⟨last, front, hpath, hlast⟩ := List.eq_append_cons_of_mem (List.mem_reverse.mpr h)
  refine ⟨front.reverse, last.reverse, ?_, by simpa using hlast⟩
  simpa using congrArg List.reverse hpath

theorem pieces_of_notMem {name : Path} (h : slash ∉ name) (hname : name ≠ []) :
    pieces name = [name] := by
  rw [pieces, cutAt_of_notMem h]
  simp [hname]

theorem key_of_notMem {name : Path} (h : slash ∉ name) (hname : name ≠ []) :
    key name = ⟨false, [name]⟩ := by
  have habsolute : isAbsolute name = false := by
    obtain ⟨byte, rest, rfl⟩ := List.exists_cons_of_ne_nil hname
    simpa [isAbsolute] using fun hbyte => h (by simp [hbyte])
  rw [key, if_neg (by simp [habsolute]), pieces_of_notMem h hname]
  rfl

theorem Key.respelled_spelling_concat
    {key : Key} (hkey : key.absolute = true ∨ key.parts ≠ []) (name : Bytes) :
    Respelled (key.spelling ++ slash :: name)
      (Key.mk key.absolute (key.parts ++ [name])).spelling := by
  obtain ⟨absolute, parts⟩ := key
  cases absolute with
  | true =>
      cases parts with
      | nil => simpa [spelling] using (Shortens.twice [] name).respelled
      | cons first rest => simpa [spelling] using Respelled.refl _
  | false =>
      cases parts with
      | nil => simp at hkey
      | cons first rest => simpa [spelling] using Respelled.refl _

theorem parts_key_ne_nil {path : Path} (h : path ≠ []) :
    path.key.absolute = true ∨ path.key.parts ≠ [] := by
  rw [key]
  split
  next => exact .inl rfl
  next habsolute =>
    obtain ⟨first, rest, hpieces⟩ :=
      List.exists_cons_of_ne_nil (pieces_ne_nil_of_relative h (by simpa using habsolute))
    rw [hpieces]
    exact .inr (List.cons_ne_nil _ _)

theorem respelled_spelling_key (path : Path) : Respelled path path.key.spelling := by
  induction hlength : path.length using Nat.strongRecOn generalizing path with
  | ind length ih =>
      have hshortens {shorter : Path} (h : Shortens path shorter)
          (hlt : shorter.length < path.length) : Respelled path path.key.spelling := by
        rw [h.key_eq]
        exact h.respelled.trans (ih shorter.length (hlength ▸ hlt) shorter rfl)
      by_cases hslash : slash ∈ path
      · obtain ⟨front, last, rfl, hlast⟩ := exists_last_slash hslash
        by_cases hhere : last = here
        · rw [hhere] at hshortens ⊢
          exact hshortens (.lastHere front) (by simp [here])
        by_cases hempty : last = []
        · by_cases hfront : front = []
          · rw [hempty, hfront]
            exact .refl _
          · rw [hempty] at hshortens ⊢
            exact hshortens (.last front hfront) (by simp)
        -- Any other last component is the last one of the key.
        have hkept : (pieces last).filter (· ≠ here) = [last] := by
          rw [pieces_of_notMem hlast hempty]
          simp [hhere]
        by_cases hfront : front = []
        · rw [hfront, List.nil_append, key_slash_cons, hkept]
          simpa [Key.spelling] using Respelled.refl (slash :: last)
        · have hspelling : Respelled front front.key.spelling := by
            apply ih front.length _ front rfl
            rw [← hlength, List.length_append, List.length_cons]
            omega
          rw [key_append_slash hfront, hkept]
          exact (hspelling.append_slash last).trans
            (Key.respelled_spelling_concat (parts_key_ne_nil hfront) last)
      · by_cases hempty : path = []
        · rw [hempty]
          exact .refl _
        · rw [key_of_notMem hslash hempty]
          simpa [Key.spelling] using Respelled.refl path

/-- Two spellings have the same key exactly when they differ in nothing that a spelling may
leave out. -/
theorem key_eq_iff_respelled {path other : Path} : path.key = other.key ↔ Respelled path other := by
  constructor
  · intro h
    have hother := respelled_spelling_key other
    rw [← h] at hother
    exact (respelled_spelling_key path).trans hother.symm
  · exact Respelled.key_eq

end DeadExports.Path
