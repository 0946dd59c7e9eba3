import DeadExports.Proofs.WalkOrder

/-!
# Where paths lead

`FileSystem.follow` is a search that may end in an error. `FileSystem.Leads`
describes its successes as derivations, one rule for each kind of step, and the
facts about where paths lead are inductions on such derivations.

The main results compare two views of one tree. If a root leads to a directory,
then a path below the root through real directories leads where the directory's own
listings say: `lookupEntry_below` for the entry itself, `lookup_below_file` for a
regular file. The links that the root may go through play no role for what lies
below it.
-/

namespace DeadExports

theorem Node.at?_append (node : Node) (first second : Location) :
    node.at? (first ++ second) = (node.at? first).bind (·.at? second) := by
  induction first generalizing node with
  | nil => rfl
  | cons name first ih =>
      cases node with
      | file content => rfl
      | link target => rfl
      | directory entries =>
          simp only [List.cons_append, Node.at?]
          cases entries.find? name with
          | none => rfl
          | some next => exact ih next

namespace FileSystem

variable {fs : FileSystem}

theorem node?_append (place names : Location) :
    fs.node? (place ++ names) = (fs.node? place).bind (·.at? names) :=
  Node.at?_append _ place names

theorem node?_concat
    {place : Location} {entries : Listing} (h : fs.node? place = some (.directory entries))
    (name : Bytes) :
    fs.node? (place ++ [name]) = entries.find? name := by
  rw [node?_append, h, Option.bind_some, Node.at?]
  cases entries.find? name <;> rfl

theorem exists_directory_of_node?_append
    {place : Location} {name : Bytes} {names : Location} {node : Node}
    (h : fs.node? (place ++ name :: names) = some node) :
    ∃ entries, fs.node? place = some (.directory entries) := by
  rw [node?_append, Option.bind_eq_some_iff] at h
  obtain ⟨holder, hholder, hat⟩ := h
  cases holder with
  | file content => simp [Node.at?] at hat
  | link target => simp [Node.at?] at hat
  | directory entries => exact ⟨entries, hholder⟩

/-- Above a directory there is a directory, or the top. -/
theorem exists_directory_dropLast
    {place : Location} {entries : Listing} (h : fs.node? place = some (.directory entries)) :
    ∃ above, fs.node? place.dropLast = some (.directory above) := by
  rcases List.eq_nil_or_concat' place with rfl | ⟨front, name, rfl⟩
  · exact ⟨fs.top, rfl⟩
  · rw [List.dropLast_concat]
    exact exists_directory_of_node?_append h

theorem wellFormed_of_node?
    {place : Location} {node : Node} (h : fs.node? place = some node) :
    node.WellFormed := by
  have htop : (Node.directory fs.top).WellFormed := fs.wellFormed
  exact (htop.of_at? h).2

/-! ## Steps of a search -/

/-- A component that names an entry. -/
def IsOrdinary (name : Bytes) : Prop :=
  name ≠ Path.here ∧ name ≠ Path.up ∧ name.length ≤ nameLimit

theorem isOrdinary_of_isEntryName {name : Bytes} (h : IsEntryName name) : IsOrdinary name :=
  ⟨h.ne_here, h.ne_up, h.length_le⟩

/-- Where the target of a link is followed from. -/
def linkStart (place : Location) (target : Path) : Location :=
  if Path.isAbsolute target then [] else place

/-- What a search does at a link with an allowance of links. -/
def redirect (fs : FileSystem) (followLast : Bool) :
    (allowance : Nat) → Location → Path → List Bytes → Except FileError Location
  | 0, _, _, _ => .error .tooManyLinks
  | allowance + 1, place, target, rest =>
      if target.isEmpty then .error .notFound
      else fs.follow followLast allowance (linkStart place target) (Path.steps target ++ rest)

theorem follow_eq_descend (followLast : Bool) (allowance : Nat) :
    fs.follow followLast allowance = fs.descend followLast (fs.redirect followLast allowance) := by
  cases allowance <;> rfl

@[simp] theorem follow_nil (followLast : Bool) (allowance : Nat) (place : Location) :
    fs.follow followLast allowance place [] = .ok place := by
  rw [follow_eq_descend]
  rfl

theorem follow_of_not_directory
    {place : Location} (h : ¬∃ entries, fs.node? place = some (.directory entries))
    (followLast : Bool) (allowance : Nat) {steps : List Bytes} (hsteps : steps ≠ []) :
    fs.follow followLast allowance place steps = .error .notDirectory := by
  obtain ⟨name, rest, rfl⟩ := List.exists_cons_of_ne_nil hsteps
  rw [follow_eq_descend, descend]
  split
  next entries hdir => exact absurd ⟨entries, hdir⟩ h
  next => rfl

section Steps

variable
  {followLast : Bool} {allowance : Nat} {place : Location} {entries : Listing}
  (hdir : fs.node? place = some (.directory entries))

include hdir

theorem follow_here (rest : List Bytes) :
    fs.follow followLast allowance place (Path.here :: rest) =
      fs.follow followLast allowance place rest := by
  simp [follow_eq_descend, descend, hdir]

theorem follow_up (rest : List Bytes) :
    fs.follow followLast allowance place (Path.up :: rest) =
      fs.follow followLast allowance place.dropLast rest := by
  have hne : Path.up ≠ Path.here := by decide
  simp [follow_eq_descend, descend, hdir, hne]

theorem follow_name {name : Bytes} (hname : IsOrdinary name) (rest : List Bytes) :
    fs.follow followLast allowance place (name :: rest) =
      match entries.find? name with
      | none => if rest.isEmpty then .ok (place ++ [name]) else .error .notFound
      | some (.link target) =>
          if rest.isEmpty && !followLast then .ok (place ++ [name])
          else fs.redirect followLast allowance place target rest
      | some _ => fs.follow followLast allowance (place ++ [name]) rest := by
  obtain ⟨hhere, hup, hlength⟩ := hname
  have hshort := Nat.not_lt.mpr hlength
  cases hfind : entries.find? name with
  | none => simp [follow_eq_descend, descend, hdir, hhere, hup, hshort, hfind]
  | some node =>
      cases node <;> simp [follow_eq_descend, descend, hdir, hhere, hup, hshort, hfind]

theorem follow_long_name
    {name : Bytes} (hhere : name ≠ Path.here) (hup : name ≠ Path.up)
    (hlong : nameLimit < name.length) (rest : List Bytes) :
    fs.follow followLast allowance place (name :: rest) = .error .nameTooLong := by
  simp [follow_eq_descend, descend, hdir, hhere, hup, hlong]

end Steps

theorem not_stops_iff (rest : List Bytes) (followLast : Bool) :
    ¬(rest.isEmpty && !followLast) = true ↔ rest ≠ [] ∨ followLast = true := by
  cases rest <;> cases followLast <;> simp

/-! ## Derivations -/

/-- A search for components from a place ends at a place. -/
inductive Leads (fs : FileSystem) (followLast : Bool) :
    (allowance : Nat) → Location → List Bytes → Location → Prop where
  | done {allowance : Nat} {place : Location} :
      Leads fs followLast allowance place [] place
  | here {allowance : Nat} {place dest : Location} {entries : Listing} {rest : List Bytes} :
      fs.node? place = some (.directory entries) →
      Leads fs followLast allowance place rest dest →
      Leads fs followLast allowance place (Path.here :: rest) dest
  | up {allowance : Nat} {place dest : Location} {entries : Listing} {rest : List Bytes} :
      fs.node? place = some (.directory entries) →
      Leads fs followLast allowance place.dropLast rest dest →
      Leads fs followLast allowance place (Path.up :: rest) dest
  /-- The last component need not exist. -/
  | missing {allowance : Nat} {place : Location} {entries : Listing} {name : Bytes} :
      fs.node? place = some (.directory entries) → IsOrdinary name →
      entries.find? name = none →
      Leads fs followLast allowance place [name] (place ++ [name])
  /-- A link at the end may be the answer itself. -/
  | stop {allowance : Nat} {place : Location} {entries : Listing} {name : Bytes}
      {target : Path} :
      fs.node? place = some (.directory entries) → IsOrdinary name →
      entries.find? name = some (.link target) → followLast = false →
      Leads fs followLast allowance place [name] (place ++ [name])
  /-- Any other link is replaced by its target. -/
  | link {allowance : Nat} {place dest : Location} {entries : Listing} {name : Bytes}
      {target : Path} {rest : List Bytes} :
      fs.node? place = some (.directory entries) → IsOrdinary name →
      entries.find? name = some (.link target) → (rest ≠ [] ∨ followLast = true) →
      target ≠ [] →
      Leads fs followLast allowance (linkStart place target) (Path.steps target ++ rest) dest →
      Leads fs followLast (allowance + 1) place (name :: rest) dest
  /-- Files and directories are entered. -/
  | enter {allowance : Nat} {place dest : Location} {entries : Listing} {name : Bytes}
      {node : Node} {rest : List Bytes} :
      fs.node? place = some (.directory entries) → IsOrdinary name →
      entries.find? name = some node → (∀ target, node ≠ .link target) →
      Leads fs followLast allowance (place ++ [name]) rest dest →
      Leads fs followLast allowance place (name :: rest) dest

theorem follow_of_leads
    {followLast : Bool} {allowance : Nat} {place dest : Location} {steps : List Bytes}
    (h : fs.Leads followLast allowance place steps dest) :
    fs.follow followLast allowance place steps = .ok dest := by
  induction h with
  | done => exact follow_nil _ _ _
  | here hdir _ ih => rw [follow_here hdir, ih]
  | up hdir _ ih => rw [follow_up hdir, ih]
  | missing hdir hname hfind =>
      rw [follow_name hdir hname, hfind]
      rfl
  | stop hdir hname hfind hlast =>
      rw [follow_name hdir hname, hfind, hlast]
      rfl
  | link hdir hname hfind hfollow htarget _ ih =>
      rw [follow_name hdir hname, hfind]
      dsimp only
      rw [if_neg ((not_stops_iff _ _).mpr hfollow), redirect, if_neg (by simpa using htarget), ih]
  | @enter _ _ _ _ _ node _ hdir hname hfind hnode _ ih =>
      rw [follow_name hdir hname, hfind]
      cases node with
      | link target => exact absurd rfl (hnode target)
      | file content => exact ih
      | directory below => exact ih

/-- A success that begins with the name of an entry has a derivation, provided that
the searches it continues with have one. -/
theorem leads_of_follow_name
    {followLast : Bool} {allowance : Nat} {place dest : Location} {entries : Listing}
    {name : Bytes} {rest : List Bytes}
    (hdir : fs.node? place = some (.directory entries)) (hname : IsOrdinary name)
    (ihlink : ∀ fewer < allowance, ∀ {place : Location} {steps : List Bytes},
      fs.follow followLast fewer place steps = .ok dest →
        fs.Leads followLast fewer place steps dest)
    (ihrest : ∀ {place : Location},
      fs.follow followLast allowance place rest = .ok dest →
        fs.Leads followLast allowance place rest dest)
    (h : fs.follow followLast allowance place (name :: rest) = .ok dest) :
    fs.Leads followLast allowance place (name :: rest) dest := by
  rw [follow_name hdir hname] at h
  split at h
  next hfind =>
    split at h
    next hrest =>
      rw [List.isEmpty_iff] at hrest
      rw [Except.ok.injEq] at h
      subst hrest h
      exact .missing hdir hname hfind
    next => simp at h
  next target hfind =>
    split at h
    next hstop =>
      rw [Bool.and_eq_true, List.isEmpty_iff, Bool.not_eq_true'] at hstop
      obtain ⟨hrest, hlast⟩ := hstop
      rw [Except.ok.injEq] at h
      subst hrest h
      exact .stop hdir hname hfind hlast
    next hgo =>
      cases allowance with
      | zero => simp [redirect] at h
      | succ fewer =>
          rw [redirect] at h
          split at h
          next => simp at h
          next htarget =>
            exact .link hdir hname hfind ((not_stops_iff _ _).mp hgo) (by simpa using htarget)
              (ihlink fewer (Nat.lt_succ_self fewer) h)
  next node hnode hfind =>
    exact .enter hdir hname hfind hnode (ihrest h)

theorem leads_of_follow
    {followLast : Bool} {allowance : Nat} {place dest : Location} {steps : List Bytes}
    (h : fs.follow followLast allowance place steps = .ok dest) :
    fs.Leads followLast allowance place steps dest := by
  induction allowance using Nat.strong_induction_on generalizing place steps with
  | h allowance ihlink =>
      induction steps generalizing place with
      | nil =>
          rw [follow_nil, Except.ok.injEq] at h
          exact h ▸ .done
      | cons name rest ih =>
          by_cases hdir : ∃ entries, fs.node? place = some (.directory entries)
          swap
          · rw [follow_of_not_directory hdir _ _ (List.cons_ne_nil _ _)] at h
            cases h
          obtain ⟨entries, hdir⟩ := hdir
          by_cases hhere : name = Path.here
          · subst hhere
            rw [follow_here hdir] at h
            exact .here hdir (ih h)
          by_cases hup : name = Path.up
          · subst hup
            rw [follow_up hdir] at h
            exact .up hdir (ih h)
          by_cases hlong : nameLimit < name.length
          · rw [follow_long_name hdir hhere hup hlong] at h
            cases h
          · exact leads_of_follow_name hdir ⟨hhere, hup, Nat.le_of_not_lt hlong⟩ ihlink ih h

theorem follow_eq_ok_iff
    {followLast : Bool} {allowance : Nat} {place dest : Location} {steps : List Bytes} :
    fs.follow followLast allowance place steps = .ok dest ↔
      fs.Leads followLast allowance place steps dest :=
  ⟨leads_of_follow, follow_of_leads⟩

/-! ## Facts about derivations -/

namespace Leads

/-- Once a search stands in a directory, further components are searched from
there, with whatever allowance is left. -/
theorem follow_append
    {allowance : Nat} {place dest : Location} {steps : List Bytes} {entries : Listing}
    (h : fs.Leads true allowance place steps dest)
    (hdest : fs.node? dest = some (.directory entries)) :
    ∃ left, ∀ (followLast : Bool) (more : List Bytes), more ≠ [] →
      fs.follow followLast allowance place (steps ++ more) =
        fs.follow followLast left dest more := by
  induction h with
  | done => exact ⟨_, fun _ _ _ => rfl⟩
  | here hdir _ ih =>
      obtain ⟨left, hleft⟩ := ih hdest
      refine ⟨left, fun followLast more hmore => ?_⟩
      rw [List.cons_append, follow_here hdir, hleft followLast more hmore]
  | up hdir _ ih =>
      obtain ⟨left, hleft⟩ := ih hdest
      refine ⟨left, fun followLast more hmore => ?_⟩
      rw [List.cons_append, follow_up hdir, hleft followLast more hmore]
  | missing hdir _ hfind => simp [node?_concat hdir, hfind] at hdest
  | stop _ _ _ hlast => simp at hlast
  | link hdir hname hfind _ htarget _ ih =>
      obtain ⟨left, hleft⟩ := ih hdest
      refine ⟨left, fun followLast more hmore => ?_⟩
      rw [List.cons_append, follow_name hdir hname, hfind]
      dsimp only
      rw [if_neg ((not_stops_iff _ _).mpr (Or.inl (List.append_ne_nil_of_right_ne_nil _ hmore))),
        redirect, if_neg (by simpa using htarget), ← List.append_assoc,
        hleft followLast more hmore]
  | @enter _ _ _ _ _ node _ hdir hname hfind hnode _ ih =>
      obtain ⟨left, hleft⟩ := ih hdest
      refine ⟨left, fun followLast more hmore => ?_⟩
      rw [List.cons_append, follow_name hdir hname, hfind, ← hleft followLast more hmore]
      cases node with
      | link target => exact absurd rfl (hnode target)
      | file content => rfl
      | directory below => rfl

/-- A final `.` can be left out. -/
theorem of_append_here
    {allowance : Nat} {place dest : Location} {steps : List Bytes}
    (h : fs.Leads true allowance place (steps ++ [Path.here]) dest) :
    fs.Leads true allowance place steps dest := by
  generalize hwhole : steps ++ [Path.here] = whole at h
  induction h generalizing steps with
  | done => simp at hwhole
  | here hdir hrest ih =>
      cases steps with
      | nil =>
          rw [List.nil_append, List.cons.injEq] at hwhole
          rw [← hwhole.2] at hrest
          exact hrest
      | cons name steps =>
          rw [List.cons_append, List.cons.injEq] at hwhole
          exact hwhole.1 ▸ .here hdir (ih hwhole.2)
  | up hdir _ ih =>
      cases steps with
      | nil => exact absurd (List.cons.inj hwhole).1 (by decide)
      | cons name steps =>
          rw [List.cons_append, List.cons.injEq] at hwhole
          exact hwhole.1 ▸ .up hdir (ih hwhole.2)
  | missing hdir hname hfind =>
      cases steps with
      | nil => exact absurd (List.cons.inj hwhole).1.symm hname.1
      | cons name steps => simp at hwhole
  | stop _ _ _ hlast => simp at hlast
  | link hdir hname hfind _ htarget _ ih =>
      cases steps with
      | nil => exact absurd (List.cons.inj hwhole).1.symm hname.1
      | cons name steps =>
          rw [List.cons_append, List.cons.injEq] at hwhole
          obtain ⟨rfl, rfl⟩ := hwhole
          exact .link hdir hname hfind (Or.inr rfl) htarget (ih (List.append_assoc _ _ _))
  | enter hdir hname hfind hnode _ ih =>
      cases steps with
      | nil => exact absurd (List.cons.inj hwhole).1.symm hname.1
      | cons name steps =>
          rw [List.cons_append, List.cons.injEq] at hwhole
          exact hwhole.1 ▸ .enter hdir (hwhole.1 ▸ hname) (hwhole.1 ▸ hfind) hnode (ih hwhole.2)

/-- What can be reached when links are followed to the end also exists when the last
one is not followed. -/
theorem exists_entry
    {allowance : Nat} {place dest : Location} {steps : List Bytes}
    (h : fs.Leads true allowance place steps dest) (hdest : (fs.node? dest).isSome) :
    ∃ entry, fs.Leads false allowance place steps entry ∧ (fs.node? entry).isSome := by
  induction h with
  | done => exact ⟨_, .done, hdest⟩
  | here hdir _ ih =>
      obtain ⟨entry, hleads, hsome⟩ := ih hdest
      exact ⟨entry, .here hdir hleads, hsome⟩
  | up hdir _ ih =>
      obtain ⟨entry, hleads, hsome⟩ := ih hdest
      exact ⟨entry, .up hdir hleads, hsome⟩
  | missing hdir hname hfind => exact ⟨_, .missing hdir hname hfind, hdest⟩
  | stop _ _ _ hlast => simp at hlast
  | @link _ _ _ _ _ _ rest hdir hname hfind _ htarget _ ih =>
      by_cases hrest : rest = []
      · subst hrest
        exact ⟨_, .stop hdir hname hfind rfl, by simp [node?_concat hdir, hfind]⟩
      · obtain ⟨entry, hleads, hsome⟩ := ih hdest
        exact ⟨entry, .link hdir hname hfind (Or.inl hrest) htarget hleads, hsome⟩
  | enter hdir hname hfind hnode _ ih =>
      obtain ⟨entry, hleads, hsome⟩ := ih hdest
      exact ⟨entry, .enter hdir hname hfind hnode hleads, hsome⟩

/-- A search that follows links to the end does not end at a link, unless it starts
at one and goes nowhere. -/
theorem not_link
    {allowance : Nat} {place dest : Location} {steps : List Bytes}
    (h : fs.Leads true allowance place steps dest)
    (hstart : steps = [] → ∀ target, fs.node? place ≠ some (.link target))
    (target : Path) :
    fs.node? dest ≠ some (.link target) := by
  induction h with
  | done => exact hstart rfl target
  | here hdir _ ih =>
      apply ih
      intro _ other
      simp [hdir]
  | up hdir _ ih =>
      apply ih
      intro _ other
      obtain ⟨above, habove⟩ := exists_directory_dropLast hdir
      simp [habove]
  | missing hdir _ hfind => simp [node?_concat hdir, hfind]
  | stop _ _ _ hlast => simp at hlast
  | link hdir _ _ _ _ _ ih =>
      apply ih
      intro _ other
      rw [linkStart]
      split
      · simp [node?, Node.at?]
      · simp [hdir]
  | enter hdir _ hfind hnode _ ih =>
      apply ih
      intro _ other
      rw [node?_concat hdir, hfind]
      simpa using hnode other

end Leads

/-! ## Paths -/

def startOf (fs : FileSystem) (path : Path) : Location :=
  if Path.isAbsolute path then [] else fs.current

/-- A path that can be followed at all. -/
def IsFollowable (path : Path) : Prop :=
  0 ∉ path ∧ path ≠ [] ∧ path.length ≤ pathLimit

theorem locate_of_isFollowable {path : Path} (h : IsFollowable path) (followLast : Bool) :
    fs.locate followLast path =
      fs.follow followLast linkLimit (fs.startOf path) (Path.steps path) := by
  obtain ⟨hnul, hne, hlength⟩ := h
  simp [locate, hnul, hne, Nat.not_lt.mpr hlength, startOf]

theorem isFollowable_of_locate
    {path : Path} {followLast : Bool} {place : Location}
    (h : fs.locate followLast path = .ok place) : IsFollowable path := by
  simp only [locate] at h
  split at h
  · simp at h
  next hnul =>
    split at h
    · simp at h
    next hne =>
      split at h
      · simp at h
      next hlength =>
        exact ⟨by simpa using hnul, by simpa using hne, Nat.le_of_not_lt hlength⟩

theorem lookup_eq_ok_iff {path : Path} {node : Node} :
    fs.lookup path = .ok node ↔
      ∃ place, fs.locate true path = .ok place ∧ fs.node? place = some node := by
  simp only [lookup, bind, Except.bind]
  cases hlocate : fs.locate true path with
  | error cause => simp
  | ok place =>
      cases hnode : fs.node? place with
      | none => simp [hnode]
      | some other => simp [hnode]

theorem lookupEntry_eq_ok_iff {path : Path} {node : Node} :
    fs.lookupEntry path = .ok node ↔
      ∃ place, fs.locate false path = .ok place ∧ fs.node? place = some node := by
  simp only [lookupEntry, bind, Except.bind]
  cases hlocate : fs.locate false path with
  | error cause => simp
  | ok place =>
      cases hnode : fs.node? place with
      | none => simp [hnode]
      | some other => simp [hnode]

theorem length_le_of_lookup
    {path : Path} {node : Node} (h : fs.lookup path = .ok node) :
    path.length ≤ pathLimit := by
  obtain ⟨place, hlocate, -⟩ := lookup_eq_ok_iff.mp h
  exact (isFollowable_of_locate hlocate).2.2

theorem length_le_of_lookupEntry
    {path : Path} {node : Node} (h : fs.lookupEntry path = .ok node) :
    path.length ≤ pathLimit := by
  obtain ⟨place, hlocate, -⟩ := lookupEntry_eq_ok_iff.mp h
  exact (isFollowable_of_locate hlocate).2.2

theorem isFile_iff {path : Path} :
    fs.isFile path = true ↔ ∃ content, fs.lookup path = .ok (.file content) := by
  rw [isFile]
  split
  next content hlookup => simp [hlookup]
  next hnot =>
    simp only [Bool.false_eq_true, false_iff, not_exists]
    exact hnot

theorem isDirectory_iff {path : Path} :
    fs.isDirectory path = true ↔ ∃ entries, fs.lookup path = .ok (.directory entries) := by
  rw [isDirectory]
  split
  next entries hlookup => simp [hlookup]
  next hnot =>
    simp only [Bool.false_eq_true, false_iff, not_exists]
    exact hnot

theorem isFile_eq_false_of_length
    {path : Path} (h : path.length > pathLimit) : fs.isFile path = false := by
  rw [Bool.eq_false_iff]
  intro hfile
  obtain ⟨content, hlookup⟩ := isFile_iff.mp hfile
  exact Nat.not_lt.mpr (length_le_of_lookup hlookup) h

theorem wellFormed_of_lookup
    {path : Path} {node : Node} (h : fs.lookup path = .ok node) : node.WellFormed := by
  obtain ⟨place, -, hnode⟩ := lookup_eq_ok_iff.mp h
  exact wellFormed_of_node? hnode

theorem exists_lookupEntry_of_lookup
    {path : Path} {node : Node} (h : fs.lookup path = .ok node) :
    ∃ entry, fs.lookupEntry path = .ok entry := by
  obtain ⟨place, hlocate, hnode⟩ := lookup_eq_ok_iff.mp h
  have hpath := isFollowable_of_locate hlocate
  rw [locate_of_isFollowable hpath, follow_eq_ok_iff] at hlocate
  obtain ⟨other, hleads, hsome⟩ := hlocate.exists_entry (by simp [hnode])
  obtain ⟨entry, hentry⟩ := Option.isSome_iff_exists.mp hsome
  refine ⟨entry, lookupEntry_eq_ok_iff.mpr ⟨other, ?_, hentry⟩⟩
  rw [locate_of_isFollowable hpath]
  exact follow_of_leads hleads

theorem steps_eq_nil_iff {path : Path} : Path.steps path = [] ↔ Path.pieces path = [] := by
  rw [Path.steps]
  split
  next h => simp [h.2]
  next => rfl

theorem lookup_ne_link (path target : Path) : fs.lookup path ≠ .ok (.link target) := by
  intro h
  obtain ⟨place, hlocate, hnode⟩ := lookup_eq_ok_iff.mp h
  have hpath := isFollowable_of_locate hlocate
  rw [locate_of_isFollowable hpath, follow_eq_ok_iff] at hlocate
  refine hlocate.not_link ?_ target hnode
  intro hsteps other
  have habs : Path.isAbsolute path = true := by
    by_contra hrel
    exact Path.pieces_ne_nil_of_relative hpath.2.1 (by simpa using hrel)
      (steps_eq_nil_iff.mp hsteps)
  simp [startOf, habs, node?, Node.at?]

/-! ## Paths below a directory -/

/-- The pieces of a path that leads to a directory lead there without the final `.`
of a trailing slash. -/
theorem leads_pieces_of_lookup
    {root : Path} {entries : Listing} (h : fs.lookup root = .ok (.directory entries)) :
    IsFollowable root ∧
      ∃ place, fs.Leads true linkLimit (fs.startOf root) (Path.pieces root) place ∧
        fs.node? place = some (.directory entries) := by
  obtain ⟨place, hlocate, hnode⟩ := lookup_eq_ok_iff.mp h
  have hroot := isFollowable_of_locate hlocate
  rw [locate_of_isFollowable hroot, follow_eq_ok_iff, Path.steps] at hlocate
  refine ⟨hroot, place, ?_, hnode⟩
  split at hlocate
  · exact hlocate.of_append_here
  · exact hlocate

theorem leads_of_at?
    {place : Location} {entries found : Listing} {names : List Bytes} (allowance : Nat)
    (hdir : fs.node? place = some (.directory entries))
    (hat : (Node.directory entries).at? names = some (.directory found)) :
    fs.Leads true allowance place names (place ++ names) ∧
      fs.node? (place ++ names) = some (.directory found) := by
  induction names generalizing place entries with
  | nil =>
      rw [Node.at?, Option.some.injEq] at hat
      rw [List.append_nil, ← hat]
      exact ⟨.done, hdir⟩
  | cons name names ih =>
      rw [Node.at?] at hat
      split at hat
      · simp at hat
      next next hfind =>
        obtain ⟨below, rfl⟩ : ∃ below, next = .directory below := by
          cases next with
          | directory below => exact ⟨below, rfl⟩
          | file content => cases names <;> simp [Node.at?] at hat
          | link target => cases names <;> simp [Node.at?] at hat
        have hname : IsEntryName name := ((wellFormed_of_node? hdir).of_find? hfind).1
        have hnext : fs.node? (place ++ [name]) = some (.directory below) := by
          rw [node?_concat hdir, hfind]
        obtain ⟨hleads, hnode⟩ := ih hnext hat
        rw [List.append_assoc, List.singleton_append] at hleads hnode
        exact ⟨.enter hdir (isOrdinary_of_isEntryName hname) hfind (by simp) hleads, hnode⟩

/-- Below a path that can be followed, only the length matters. -/
theorem isFollowable_below
    {root : Path} (hroot : IsFollowable root) {names : List Bytes}
    (hnames : ∀ name ∈ names, IsEntryName name)
    (hlength : (root.below names).length ≤ pathLimit) : IsFollowable (root.below names) := by
  obtain ⟨hnul, hne, -⟩ := hroot
  obtain ⟨back, hback⟩ := Path.prefix_below root hnames
  refine ⟨Path.nul_notMem_below hnul hnames, ?_, hlength⟩
  rw [← hback]
  exact List.append_ne_nil_of_left_ne_nil hne back

section Below

variable
  {root : Path} {entries found : Listing} {names : List Bytes} {name : Bytes}
  (hroot : fs.lookup root = .ok (.directory entries))
  (hat : (Node.directory entries).at? names = some (.directory found))
  (hname : IsEntryName name)
  (hlength : (root.below (names ++ [name])).length ≤ pathLimit)

include hroot hat hname hlength

/-- An entry below a root is searched for in the directory that holds it. -/
theorem locate_below :
    ∃ place left, fs.node? place = some (.directory found) ∧
      ∀ followLast, fs.locate followLast (root.below (names ++ [name])) =
        fs.follow followLast left place [name] := by
  obtain ⟨hfollow, place, hleads, hdir⟩ := leads_pieces_of_lookup hroot
  have hnames : ∀ other ∈ names, IsEntryName other := by
    have hwell : (Node.directory entries).WellFormed := wellFormed_of_lookup hroot
    exact (hwell.of_at? hat).1
  have hall : ∀ other ∈ names ++ [name], IsEntryName other :=
    List.forall_mem_append.mpr ⟨hnames, by simpa using hname⟩
  have hfollowable := isFollowable_below hfollow hall hlength
  have hstart : fs.startOf (root.below (names ++ [name])) = fs.startOf root := by
    rw [startOf, startOf, Path.isAbsolute_below hfollow.2.1 hall]
  obtain ⟨left, hleft⟩ := hleads.follow_append hdir
  obtain ⟨hinner, hfound⟩ := leads_of_at? left hdir hat
  obtain ⟨rest, hrest⟩ := hinner.follow_append hfound
  refine ⟨place ++ names, rest, hfound, fun followLast => ?_⟩
  rw [locate_of_isFollowable hfollowable, hstart, Path.steps_below_concat root hnames hname,
    List.append_assoc, hleft followLast _ (by simp), hrest followLast _ (by simp)]

theorem lookupEntry_below :
    fs.lookupEntry (root.below (names ++ [name])) =
      match found.find? name with
      | some node => .ok node
      | none => .error .notFound := by
  obtain ⟨place, left, hdir, hlocate⟩ := locate_below hroot hat hname hlength
  have hentry : fs.follow false left place [name] = .ok (place ++ [name]) := by
    rw [follow_name hdir (isOrdinary_of_isEntryName hname)]
    split
    · rfl
    · rfl
    · exact follow_nil _ _ _
  cases hfind : found.find? name with
  | none =>
      simp only [lookupEntry, hlocate, hentry, bind, Except.bind, node?_concat hdir, hfind]
  | some node =>
      simp only [lookupEntry, hlocate, hentry, bind, Except.bind, node?_concat hdir, hfind]

theorem lookup_below_file
    {contents : Contents} (hfind : found.find? name = some (.file contents)) :
    fs.lookup (root.below (names ++ [name])) = .ok (.file contents) := by
  obtain ⟨place, left, hdir, hlocate⟩ := locate_below hroot hat hname hlength
  rw [lookup_eq_ok_iff]
  refine ⟨place ++ [name], ?_, by rw [node?_concat hdir, hfind]⟩
  rw [hlocate, follow_name hdir (isOrdinary_of_isEntryName hname), hfind]
  exact follow_nil _ _ _

end Below

end FileSystem

end DeadExports
