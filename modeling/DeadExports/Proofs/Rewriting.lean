import DeadExports.FileTree.Edit
import DeadExports.Proofs.SourceListing

/-!
# Rewriting a file

Writing to a file that exists changes its contents and nothing else. To say this of a whole
tree, contents are left out of it: what remains is its outline, and where a path leads can
be seen from the outline alone.

`FileSystem.Rewrites` holds of two trees with the same outline which differ at most in the
contents of the file at one place. Every path leads to the same place in both, and one that
does not lead to that file is read as before.
-/

namespace DeadExports

/-- Two results with the same image are the same error or values with the same image. -/
theorem cases_of_map_eq
    {ε α β : Type} {f : α → β} {first second : Except ε α} (h : first.map f = second.map f) :
    (∃ cause, first = .error cause ∧ second = .error cause) ∨
      ∃ a b, first = .ok a ∧ second = .ok b ∧ f a = f b := by
  cases first with
  | error cause =>
      cases second with
      | error other =>
          cases h
          exact .inl ⟨cause, rfl, rfl⟩
      | ok b => cases h
  | ok a =>
      cases second with
      | error cause => cases h
      | ok b => exact .inr ⟨a, b, rfl, rfl, Except.ok.inj h⟩

/-! ## Outlines -/

mutual

/-- A node without the contents of files. -/
def Node.outline : Node → Node
  | .file _ => .file (.ok [])
  | .link target => .link target
  | .directory entries => .directory entries.outline

def Listing.outline : Listing → Listing
  | .nil => .nil
  | .cons name node rest => .cons name node.outline rest.outline

end

theorem Node.eq_directory_of_outline_eq
    {node : Node} {entries : Listing} (h : node.outline = (Node.directory entries).outline) :
    ∃ others, node = .directory others ∧ others.outline = entries.outline := by
  cases node with
  | file contents => cases h
  | link target => cases h
  | directory others =>
      rw [Node.outline, Node.outline, Node.directory.injEq] at h
      exact ⟨others, rfl, h⟩

theorem Listing.find?_outline (entries : Listing) (name : Bytes) :
    entries.outline.find? name = (entries.find? name).map Node.outline := by
  induction entries with
  | nil => rfl
  | cons other node rest ih =>
      rw [Listing.outline, Listing.find?, Listing.find?, ih]
      split
      · rfl
      · rfl

theorem Node.at?_outline (node : Node) (place : Location) :
    node.outline.at? place = (node.at? place).map Node.outline := by
  induction place generalizing node with
  | nil => cases node <;> rfl
  | cons name place ih =>
      cases node with
      | file contents => rfl
      | link target => rfl
      | directory entries =>
          rw [Node.outline, Node.at?, Node.at?, Listing.find?_outline]
          cases entries.find? name with
          | none => rfl
          | some next => exact ih next

theorem Listing.StartsAfter.outline
    {bound : Bytes} {entries : Listing} (h : entries.StartsAfter bound) :
    entries.outline.StartsAfter bound := by
  induction entries with
  | nil => trivial
  | cons name node rest ih => exact ⟨h.1, ih h.2⟩

mutual

theorem Node.WellFormed.outline : ∀ {node : Node}, node.WellFormed → node.outline.WellFormed
  | .file _, _ => trivial
  | .link _, _ => trivial
  | .directory _, h => Listing.WellFormed.outline h

theorem Listing.WellFormed.outline :
    ∀ {entries : Listing}, entries.WellFormed → entries.outline.WellFormed
  | .nil, _ => trivial
  | .cons _ _ _, ⟨hname, hafter, hnode, hrest⟩ =>
      ⟨hname, hafter.outline, hnode.outline, hrest.outline⟩

end

/-! ## Writing into a listing -/

theorem Listing.find?_insert (entries : Listing) (name other : Bytes) (node : Node) :
    (entries.insert name node).find? other =
      if name = other then some node else entries.find? other := by
  induction entries with
  | nil => rfl
  | cons first found rest ih =>
      rw [Listing.insert]
      split
      next hfirst =>
        subst hfirst
        rw [Listing.find?, Listing.find?]
        split
        · rfl
        · rfl
      next hfirst =>
        split
        next => rw [Listing.find?]
        next =>
          rw [Listing.find?, ih, Listing.find?]
          split
          next hother =>
            subst hother
            rw [if_neg (Ne.symm hfirst)]
          next => rfl

theorem Node.at?_insert
    (entries : Listing) (name other : Bytes) (node : Node) (rest : Location) :
    (Node.directory (entries.insert name node)).at? (other :: rest) =
      if name = other then node.at? rest else (Node.directory entries).at? (other :: rest) := by
  rw [Node.at?, Node.at?, Listing.find?_insert]
  by_cases hname : name = other
  · rw [if_pos hname, if_pos hname]
  · rw [if_neg hname, if_neg hname]

theorem Listing.outline_insert
    {entries : Listing} (h : entries.WellFormed) {name : Bytes} {old node : Node}
    (hfind : entries.find? name = some old) (hnode : node.outline = old.outline) :
    (entries.insert name node).outline = entries.outline := by
  induction entries with
  | nil => cases hfind
  | cons first found rest ih =>
      obtain ⟨-, hafter, -, hrest⟩ := h
      rw [Listing.find?] at hfind
      rw [Listing.insert]
      split at hfind
      next hfirst =>
        cases hfind
        rw [if_pos hfirst, Listing.outline, Listing.outline, hnode, hfirst]
      next hfirst =>
        have hlt : first < name := hafter.lt_of_find? (by rw [hfind]; rfl)
        rw [if_neg hfirst, if_neg (List.lt_asymm hlt), Listing.outline, Listing.outline,
          ih hrest hfind]

section Written

variable {node : Node} {front : Location} {name : Bytes} {old contents : Contents}

theorem Node.outline_updateAt
    (hwell : node.WellFormed) (hat : node.at? (front ++ [name]) = some (.file old)) :
    (node.updateAt (Listing.insert name (.file contents)) front).outline = node.outline := by
  induction front generalizing node with
  | nil =>
      obtain ⟨entries, hnode, hfind⟩ := Node.at?_concat_eq_some_iff.mp hat
      cases hnode
      have hentries : (entries.insert name (.file contents)).outline = entries.outline :=
        Listing.outline_insert hwell hfind rfl
      rw [Node.updateAt, Node.outline, Node.outline, hentries]
  | cons first front ih =>
      cases node with
      | file other => cases hat
      | link target => cases hat
      | directory entries =>
          rw [List.cons_append, Node.at?] at hat
          rw [Node.updateAt]
          cases hfind : entries.find? first with
          | none => rfl
          | some next =>
              rw [hfind] at hat
              have hnext : next.WellFormed := (Listing.WellFormed.of_find? hwell hfind).2
              dsimp only
              rw [Node.outline, Node.outline, Listing.outline_insert hwell hfind (ih hnext hat)]

/-- All other files have the contents that they had. -/
theorem Node.at?_updateAt_eq_file_iff
    (hat : node.at? (front ++ [name]) = some (.file old))
    {other : Location} (hother : other ≠ front ++ [name]) {kept : Contents} :
    (node.updateAt (Listing.insert name (.file contents)) front).at? other = some (.file kept) ↔
      node.at? other = some (.file kept) := by
  induction front generalizing node other with
  | nil =>
      obtain ⟨entries, hnode, hfind⟩ := Node.at?_concat_eq_some_iff.mp hat
      cases hnode
      rw [Node.updateAt]
      cases other with
      | nil => simp [Node.at?]
      | cons first rest =>
          rw [Node.at?_insert]
          by_cases hfirst : name = first
          · -- Nothing is below a file, neither the old one nor the new one.
            subst hfirst
            have hrest : rest ≠ [] := by
              rintro rfl
              exact hother rfl
            obtain ⟨second, rest, rfl⟩ := List.exists_cons_of_ne_nil hrest
            rw [if_pos rfl, Node.at?, hfind]
            rfl
          · rw [if_neg hfirst]
  | cons first front ih =>
      cases node with
      | file other => cases hat
      | link target => cases hat
      | directory entries =>
          rw [List.cons_append, Node.at?] at hat
          rw [Node.updateAt]
          cases hfind : entries.find? first with
          | none => rfl
          | some next =>
              rw [hfind] at hat
              cases other with
              | nil => simp [Node.at?]
              | cons second rest =>
                  dsimp only
                  rw [Node.at?_insert]
                  by_cases hsecond : first = second
                  · subst hsecond
                    have hrest : rest ≠ front ++ [name] := by
                      rintro rfl
                      exact hother rfl
                    rw [if_pos rfl, Node.at?, hfind]
                    exact ih hat hrest
                  · rw [if_neg hsecond]

end Written

namespace FileSystem

variable {fs changed : FileSystem}

theorem updateAt_top
    (fs : FileSystem) (place : Location) (change : Listing → Listing)
    (hchange : ∀ entries : Listing, entries.WellFormed → (change entries).WellFormed) :
    Node.directory (fs.updateAt place change hchange).top =
        (Node.directory fs.top).updateAt change place ∧
      (fs.updateAt place change hchange).current = fs.current := by
  have hdir : ∃ entries, (Node.directory fs.top).updateAt change place = .directory entries := by
    cases place with
    | nil => exact ⟨_, rfl⟩
    | cons name rest =>
        rw [Node.updateAt]
        split
        · exact ⟨_, rfl⟩
        · exact ⟨_, rfl⟩
  obtain ⟨entries, hentries⟩ := hdir
  rw [updateAt]
  split
  next found hfound => exact ⟨hfound.symm, rfl⟩
  next hnot => exact absurd hentries (hnot entries)

/-- One tree comes from another by changing at most the contents of the file at a place. -/
structure Rewrites (place : Location) (fs changed : FileSystem) : Prop where
  current : changed.current = fs.current
  outline : changed.top.outline = fs.top.outline
  contents : ∀ {other : Location} {kept : Contents}, other ≠ place →
    (changed.node? other = some (.file kept) ↔ fs.node? other = some (.file kept))

theorem canonical_eq_ok_iff {path : Path} {place : Location} :
    fs.canonical path = .ok place ↔
      fs.locate true path = .ok place ∧ (fs.node? place).isSome = true := by
  rw [canonical]
  cases fs.locate true path with
  | error cause => simp [bind, Except.bind]
  | ok other =>
      simp only [bind, Except.bind, Except.ok.injEq]
      split
      next hsome =>
        constructor
        · intro h
          cases h
          exact ⟨rfl, hsome⟩
        · rintro ⟨rfl, -⟩
          rfl
      next hnone =>
        simp only [reduceCtorEq, false_iff, not_and]
        rintro rfl
        exact hnone

theorem rewrites_of_write
    {path : Path} {place : Location} {old contents : Contents}
    (hplace : fs.canonical path = .ok place) (hnode : fs.node? place = some (.file old))
    (hwrite : fs.write path contents = .ok changed) : Rewrites place fs changed := by
  have hput : changed = fs.put place (.file contents) := by
    rw [write, (canonical_eq_ok_iff.mp hplace).1] at hwrite
    simpa [bind, Except.bind, hnode] using hwrite.symm
  obtain ⟨front, name, rfl⟩ : ∃ front name, place = front ++ [name] := by
    rcases List.eq_nil_or_concat' place with rfl | hconcat
    · cases hnode
    · exact hconcat
  have hname : IsEntryName name := by
    have htop : (Node.directory fs.top).WellFormed := fs.wellFormed
    exact (htop.of_at? hnode).1 name (by simp)
  simp only [put, List.getLast?_concat, dif_pos hname, List.dropLast_concat] at hput
  obtain ⟨htop, hcurrent⟩ :=
    updateAt_top fs front (Listing.insert name (.file contents)) fun _ h => h.insert hname trivial
  rw [← hput] at htop hcurrent
  refine ⟨hcurrent, ?_, ?_⟩
  · have houtline : (Node.directory changed.top).outline = (Node.directory fs.top).outline := by
      rw [htop]
      exact Node.outline_updateAt fs.wellFormed hnode
    rwa [Node.outline, Node.outline, Node.directory.injEq] at houtline
  · intro other kept hother
    rw [node?, htop]
    exact Node.at?_updateAt_eq_file_iff hnode hother

/-! ## Where paths lead -/

def outlined (fs : FileSystem) : FileSystem where
  top := fs.top.outline
  current := fs.current
  wellFormed := fs.wellFormed.outline

theorem node?_outlined (place : Location) :
    fs.outlined.node? place = (fs.node? place).map Node.outline :=
  Node.at?_outline (.directory fs.top) place

theorem descend_outlined
    (followLast : Bool) (onLink : Location → Path → List Bytes → Except FileError Location)
    (place : Location) (steps : List Bytes) :
    fs.outlined.descend followLast onLink place steps =
      fs.descend followLast onLink place steps := by
  induction steps generalizing place with
  | nil => rfl
  | cons name rest ih =>
      rw [descend, descend, node?_outlined]
      cases fs.node? place with
      | none => rfl
      | some node =>
          cases node with
          | file contents => rfl
          | link target => rfl
          | directory entries =>
              simp only [Option.map_some, Node.outline, Listing.find?_outline, ih]
              cases entries.find? name with
              | none => rfl
              | some next => cases next <;> rfl

theorem follow_outlined (followLast : Bool) (allowance : Nat) :
    fs.outlined.follow followLast allowance = fs.follow followLast allowance := by
  induction allowance with
  | zero =>
      funext place steps
      exact descend_outlined followLast _ place steps
  | succ allowance ih =>
      funext place steps
      rw [follow, follow, ih]
      exact descend_outlined followLast _ place steps

theorem locate_outlined (followLast : Bool) (path : Path) :
    fs.outlined.locate followLast path = fs.locate followLast path := by
  rw [locate, locate, follow_outlined]
  rfl

theorem lookup_outlined (path : Path) :
    fs.outlined.lookup path = (fs.lookup path).map Node.outline := by
  rw [lookup, lookup, locate_outlined]
  cases fs.locate true path with
  | error cause => rfl
  | ok place =>
      simp only [bind, Except.bind, node?_outlined]
      cases fs.node? place <;> rfl

theorem lookupEntry_outlined (path : Path) :
    fs.outlined.lookupEntry path = (fs.lookupEntry path).map Node.outline := by
  rw [lookupEntry, lookupEntry, locate_outlined]
  cases fs.locate false path with
  | error cause => rfl
  | ok place =>
      simp only [bind, Except.bind, node?_outlined]
      cases fs.node? place <;> rfl

theorem canonical_outlined (path : Path) : fs.outlined.canonical path = fs.canonical path := by
  simp only [canonical, locate_outlined, node?_outlined, Option.isSome_map]

theorem isFile_outlined (path : Path) : fs.outlined.isFile path = fs.isFile path := by
  rw [isFile, isFile, lookup_outlined]
  cases fs.lookup path with
  | error cause => rfl
  | ok node => cases node <;> rfl

namespace Rewrites

variable {place : Location} (h : Rewrites place fs changed)

include h

theorem outlined_eq : changed.outlined = fs.outlined := by
  simp only [outlined, h.outline, h.current]

theorem locate_eq (followLast : Bool) (path : Path) :
    changed.locate followLast path = fs.locate followLast path := by
  rw [← locate_outlined, h.outlined_eq, locate_outlined]

theorem canonical_eq (path : Path) : changed.canonical path = fs.canonical path := by
  rw [← canonical_outlined, h.outlined_eq, canonical_outlined]

theorem isFile_eq (path : Path) : changed.isFile path = fs.isFile path := by
  rw [← isFile_outlined, h.outlined_eq, isFile_outlined]

theorem lookup_outline (path : Path) :
    (changed.lookup path).map Node.outline = (fs.lookup path).map Node.outline := by
  rw [← lookup_outlined, h.outlined_eq, lookup_outlined]

theorem lookupEntry_outline (path : Path) :
    (changed.lookupEntry path).map Node.outline = (fs.lookupEntry path).map Node.outline := by
  rw [← lookupEntry_outlined, h.outlined_eq, lookupEntry_outlined]

/-- A path that does not lead to the rewritten file leads to the same file as before, if
to a file at all. -/
theorem lookup_eq_file_iff
    {path : Path} (hpath : fs.canonical path ≠ .ok place) {contents : Contents} :
    changed.lookup path = .ok (.file contents) ↔ fs.lookup path = .ok (.file contents) := by
  rw [lookup_eq_ok_iff, lookup_eq_ok_iff]
  refine exists_congr fun other => ?_
  rw [h.locate_eq]
  refine and_congr_right fun hlocate => ?_
  by_cases hother : other = place
  · subst hother
    have hnone : fs.node? other = none := by
      rw [← Option.not_isSome_iff_eq_none]
      exact fun hsome => hpath (canonical_eq_ok_iff.mpr ⟨hlocate, hsome⟩)
    have hchanged : changed.node? other = none := by
      rw [← Option.map_eq_none_iff (f := Node.outline), ← node?_outlined, h.outlined_eq,
        node?_outlined, hnone]
      rfl
    rw [hnone, hchanged]
  · exact h.contents hother

/-- A path that does not lead to the rewritten file leads to the same error or the same file
as before, or still to a directory. -/
theorem lookup_cases {path : Path} (hpath : fs.canonical path ≠ .ok place) :
    (∃ cause, fs.lookup path = .error cause ∧ changed.lookup path = .error cause) ∨
    (∃ contents, fs.lookup path = .ok (.file contents) ∧
      changed.lookup path = .ok (.file contents)) ∨
    (∃ entries others, fs.lookup path = .ok (.directory entries) ∧
      changed.lookup path = .ok (.directory others)) := by
  rcases cases_of_map_eq (h.lookup_outline path) with
    ⟨cause, hafter, hbefore⟩ | ⟨node, old, hafter, hbefore, houtline⟩
  · exact .inl ⟨cause, hbefore, hafter⟩
  cases old with
  | file contents => exact .inr (.inl ⟨contents, hbefore, (h.lookup_eq_file_iff hpath).mpr hbefore⟩)
  | link target => exact absurd hbefore (lookup_ne_link path target)
  | directory entries =>
      obtain ⟨others, rfl, -⟩ := Node.eq_directory_of_outline_eq houtline
      exact .inr (.inr ⟨entries, others, hbefore, hafter⟩)

theorem read_eq {path : Path} (hpath : fs.canonical path ≠ .ok place) :
    changed.read path = fs.read path := by
  rw [read, read]
  rcases h.lookup_cases hpath with
    ⟨cause, hbefore, hafter⟩ | ⟨contents, hbefore, hafter⟩ | ⟨entries, others, hbefore, hafter⟩
  · rw [hbefore, hafter]
  · rw [hbefore, hafter]
  · rw [hbefore, hafter]
    rfl

end Rewrites

end FileSystem

end DeadExports
