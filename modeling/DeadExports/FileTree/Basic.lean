import DeadExports.Path

/-!
# File trees

A file tree is a finite tree of directories, regular files and symbolic links.
A directory lists its entries in ascending order of their names, compared byte
by byte, each name once: `Listing.insert` keeps that order, so a walk never has
to sort. Nodes and listings are defined together, and every function on them
follows that structure. A file that is there can still refuse to be read.

A file system carries the proof that its tree is well formed: every name is one
that a directory can hold, and every listing is in order. All changes to a tree go
through `FileSystem.updateAt`, which asks for a change that keeps listings well
formed.
-/

namespace DeadExports

def nameLimit : Nat := 255

structure IsEntryName (name : Bytes) : Prop where
  ne_nil : name ≠ []
  slash_notMem : Path.slash ∉ name
  nul_notMem : 0 ∉ name
  ne_here : name ≠ Path.here
  ne_up : name ≠ Path.up
  length_le : name.length ≤ nameLimit

instance (name : Bytes) : Decidable (IsEntryName name) :=
  decidable_of_iff
    (name ≠ [] ∧ Path.slash ∉ name ∧ 0 ∉ name ∧ name ≠ Path.here ∧ name ≠ Path.up ∧
      name.length ≤ nameLimit)
    ⟨fun ⟨hnil, hslash, hnul, hhere, hup, hlength⟩ => ⟨hnil, hslash, hnul, hhere, hup, hlength⟩,
      fun ⟨hnil, hslash, hnul, hhere, hup, hlength⟩ => ⟨hnil, hslash, hnul, hhere, hup, hlength⟩⟩

inductive ReadFault where
  | permissionDenied
  | inputOutput
  deriving DecidableEq, Repr

abbrev Contents := Except ReadFault Bytes

mutual

inductive Node where
  | file (contents : Contents)
  | link (target : Path)
  | directory (entries : Listing)

inductive Listing where
  | nil
  | cons (name : Bytes) (node : Node) (rest : Listing)

end

instance : Inhabited Node := ⟨.file (.ok [])⟩

instance : Inhabited Listing := ⟨.nil⟩

/-- The names from the top of a tree down to one of its nodes, without links,
`.` or `..`. -/
abbrev Location := List Bytes

namespace Listing

/-- Induction along the entries of one directory, whatever the nodes are. -/
@[elab_as_elim, induction_eliminator]
theorem entries_induction
    {motive : Listing → Prop}
    (nil : motive .nil)
    (cons : ∀ name node rest, motive rest → motive (.cons name node rest)) :
    ∀ entries, motive entries
  | .nil => nil
  | .cons name node rest => cons name node rest (entries_induction nil cons rest)

def toList : Listing → List (Bytes × Node)
  | .nil => []
  | .cons name node rest => (name, node) :: rest.toList

def find? (wanted : Bytes) : Listing → Option Node
  | .nil => none
  | .cons name node rest => if name = wanted then some node else rest.find? wanted

def insert (newName : Bytes) (newNode : Node) : Listing → Listing
  | .nil => .cons newName newNode .nil
  | .cons name node rest =>
      if name = newName then .cons newName newNode rest
      else if newName < name then .cons newName newNode (.cons name node rest)
      else .cons name node (rest.insert newName newNode)

def erase (unwanted : Bytes) : Listing → Listing
  | .nil => .nil
  | .cons name node rest =>
      if name = unwanted then rest else .cons name node (rest.erase unwanted)

def StartsAfter (bound : Bytes) : Listing → Prop
  | .nil => True
  | .cons name _ rest => bound < name ∧ rest.StartsAfter bound

instance decidableStartsAfter (bound : Bytes) :
    (entries : Listing) → Decidable (entries.StartsAfter bound)
  | .nil => .isTrue trivial
  | .cons name _ rest =>
      have := decidableStartsAfter bound rest
      inferInstanceAs (Decidable (bound < name ∧ rest.StartsAfter bound))

end Listing

namespace Node

def at? : Node → Location → Option Node
  | node, [] => some node
  | .directory entries, name :: rest =>
      match entries.find? name with
      | none => none
      | some node => node.at? rest
  | _, _ :: _ => none

/-- Changes the entries of the directory at a location; without such a directory
nothing changes. -/
def updateAt (change : Listing → Listing) : Node → Location → Node
  | .directory entries, [] => .directory (change entries)
  | .directory entries, name :: rest =>
      match entries.find? name with
      | none => .directory entries
      | some node => .directory (entries.insert name (node.updateAt change rest))
  | node, _ => node

end Node

/-! ## Well-formed trees -/

mutual

def Node.WellFormed : Node → Prop
  | .file _ => True
  | .link _ => True
  | .directory entries => entries.WellFormed

/-- Names are entry names in strictly ascending order, here and below. -/
def Listing.WellFormed : Listing → Prop
  | .nil => True
  | .cons name node rest =>
      IsEntryName name ∧ rest.StartsAfter name ∧ node.WellFormed ∧ rest.WellFormed

end

mutual

def Node.decidableWellFormed : (node : Node) → Decidable node.WellFormed
  | .file _ => .isTrue trivial
  | .link _ => .isTrue trivial
  | .directory entries => entries.decidableWellFormed

def Listing.decidableWellFormed : (entries : Listing) → Decidable entries.WellFormed
  | .nil => .isTrue trivial
  | .cons name node rest =>
      have := node.decidableWellFormed
      have := rest.decidableWellFormed
      inferInstanceAs
        (Decidable
          (IsEntryName name ∧ rest.StartsAfter name ∧ node.WellFormed ∧ rest.WellFormed))

end

instance (node : Node) : Decidable node.WellFormed := node.decidableWellFormed

instance (entries : Listing) : Decidable entries.WellFormed := entries.decidableWellFormed

namespace Listing

theorem StartsAfter.trans
    {bound name : Bytes} {entries : Listing}
    (hlt : bound < name) (h : entries.StartsAfter name) :
    entries.StartsAfter bound := by
  induction entries with
  | nil => trivial
  | cons other node rest ih => exact ⟨List.lt_trans hlt h.1, ih h.2⟩

theorem StartsAfter.insert
    {bound newName : Bytes} {newNode : Node} {entries : Listing}
    (hlt : bound < newName) (h : entries.StartsAfter bound) :
    (entries.insert newName newNode).StartsAfter bound := by
  induction entries with
  | nil => exact ⟨hlt, trivial⟩
  | cons name node rest ih =>
      simp only [Listing.insert]
      split
      · exact ⟨hlt, h.2⟩
      · split
        · exact ⟨hlt, h⟩
        · exact ⟨h.1, ih h.2⟩

theorem StartsAfter.erase
    {bound unwanted : Bytes} {entries : Listing}
    (h : entries.StartsAfter bound) :
    (entries.erase unwanted).StartsAfter bound := by
  induction entries with
  | nil => trivial
  | cons name node rest ih =>
      simp only [Listing.erase]
      split
      · exact h.2
      · exact ⟨h.1, ih h.2⟩

theorem WellFormed.insert
    {newName : Bytes} {newNode : Node} {entries : Listing}
    (hname : IsEntryName newName) (hnode : newNode.WellFormed)
    (h : entries.WellFormed) :
    (entries.insert newName newNode).WellFormed := by
  induction entries with
  | nil => exact ⟨hname, trivial, hnode, trivial⟩
  | cons name node rest ih =>
      obtain ⟨hentry, hafter, hold, hrest⟩ := h
      simp only [Listing.insert]
      split
      next heq =>
        subst heq
        exact ⟨hname, hafter, hnode, hrest⟩
      next hne =>
        split
        next hlt => exact ⟨hname, ⟨hlt, hafter.trans hlt⟩, hnode, hentry, hafter, hold, hrest⟩
        next hnlt =>
          have hlt : name < newName :=
            Decidable.byContradiction fun hge =>
              hne (List.le_antisymm (List.not_lt.mp hnlt) (List.not_lt.mp hge))
          exact ⟨hentry, hafter.insert hlt, hold, ih hrest⟩

theorem WellFormed.erase
    {unwanted : Bytes} {entries : Listing} (h : entries.WellFormed) :
    (entries.erase unwanted).WellFormed := by
  induction entries with
  | nil => trivial
  | cons name node rest ih =>
      obtain ⟨hentry, hafter, hnode, hrest⟩ := h
      simp only [Listing.erase]
      split
      · exact hrest
      · exact ⟨hentry, hafter.erase, hnode, ih hrest⟩

/-- What a well-formed listing finds under a name is well formed, and the name is
one that a directory can hold. -/
theorem WellFormed.of_find?
    {name : Bytes} {node : Node} {entries : Listing}
    (h : entries.WellFormed) (hfind : entries.find? name = some node) :
    IsEntryName name ∧ node.WellFormed := by
  induction entries with
  | nil => simp [Listing.find?] at hfind
  | cons other found rest ih =>
      obtain ⟨hentry, -, hnode, hrest⟩ := h
      simp only [Listing.find?] at hfind
      split at hfind
      next heq =>
        cases hfind
        exact ⟨heq ▸ hentry, hnode⟩
      next => exact ih hrest hfind

end Listing

theorem Node.WellFormed.updateAt
    {change : Listing → Listing}
    (hchange : ∀ entries : Listing, entries.WellFormed → (change entries).WellFormed)
    {node : Node} (h : node.WellFormed) (place : Location) :
    (node.updateAt change place).WellFormed := by
  induction place generalizing node with
  | nil =>
      cases node with
      | file contents => exact h
      | link target => exact h
      | directory entries => exact hchange entries h
  | cons name rest ih =>
      cases node with
      | file contents => exact h
      | link target => exact h
      | directory entries =>
          simp only [Node.updateAt]
          split
          · exact h
          next found hfind =>
            obtain ⟨hname, hfound⟩ := Listing.WellFormed.of_find? h hfind
            exact Listing.WellFormed.insert hname (ih hfound) h

/-- A file tree seen from a current directory. -/
structure FileSystem where
  top : Listing
  current : Location
  wellFormed : top.WellFormed

def FileSystem.node? (fs : FileSystem) (place : Location) : Option Node :=
  (Node.directory fs.top).at? place

def FileSystem.updateAt
    (fs : FileSystem) (place : Location) (change : Listing → Listing)
    (hchange : ∀ entries : Listing, entries.WellFormed → (change entries).WellFormed) :
    FileSystem :=
  match h : (Node.directory fs.top).updateAt change place with
  | .directory entries =>
      have htop : (Node.directory fs.top).WellFormed := fs.wellFormed
      have hwell : (Node.directory entries).WellFormed := h ▸ htop.updateAt hchange place
      { fs with top := entries, wellFormed := hwell }
  | _ => fs

def Location.path (place : Location) : Path :=
  match place with
  | [] => [Path.slash]
  | _ => place.flatMap (Path.slash :: ·)

end DeadExports
