import DeadExports.Sources
import DeadExports.Proofs.PathBelow
import Mathlib.Data.List.Lex

/-!
# What a walk comes by, and in which order

The leaves of a tree are its files and links, each given by the names on the way
down to it. A walk that passes over nothing lists the leaves in their order, except
below directories whose path cannot be followed, and a walk with any policy lists
some of them. In a well-formed tree the leaves are in strictly ascending order,
name by name, so that no leaf is listed twice.

Nodes and listings are mutually inductive, and so are the statements about them.
-/

namespace DeadExports

/-- Files and links are what a walk lists. -/
def Node.IsLeaf : Node → Prop
  | .file _ => True
  | .link _ => True
  | .directory _ => False

mutual

/-- The ways from a node down to the leaves, in the order of its listings. -/
def Node.leaves : Node → List (List Bytes)
  | .file _ => [[]]
  | .link _ => [[]]
  | .directory entries => entries.leaves

def Listing.leaves : Listing → List (List Bytes)
  | .nil => []
  | .cons name node rest => node.leaves.map (name :: ·) ++ rest.leaves

end

/-! ## Membership -/

theorem Listing.exists_find?_of_mem_leaves
    {entries : Listing} {names : List Bytes} (h : names ∈ entries.leaves) :
    ∃ name rest, names = name :: rest ∧ (entries.find? name).isSome := by
  induction entries with
  | nil => simp [Listing.leaves] at h
  | cons name node rest ih =>
      rw [Listing.leaves, List.mem_append] at h
      rcases h with h | h
      · obtain ⟨tail, -, rfl⟩ := List.mem_map.mp h
        exact ⟨name, tail, rfl, by simp [Listing.find?]⟩
      · obtain ⟨head, tail, rfl, hfind⟩ := ih h
        refine ⟨head, tail, rfl, ?_⟩
        simp only [Listing.find?]
        split
        · rfl
        · exact hfind

theorem Listing.StartsAfter.lt_of_find?
    {bound name : Bytes} {entries : Listing}
    (h : entries.StartsAfter bound) (hfind : (entries.find? name).isSome) :
    bound < name := by
  induction entries with
  | nil => simp [Listing.find?] at hfind
  | cons other node rest ih =>
      simp only [Listing.find?] at hfind
      split at hfind
      next heq => exact heq ▸ h.1
      next => exact ih h.2 hfind

mutual

/-- The ways to the leaves are those that end at a file or a link. -/
theorem Node.mem_leaves_iff :
    ∀ {node : Node}, node.WellFormed → ∀ names : List Bytes,
      names ∈ node.leaves ↔ ∃ leaf, node.at? names = some leaf ∧ leaf.IsLeaf
  | .file _, _, [] => by simp [Node.leaves, Node.at?, Node.IsLeaf]
  | .file _, _, _ :: _ => by simp [Node.leaves, Node.at?]
  | .link _, _, [] => by simp [Node.leaves, Node.at?, Node.IsLeaf]
  | .link _, _, _ :: _ => by simp [Node.leaves, Node.at?]
  | .directory entries, h, names => by
      rw [Node.leaves]
      exact Listing.mem_leaves_iff h names

theorem Listing.mem_leaves_iff :
    ∀ {entries : Listing}, entries.WellFormed → ∀ names : List Bytes,
      names ∈ entries.leaves ↔
        ∃ leaf, (Node.directory entries).at? names = some leaf ∧ leaf.IsLeaf
  | .nil, _, [] => by simp [Listing.leaves, Node.at?, Node.IsLeaf]
  | .nil, _, _ :: _ => by simp [Listing.leaves, Node.at?, Listing.find?]
  | .cons _ _ rest, _, [] => by
      have hrest : [] ∉ rest.leaves := by
        intro h
        obtain ⟨_, _, hcons, -⟩ := Listing.exists_find?_of_mem_leaves h
        exact absurd hcons (by simp)
      simp [Listing.leaves, Node.at?, Node.IsLeaf, hrest]
  | .cons name node rest, h, head :: tail => by
      obtain ⟨-, hafter, hnode, hrest⟩ := h
      have ihrest := Listing.mem_leaves_iff hrest (head :: tail)
      by_cases heq : name = head
      · subst heq
        have hnot : name :: tail ∉ rest.leaves := by
          intro hmem
          obtain ⟨_, _, hcons, hfind⟩ := Listing.exists_find?_of_mem_leaves hmem
          cases hcons
          exact List.lt_irrefl name (hafter.lt_of_find? hfind)
        simp [Listing.leaves, Node.at?, Listing.find?, hnot, Node.mem_leaves_iff hnode tail]
      · simpa [Listing.leaves, Node.at?, Listing.find?, heq] using ihrest

end

/-! ## Names and order -/

theorem Node.WellFormed.of_at?
    {node found : Node} {names : List Bytes} (h : node.WellFormed)
    (hat : node.at? names = some found) :
    (∀ name ∈ names, IsEntryName name) ∧ found.WellFormed := by
  induction names generalizing node with
  | nil =>
      rw [Node.at?, Option.some.injEq] at hat
      exact ⟨by simp, hat ▸ h⟩
  | cons name names ih =>
      cases node with
      | file content => simp [Node.at?] at hat
      | link target => simp [Node.at?] at hat
      | directory entries =>
          simp only [Node.at?] at hat
          split at hat
          · simp at hat
          next next hfind =>
            obtain ⟨hname, hnext⟩ := Listing.WellFormed.of_find? h hfind
            obtain ⟨hnames, hfound⟩ := ih hnext hat
            exact ⟨List.forall_mem_cons.mpr ⟨hname, hnames⟩, hfound⟩

theorem Listing.isEntryName_of_mem_leaves
    {entries : Listing} (h : entries.WellFormed) {names : List Bytes}
    (hmem : names ∈ entries.leaves) :
    ∀ name ∈ names, IsEntryName name := by
  obtain ⟨leaf, hat, -⟩ := (Listing.mem_leaves_iff h names).mp hmem
  have hdirectory : (Node.directory entries).WellFormed := h
  exact (hdirectory.of_at? hat).1

mutual

/-- The leaves below a node are in strictly ascending order. -/
theorem Node.leaves_pairwise_lt :
    ∀ {node : Node}, node.WellFormed → node.leaves.Pairwise (· < ·)
  | .file _, _ => List.pairwise_singleton _ _
  | .link _, _ => List.pairwise_singleton _ _
  | .directory _, h => Listing.leaves_pairwise_lt h

theorem Listing.leaves_pairwise_lt :
    ∀ {entries : Listing}, entries.WellFormed → entries.leaves.Pairwise (· < ·)
  | .nil, _ => List.Pairwise.nil
  | .cons name node rest, h => by
      obtain ⟨-, hafter, hnode, hrest⟩ := h
      rw [Listing.leaves, List.pairwise_append]
      refine ⟨?_, Listing.leaves_pairwise_lt hrest, ?_⟩
      · rw [List.pairwise_map]
        exact (Node.leaves_pairwise_lt hnode).imp fun hlt => List.cons_lt_cons_self.mpr hlt
      · intro first hfirst second hsecond
        obtain ⟨tail, -, rfl⟩ := List.mem_map.mp hfirst
        obtain ⟨head, others, rfl, hfind⟩ := Listing.exists_find?_of_mem_leaves hsecond
        exact List.cons_lt_cons_iff.mpr (Or.inl (hafter.lt_of_find? hfind))

end

/-! ## Walks -/

namespace Discovery

theorem paths_ofVisits_append (first second : List Visit) :
    (ofVisits (first ++ second)).paths =
      (ofVisits first).paths ++ (ofVisits second).paths := by
  simp [ofVisits]

@[simp] theorem paths_ofVisits_nil : (ofVisits []).paths = [] := rfl

@[simp] theorem paths_ofVisits_entry (path : Path) :
    (ofVisits [.entry path]).paths = [path] := rfl

end Discovery

open Discovery

@[simp] theorem Node.walk_everything_file (contents : Contents) (path : Path) (name : Bytes) :
    (Node.file contents).walk .everything () path name = [.entry path] := rfl

@[simp] theorem Node.walk_everything_link (target path : Path) (name : Bytes) :
    (Node.link target).walk .everything () path name = [.entry path] := rfl

theorem Node.walk_everything_directory (entries : Listing) (path : Path) (name : Bytes) :
    (Node.directory entries).walk .everything () path name =
      if path.length > pathLimit then [.unlisted path]
      else entries.walk .everything () path := rfl

variable {σ : Type}

mutual

/-- A policy only takes paths away, here at and below one entry. -/
theorem Node.walk_paths_sublist (policy : WalkPolicy σ) :
    ∀ (node : Node) (state : σ) (path : Path) (name : Bytes),
      (ofVisits (node.walk policy state path name)).paths.Sublist
        (ofVisits (node.walk .everything () path name)).paths
  | .file _, state, path, name => by
      rw [Node.walk_everything_file, Node.walk]
      split <;> simp
  | .link _, state, path, name => by
      rw [Node.walk_everything_link, Node.walk]
      split <;> simp
  | .directory entries, state, path, name => by
      rw [Node.walk_everything_directory, Node.walk]
      split
      · simp
      · split
        · exact List.Sublist.refl _
        · exact Listing.walk_paths_sublist policy entries (policy.enter state path) path

theorem Listing.walk_paths_sublist (policy : WalkPolicy σ) :
    ∀ (entries : Listing) (state : σ) (directory : Path),
      (ofVisits (entries.walk policy state directory)).paths.Sublist
        (ofVisits (entries.walk .everything () directory)).paths
  | .nil, _, _ => List.Sublist.refl _
  | .cons name node rest, state, directory => by
      rw [Listing.walk, Listing.walk, paths_ofVisits_append, paths_ofVisits_append]
      exact (Node.walk_paths_sublist policy node state (directory.join name) name).append
        (Listing.walk_paths_sublist policy rest state directory)

end

theorem filter_below_eq_nil
    {keep : Path → Bool} (hkeep : ∀ path : Path, path.length > pathLimit → keep path = false)
    {path : Path} (hlong : path.length > pathLimit) {ways : List (List Bytes)}
    (hways : ∀ names ∈ ways, ∀ name ∈ names, IsEntryName name) :
    (ways.map path.below).filter keep = [] := by
  rw [List.filter_eq_nil_iff]
  intro entry hentry
  obtain ⟨names, hnames, rfl⟩ := List.mem_map.mp hentry
  have hle := (Path.prefix_below path (hways names hnames)).length_le
  simp [hkeep _ (Nat.lt_of_lt_of_le hlong hle)]

/-- Entries are passed over by their names alone. -/
def WalkPolicy.byName (hidden : Bytes → Bool) : WalkPolicy Unit where
  enter _ _ := ()
  skips _ _ name _ := hidden name

/-- The ways through names that are not hidden. -/
def visibleWays (hidden : Bytes → Bool) (ways : List (List Bytes)) : List (List Bytes) :=
  ways.filter fun names => names.all (!hidden ·)

@[simp]
theorem visibleWays_singleton_nil (hidden : Bytes → Bool) : visibleWays hidden [[]] = [[]] :=
  rfl

theorem visibleWays_append (hidden : Bytes → Bool) (first second : List (List Bytes)) :
    visibleWays hidden (first ++ second) =
      visibleWays hidden first ++ visibleWays hidden second :=
  List.filter_append first second

theorem visibleWays_map_cons (hidden : Bytes → Bool) (name : Bytes) (ways : List (List Bytes)) :
    visibleWays hidden (ways.map (name :: ·)) =
      if hidden name then [] else (visibleWays hidden ways).map (name :: ·) := by
  rw [visibleWays, visibleWays, List.filter_map]
  split <;> simp [Function.comp_def, *]

/-- Nothing is listed at and below a hidden entry. -/
theorem Node.walk_byName_of_hidden
    {hidden : Bytes → Bool} {name : Bytes} (hname : hidden name = true) (node : Node)
    (path : Path) :
    node.walk (.byName hidden) () path name = [] := by
  cases node <;> rw [Node.walk] <;> exact if_pos hname

mutual

/-- Among the paths short enough to be followed, a walk that goes by names lists the visible
leaves of an entry that is not hidden itself. -/
theorem Node.filter_walk_byName
    {keep : Path → Bool}
    (hkeep : ∀ path : Path, path.length > pathLimit → keep path = false)
    (hidden : Bytes → Bool) {name : Bytes} (hname : hidden name = false) :
    ∀ {node : Node}, node.WellFormed → ∀ path : Path,
      (ofVisits (node.walk (.byName hidden) () path name)).paths.filter keep =
        ((visibleWays hidden node.leaves).map path.below).filter keep
  | .file _, _, path => by simp [Node.walk, WalkPolicy.byName, hname, Node.leaves]
  | .link _, _, path => by simp [Node.walk, WalkPolicy.byName, hname, Node.leaves]
  | .directory entries, h, path => by
      have hskips : (WalkPolicy.byName hidden).skips () path name true = false := hname
      rw [Node.walk, hskips, if_neg Bool.false_ne_true, Node.leaves]
      split
      next hlong =>
        have hways : ∀ names ∈ visibleWays hidden entries.leaves, ∀ other ∈ names,
            IsEntryName other :=
          fun names hnames => Listing.isEntryName_of_mem_leaves h (List.mem_filter.mp hnames).1
        rw [filter_below_eq_nil hkeep hlong hways]
        rfl
      next => exact Listing.filter_walk_byName hkeep hidden h path

/-- Among the paths short enough to be followed, a walk that goes by names lists the visible
leaves of a directory. -/
theorem Listing.filter_walk_byName
    {keep : Path → Bool}
    (hkeep : ∀ path : Path, path.length > pathLimit → keep path = false)
    (hidden : Bytes → Bool) :
    ∀ {entries : Listing}, entries.WellFormed → ∀ directory : Path,
      (ofVisits (entries.walk (.byName hidden) () directory)).paths.filter keep =
        ((visibleWays hidden entries.leaves).map directory.below).filter keep
  | .nil, _, _ => rfl
  | .cons name node rest, h, directory => by
      obtain ⟨-, -, hnode, hrest⟩ := h
      rw [Listing.walk, paths_ofVisits_append, List.filter_append,
        Listing.filter_walk_byName hkeep hidden hrest, Listing.leaves, visibleWays_append,
        visibleWays_map_cons, List.map_append, List.filter_append]
      congr 1
      cases hname : hidden name with
      | true =>
          rw [Node.walk_byName_of_hidden hname]
          rfl
      | false =>
          rw [Node.filter_walk_byName hkeep hidden hname hnode, if_neg Bool.false_ne_true,
            List.map_map]
          rfl

end

/-- Among the paths short enough to be followed, a walk that passes over nothing lists all
leaves of a directory. -/
theorem Listing.filter_walk_everything
    {keep : Path → Bool}
    (hkeep : ∀ path : Path, path.length > pathLimit → keep path = false)
    {entries : Listing} (h : entries.WellFormed) (directory : Path) :
    (ofVisits (entries.walk .everything () directory)).paths.filter keep =
      (entries.leaves.map directory.below).filter keep := by
  have hwalk := Listing.filter_walk_byName hkeep (fun _ => false) h directory
  have hall : visibleWays (fun _ => false) entries.leaves = entries.leaves := by
    simp [visibleWays]
  rwa [hall] at hwalk

end DeadExports
