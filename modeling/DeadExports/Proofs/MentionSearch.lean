import DeadExports.Proofs.CacheHistory

/-!
# One search for a mention

A search goes through the files of a corpus other than the exporting one and stops at the first
that mentions the name. It asks a cache for their texts, so it sees what the cache remembers, and
of everything else what the first spelling of a path leads to. That view of the files is settled
before the search begins: a request adds one entry to the cache and changes no other, and the
entry holds what the view shows. So the search is a plain search among the views, and what it
leaves in the cache are the requests up to its first hit.

If every path has one spelling and the cache was filled from the same tree, the view of a file is
its text. Then neither the order of the corpus nor the cache matters.
-/

namespace DeadExports

/-- What the first of some paths with a given key reads. -/
def FileSystem.firstRead? (fs : FileSystem) (paths : List Path) (key : Path.Key) : Option Text :=
  (paths.find? fun path => path.key = key).map fs.sourceText

theorem FileSystem.firstRead?_cons
    (fs : FileSystem) (path : Path) (paths : List Path) (key : Path.Key) :
    fs.firstRead? (path :: paths) key =
      if path.key = key then some (fs.sourceText path) else fs.firstRead? paths key := by
  rw [firstRead?, List.find?_cons]
  by_cases hkey : path.key = key <;> simp [hkey, firstRead?]

theorem FileSystem.exists_of_firstRead?_eq_some
    {fs : FileSystem} {paths : List Path} {key : Path.Key} {text : Text}
    (h : fs.firstRead? paths key = some text) :
    ∃ path ∈ paths, path.key = key ∧ text = fs.sourceText path := by
  obtain ⟨path, hfind, rfl⟩ := Option.map_eq_some_iff.mp h
  exact ⟨path, List.mem_of_find?_eq_some hfind, by simpa using List.find?_some hfind, rfl⟩

theorem FileSystem.exists_firstRead?_of_mem
    (fs : FileSystem) {paths : List Path} {path : Path} (h : path ∈ paths) :
    ∃ text, fs.firstRead? paths path.key = some text := by
  have hsome : (paths.find? fun other => other.key = path.key).isSome := by
    rw [List.find?_isSome]
    exact ⟨path, h, by simp⟩
  obtain ⟨first, hfirst⟩ := Option.isSome_iff_exists.mp hsome
  exact ⟨fs.sourceText first, by rw [firstRead?, hfirst, Option.map_some]⟩

theorem FileSystem.firstRead?_of_prefix
    {fs : FileSystem} {front paths : List Path} (hfront : front <+: paths)
    {key : Path.Key} {text : Text} (h : fs.firstRead? front key = some text) :
    fs.firstRead? paths key = some text := by
  obtain ⟨first, hfirst, rfl⟩ := Option.map_eq_some_iff.mp h
  rw [firstRead?, List.IsPrefix.find?_eq_some hfront hfirst, Option.map_some]

namespace SourceCache

/-! ## Requests in a row -/

/-- The cache after some paths have been requested, one after the other. -/
def requestAll (cache : SourceCache) (fs : FileSystem) (paths : List Path) : SourceCache :=
  paths.foldl (fun cache path => (cache.text fs path).cache) cache

/-- What requests of some paths show of a path: the text that the cache remembers, or else what
the first request of its key reads. -/
def view (cache : SourceCache) (fs : FileSystem) (paths : List Path) (path : Path) : Text :=
  ((cache.find? path).or (fs.firstRead? paths path.key)).getD []

variable {fs : FileSystem} {cache : SourceCache}

theorem requestAll_cons (path : Path) (paths : List Path) :
    cache.requestAll fs (path :: paths) = (cache.text fs path).cache.requestAll fs paths := rfl

theorem find?_of_key_eq {path other : Path} (h : path.key = other.key) :
    cache.find? path = cache.find? other := by
  rw [find?, find?, h]

theorem text_eq_getD (path : Path) :
    (cache.text fs path).text = (cache.find? path).getD (fs.sourceText path) := by
  rw [text]
  cases cache.find? path with
  | some remembered => rfl
  | none => exact loaded_readText fs path

theorem cache_text_of_find?_eq_some
    {path : Path} {remembered : Text} (h : cache.find? path = some remembered) :
    (cache.text fs path).cache = cache := by
  simp only [text, h]

theorem cache_text_of_find?_eq_none {path : Path} (h : cache.find? path = none) :
    (cache.text fs path).cache = cache.insert path (fs.sourceText path) := by
  simp only [text, h, loaded_readText]

/-- A request keeps what is remembered and adds what it reads. -/
theorem find?_text (path other : Path) :
    (cache.text fs path).cache.find? other =
      (cache.find? other).or
        (if path.key = other.key then some (fs.sourceText path) else none) := by
  cases hfind : cache.find? path with
  | some remembered =>
      rw [cache_text_of_find?_eq_some hfind]
      split
      next hkey =>
        rw [← find?_of_key_eq hkey, hfind]
        rfl
      next => rw [Option.or_none]
  | none =>
      rw [cache_text_of_find?_eq_none hfind]
      split
      next hkey =>
        rw [find?_insert_of_key_eq _ _ hkey.symm, ← find?_of_key_eq hkey, hfind]
        rfl
      next hkey => rw [find?_insert_of_key_ne _ _ (Ne.symm hkey), Option.or_none]

/-- After some requests the cache remembers what it did before, and of every other path what the
first request of its key has read. -/
theorem find?_requestAll (paths : List Path) (path : Path) :
    (cache.requestAll fs paths).find? path =
      (cache.find? path).or (fs.firstRead? paths path.key) := by
  induction paths generalizing cache with
  | nil => exact Option.or_none.symm
  | cons first rest ih =>
      rw [requestAll_cons, ih, find?_text, Option.or_assoc, FileSystem.firstRead?_cons]
      split <;> rfl

theorem view_eq (paths : List Path) (path : Path) :
    cache.view fs paths path = ((cache.requestAll fs paths).find? path).getD [] := by
  rw [view, find?_requestAll]

/-- What requests show stays the same when the first of them is made. -/
theorem view_text (path : Path) (paths : List Path) :
    (cache.text fs path).cache.view fs paths = cache.view fs (path :: paths) := by
  funext other
  rw [view_eq, view_eq, requestAll_cons]

theorem view_head (path : Path) (paths : List Path) :
    cache.view fs (path :: paths) path = (cache.text fs path).text := by
  rw [view, text_eq_getD, FileSystem.firstRead?_cons, if_pos rfl]
  cases cache.find? path <;> rfl

/-- Requests add one entry for each key that the cache does not know, with what the first of
them reads, and leave all other entries alone. -/
theorem exists_entries_requestAll (fs : FileSystem) (cache : SourceCache) (paths : List Path) :
    ∃ added : List (Path.Key × Text),
      (cache.requestAll fs paths).entries = added ++ cache.entries ∧
        (added.map Prod.fst).Nodup ∧
        ∀ key text, (key, text) ∈ added ↔
          key ∉ cache.entries.map Prod.fst ∧ fs.firstRead? paths key = some text := by
  induction paths generalizing cache with
  | nil => exact ⟨[], rfl, List.nodup_nil, fun key text => by simp [FileSystem.firstRead?]⟩
  | cons path paths ih =>
      obtain ⟨added, hentries, hnodup, hmem⟩ := ih (cache.text fs path).cache
      cases hfind : cache.find? path with
      | some remembered =>
          rw [cache_text_of_find?_eq_some hfind] at hentries hmem
          have hknown : path.key ∈ cache.entries.map Prod.fst := by
            by_contra hnew
            rw [find?_eq_none_iff.mpr hnew] at hfind
            cases hfind
          refine ⟨added, ?_, hnodup, fun key text => ?_⟩
          · rw [requestAll_cons, cache_text_of_find?_eq_some hfind, hentries]
          · rw [hmem, FileSystem.firstRead?_cons]
            refine and_congr_right fun hnew => ?_
            have hkey : path.key ≠ key := fun hkey => hnew (hkey ▸ hknown)
            rw [if_neg hkey]
      | none =>
          have hnew : path.key ∉ cache.entries.map Prod.fst := find?_eq_none_iff.mp hfind
          have hafter : (cache.text fs path).cache.entries =
              (path.key, fs.sourceText path) :: cache.entries := by
            rw [cache_text_of_find?_eq_none hfind, entries_insert_of_find?_eq_none hfind]
          rw [hafter] at hentries
          simp only [hafter, List.map_cons, List.mem_cons, not_or] at hmem
          refine ⟨added ++ [(path.key, fs.sourceText path)], ?_, ?_, fun key text => ?_⟩
          · rw [requestAll_cons, hentries, List.append_assoc]
            rfl
          · rw [List.map_append, List.map_singleton, List.nodup_append_comm, List.singleton_append,
              List.nodup_cons]
            refine ⟨fun hadded => ?_, hnodup⟩
            obtain ⟨⟨key, text⟩, hentry, hkey⟩ := List.mem_map.mp hadded
            exact ((hmem key text).mp hentry).1.1 hkey
          · rw [List.mem_append, hmem, List.mem_singleton, Prod.mk.injEq,
              FileSystem.firstRead?_cons]
            by_cases hkey : path.key = key
            · subst hkey
              simp [hnew, eq_comm]
            · rw [if_neg hkey]
              simp [Ne.symm hkey]

end SourceCache

/-! ## The search -/

/-- The elements of a list up to and including the first with a property, or all if there is
none. -/
def throughFirst {α : Type} (p : α → Bool) (list : List α) : List α :=
  list.take (list.findIdx p + 1)

theorem throughFirst_cons {α : Type} (p : α → Bool) (a : α) (list : List α) :
    throughFirst p (a :: list) = a :: if p a then [] else throughFirst p list := by
  rw [throughFirst, List.take_succ_cons, List.findIdx_cons]
  cases p a <;> rfl

/-- The files of a corpus among which an export is searched: all but its own. -/
def ExportRecord.otherFiles (record : ExportRecord) (corpus : List Path) : List Path :=
  corpus.filter fun path => path.key ≠ record.file.key

theorem ExportRecord.mem_otherFiles
    {record : ExportRecord} {corpus : List Path} {path : Path} :
    path ∈ record.otherFiles corpus ↔ path ∈ corpus ∧ path.key ≠ record.file.key := by
  simp [otherFiles]

/-- The files that a search looks at, one after the other. -/
def searchedFiles
    (fs : FileSystem) (record : ExportRecord) (cache : SourceCache) (corpus : List Path) :
    List Path :=
  throughFirst (fun path => occursIn record.name (cache.view fs (record.otherFiles corpus) path))
    (record.otherFiles corpus)

/-- A search is a search among the views, and leaves the requests that it took. -/
theorem searchMention_eq
    (fs : FileSystem) (record : ExportRecord) (cache : SourceCache) (corpus : List Path) :
    (searchMention fs record cache corpus).found =
        (record.otherFiles corpus).any (fun path =>
          occursIn record.name (cache.view fs (record.otherFiles corpus) path)) ∧
      (searchMention fs record cache corpus).cache =
        cache.requestAll fs (searchedFiles fs record cache corpus) := by
  induction corpus generalizing cache with
  | nil => exact ⟨rfl, rfl⟩
  | cons path corpus ih =>
      by_cases hkey : path.key = record.file.key
      · have hothers : record.otherFiles (path :: corpus) = record.otherFiles corpus := by
          simp [ExportRecord.otherFiles, hkey]
        have hsame : path.same record.file = true := by
          simp [Path.same, hkey]
        rw [searchedFiles, hothers, searchMention, if_pos hsame]
        exact ih cache
      · have hothers : record.otherFiles (path :: corpus) =
            path :: record.otherFiles corpus := by
          simp [ExportRecord.otherFiles, hkey]
        have hsame : ¬path.same record.file = true := by
          simp [Path.same, hkey]
        obtain ⟨hfound, hcache⟩ := ih (cache.text fs path).cache
        rw [searchedFiles, SourceCache.view_text] at hcache
        rw [SourceCache.view_text] at hfound
        rw [searchedFiles, hothers, searchMention, if_neg hsame, throughFirst_cons, List.any_cons,
          SourceCache.view_head, SourceCache.requestAll_cons]
        dsimp only
        by_cases hoccurs : occursIn record.name (cache.text fs path).text = true
        · rw [if_pos hoccurs, if_pos hoccurs, hoccurs]
          exact ⟨rfl, rfl⟩
        · rw [if_neg hoccurs, if_neg hoccurs, Bool.eq_false_of_not_eq_true hoccurs, Bool.false_or]
          exact ⟨hfound, hcache⟩

theorem searchedFiles_prefix_otherFiles
    (fs : FileSystem) (record : ExportRecord) (cache : SourceCache) (corpus : List Path) :
    searchedFiles fs record cache corpus <+: record.otherFiles corpus :=
  List.take_prefix _ _

/-- A search finds a mention exactly when it sees one in a file other than the exporting one. -/
theorem found_searchMention_iff
    {fs : FileSystem} {record : ExportRecord} {cache : SourceCache} {corpus : List Path} :
    (searchMention fs record cache corpus).found = true ↔
      ∃ path ∈ corpus, path.key ≠ record.file.key ∧
        record.name <:+: cache.view fs (record.otherFiles corpus) path := by
  rw [(searchMention_eq fs record cache corpus).1, List.any_eq_true]
  simp only [ExportRecord.mem_otherFiles, occursIn_iff, and_assoc]

/-- A search adds an entry for each unknown key among the files that it looks at, and the entry
holds what it saw. -/
theorem exists_entries_searchMention
    (fs : FileSystem) (record : ExportRecord) (cache : SourceCache) (corpus : List Path) :
    ∃ added : List (Path.Key × Text),
      (searchMention fs record cache corpus).cache.entries = added ++ cache.entries ∧
        (added.map Prod.fst).Nodup ∧
        ∀ key text, (key, text) ∈ added ↔
          key ∉ cache.entries.map Prod.fst ∧
            ∃ path ∈ searchedFiles fs record cache corpus, path.key = key ∧
              text = cache.view fs (record.otherFiles corpus) path := by
  obtain ⟨added, hentries, hnodup, hmem⟩ :=
    cache.exists_entries_requestAll fs (searchedFiles fs record cache corpus)
  refine ⟨added, ?_, hnodup, fun key text => ?_⟩
  · rw [(searchMention_eq fs record cache corpus).2, hentries]
  rw [hmem]
  refine and_congr_right fun hnew => ?_
  have hview : ∀ path text, path.key = key →
      fs.firstRead? (searchedFiles fs record cache corpus) key = some text →
        cache.view fs (record.otherFiles corpus) path = text := by
    intro path text hkey hread
    have hunknown : cache.find? path = none := SourceCache.find?_eq_none_iff.mpr (hkey ▸ hnew)
    have hfirst :=
      FileSystem.firstRead?_of_prefix (searchedFiles_prefix_otherFiles fs record cache corpus) hread
    rw [SourceCache.view, hunknown, hkey, hfirst]
    rfl
  constructor
  · intro hread
    obtain ⟨path, hpath, hkey, -⟩ := FileSystem.exists_of_firstRead?_eq_some hread
    exact ⟨path, hpath, hkey, (hview path text hkey hread).symm⟩
  · rintro ⟨path, hpath, rfl, rfl⟩
    obtain ⟨text, hread⟩ := fs.exists_firstRead?_of_mem hpath
    rw [hread, hview path text rfl hread]

/-! ## One spelling for every path -/

/-- Among some paths no path has two spellings. -/
def SpelledOnce (paths : List Path) : Prop :=
  ∀ path ∈ paths, ∀ other ∈ paths, path.key = other.key → path = other

instance (paths : List Path) : Decidable (SpelledOnce paths) :=
  inferInstanceAs (Decidable (∀ path ∈ paths, ∀ other ∈ paths, path.key = other.key → path = other))

theorem SpelledOnce.mono
    {paths others : List Path} (h : SpelledOnce paths) (hsub : others ⊆ paths) :
    SpelledOnce others := by
  intro path hpath other hother
  exact h path (hsub hpath) other (hsub hother)

/-- Where every path has one spelling, a cache that was filled from the tree shows the texts of
the tree. -/
theorem SpelledOnce.view_eq
    {fs : FileSystem} {paths earlier : List Path} (h : SpelledOnce (paths ++ earlier))
    {path : Path} (hpath : path ∈ paths) :
    (SourceCache.empty.requestAll fs earlier).view fs paths path = fs.sourceText path := by
  have hread : ∀ others ⊆ paths ++ earlier, ∀ text,
      fs.firstRead? others path.key = some text → text = fs.sourceText path := by
    intro others hothers text htext
    obtain ⟨other, hother, hkey, rfl⟩ := FileSystem.exists_of_firstRead?_eq_some htext
    rw [h other (hothers hother) path (List.mem_append_left _ hpath) hkey]
  rw [SourceCache.view, SourceCache.find?_requestAll]
  have hempty : SourceCache.empty.find? path = none := rfl
  rw [hempty, Option.none_or]
  cases hearlier : fs.firstRead? earlier path.key with
  | some text =>
      rw [hread earlier (List.subset_append_right _ _) text hearlier]
      rfl
  | none =>
      obtain ⟨text, htext⟩ := fs.exists_firstRead?_of_mem hpath
      rw [htext, hread paths (List.subset_append_left _ _) text htext]
      rfl

/-- A search then depends on the texts of the corpus alone. -/
theorem SpelledOnce.found_searchMention_iff
    {fs : FileSystem} {record : ExportRecord} {corpus earlier : List Path}
    (h : SpelledOnce (corpus ++ earlier)) :
    (searchMention fs record (SourceCache.empty.requestAll fs earlier) corpus).found = true ↔
      ∃ path ∈ corpus, path.key ≠ record.file.key ∧ record.name <:+: fs.sourceText path := by
  have hothers : SpelledOnce (record.otherFiles corpus ++ earlier) := by
    apply h.mono
    exact List.append_subset.mpr ⟨fun path hpath => List.mem_append_left _
      (ExportRecord.mem_otherFiles.mp hpath).1, List.subset_append_right _ _⟩
  rw [DeadExports.found_searchMention_iff]
  refine exists_congr fun path => and_congr_right fun hpath => and_congr_right fun hkey => ?_
  rw [hothers.view_eq (ExportRecord.mem_otherFiles.mpr ⟨hpath, hkey⟩)]

/-- A search finds a mention exactly when another file of the corpus shows the name, by what the
cache remembers or the first spelling of its path leads to. It keeps what the cache remembers and
adds an entry for every unknown key among the files up to the first that shows the name, but none
for the exporting file. On an unchanging tree and with one spelling for every path, neither the
order of the corpus nor earlier requests make a difference to what it finds. -/
theorem searchMention_characterization
    (fs : FileSystem) (record : ExportRecord) (corpus : List Path) :
    (∀ cache : SourceCache,
      ((searchMention fs record cache corpus).found = true ↔
        ∃ path ∈ corpus, path.key ≠ record.file.key ∧
          record.name <:+: cache.view fs (record.otherFiles corpus) path) ∧
      ∃ added : List (Path.Key × Text),
        (searchMention fs record cache corpus).cache.entries = added ++ cache.entries ∧
          (added.map Prod.fst).Nodup ∧
          record.file.key ∉ added.map Prod.fst ∧
          ∀ key text, (key, text) ∈ added ↔
            key ∉ cache.entries.map Prod.fst ∧
              ∃ path ∈ searchedFiles fs record cache corpus, path.key = key ∧
                text = cache.view fs (record.otherFiles corpus) path) ∧
    ∀ reordered earlier others : List Path, corpus.Perm reordered →
      SpelledOnce (corpus ++ earlier) → SpelledOnce (corpus ++ others) →
        (searchMention fs record (SourceCache.empty.requestAll fs earlier) corpus).found =
          (searchMention fs record (SourceCache.empty.requestAll fs others) reordered).found := by
  refine ⟨fun cache => ⟨found_searchMention_iff, ?_⟩, ?_⟩
  · obtain ⟨added, hentries, hnodup, hmem⟩ := exists_entries_searchMention fs record cache corpus
    refine ⟨added, hentries, hnodup, ?_, hmem⟩
    intro hfile
    obtain ⟨⟨key, text⟩, hentry, hkey⟩ := List.mem_map.mp hfile
    obtain ⟨-, path, hpath, hsame, -⟩ := (hmem key text).mp hentry
    have hother := (searchedFiles_prefix_otherFiles fs record cache corpus).subset hpath
    exact (ExportRecord.mem_otherFiles.mp hother).2 (hsame.trans hkey)
  · intro reordered earlier others hperm hearlier hothers
    have hreordered : SpelledOnce (reordered ++ others) :=
      hothers.mono (List.append_subset.mpr ⟨fun path hpath =>
        List.mem_append_left _ (hperm.mem_iff.mpr hpath), List.subset_append_right _ _⟩)
    rw [Bool.eq_iff_iff, hearlier.found_searchMention_iff, hreordered.found_searchMention_iff]
    simp only [hperm.mem_iff]

/-- The current directory with two sources, of which the second mentions an export of the
first. -/
def siblingTree : FileSystem where
  top :=
    .cons (Bytes.ofString "a.ts") (.file (.ok (Bytes.ofString "export const alpha")))
      (.cons (Bytes.ofString "b.ts") (.file (.ok (Bytes.ofString "alpha()"))) .nil)
  current := []
  wellFormed := by decide

def pairExport : ExportRecord :=
  ⟨"alpha".toList, Bytes.ofString "a.ts", .named⟩

/-- A source that does not exist may come before or after the one with the mention. -/
theorem searchMention_characterization_siblingTree :
    let corpus := ["a.ts", "gone.ts", "b.ts"].map Bytes.ofString
    let reordered := ["b.ts", "gone.ts", "a.ts"].map Bytes.ofString
    let earlier := ["b.ts", "gone.ts"].map Bytes.ofString
    corpus.Perm reordered ∧ SpelledOnce (corpus ++ earlier) ∧ SpelledOnce (corpus ++ []) ∧
      (searchMention siblingTree pairExport (SourceCache.empty.requestAll siblingTree earlier)
          corpus).found =
        (searchMention siblingTree pairExport (SourceCache.empty.requestAll siblingTree [])
          reordered).found := by
  intro corpus reordered earlier
  have hperm : corpus.Perm reordered := by
    decide
  have hearlier : SpelledOnce (corpus ++ earlier) := by
    decide
  have hothers : SpelledOnce (corpus ++ []) := by
    decide
  exact ⟨hperm, hearlier, hothers,
    (searchMention_characterization siblingTree pairExport corpus).2 reordered earlier [] hperm
      hearlier hothers⟩

example :
    (searchMention siblingTree pairExport .empty
      (["a.ts", "gone.ts", "b.ts"].map Bytes.ofString)).found = true := by
  decide +kernel

end DeadExports
