import ClassAudit.Project.ClassCatalog
import ClassAudit.Proofs.Config.BaseDirectory
import Mathlib.Data.Finset.Card
/-!
# What a catalog remembers of its history

A catalog of defined names is in use while the files change.  Its history lists
what happened, the latest event first.  Looks for one query share one result until
the catalog is cleared, and that result is of the files as they were at the first
of these looks.

The invariant has two sides.  `Numbered` is about the numbers of the builds: they
tell the results apart, and no build that is still to come has one of them.
`Tracks` says what the history has to do with the entries.
-/

namespace ClassAudit

namespace PathPart

theorem render_ofText (text : Text) : (ofText text).render = text := by
  unfold ofText
  split
  · rename_i hcurrent
    exact hcurrent.symm
  · split
    · rename_i hparent
      exact hparent.symm
    · rfl

theorem ofText_injective : Function.Injective ofText := by
  intro first second h
  rw [← render_ofText first, h, render_ofText]

theorem ofText_ne_current (text : Text) :
    (ofText text != .current) = decide (text ≠ ['.']) := by
  by_cases hcurrent : text = ['.']
  · simp [ofText, hcurrent]
  · by_cases hparent : text = ['.', '.']
    · simp [ofText, hparent]
    · simp [ofText, hcurrent, hparent]

end PathPart

namespace Path

/-- Whether a written path starts at the root, and its components.  A dot is a component only at
the head of a path that does not start there. -/
def components (text : Text) : Bool × List Text :=
  if text.head? = some '/' then (true, (pieces text).filter fun piece => piece ≠ ['.'])
  else (false, (pieces text).take 1 ++ ((pieces text).drop 1).filter fun piece => piece ≠ ['.'])

example : components "src/./css//".toList = components "src/css".toList := by decide

theorem ofText_eq_components (text : Text) :
    ofText text = ⟨(components text).1, (components text).2.map PathPart.ofText⟩ := by
  have hinner : ∀ pieces : List Text,
      (pieces.map PathPart.ofText).filter (fun part => part != .current) =
        (pieces.filter fun piece => piece ≠ ['.']).map PathPart.ofText := by
    intro pieces
    rw [List.filter_map]
    congr 2
    funext piece
    exact PathPart.ofText_ne_current piece
  unfold ofText components pieces
  by_cases hslash : text.head? = some '/'
  · simp only [if_pos hslash, hinner]
  · simp only [if_neg hslash, List.map_append, List.map_take, ← hinner, List.map_drop]

theorem ofText_eq_ofText_iff {first second : Text} :
    ofText first = ofText second ↔ components first = components second := by
  rw [ofText_eq_components, ofText_eq_components, Path.mk.injEq, Prod.ext_iff,
    PathPart.ofText_injective.list_map.eq_iff]

end Path

namespace ClassCatalog

/-- A search as it is asked for, with its base directory as it is written. -/
structure Query where
  baseDir : Text
  includes : List Text
  excludes : List Text

namespace Query

def search (query : Query) : StyleSearch :=
  ⟨.ofText query.baseDir, query.includes, query.excludes⟩

/-- What queries are compared by: the components of the base directory, and the globs in order. -/
def key (query : Query) : (Bool × List Text) × List Text × List Text :=
  (Path.components query.baseDir, query.includes, query.excludes)

/-- The names that the style sheets of a query define in a tree. -/
def namesIn (query : Query) (tree : FileTree) : NameSet :=
  readDefined tree (query.search.discover tree)

theorem search_eq_iff {first second : Query} :
    first.search = second.search ↔ first.key = second.key := by
  simp only [search, key, StyleSearch.mk.injEq, Prod.mk.injEq, Path.ofText_eq_ofText_iff]

end Query

/-- What happens while a catalog is in use. -/
inductive Event where
  /-- The files become those of a tree. -/
  | change (tree : FileTree)
  | look (query : Query)
  | clear

/-- Events, the latest first. -/
abbrev History := List Event

namespace History

/-- The files after a history that starts over a tree. -/
def files (tree : FileTree) : History → FileTree
  | [] => tree
  | .change later :: _ => later
  | .look _ :: older => files tree older
  | .clear :: older => files tree older

/-- The catalog after a history that starts over a tree. -/
def catalog (tree : FileTree) : History → ClassCatalog
  | [] => {}
  | .change _ :: older => catalog tree older
  | .look query :: older => ((catalog tree older).look (files tree older) query.search).2
  | .clear :: older => (catalog tree older).clear

/-- What a look is answered after a history. -/
def answer (tree : FileTree) (history : History) (query : Query) : Built NameSet :=
  ((history.catalog tree).look (history.files tree) query.search).1

/-- The queries looked for since the last clear, the latest first. -/
def recent : History → List Query
  | [] => []
  | .change _ :: older => recent older
  | .look query :: older => query :: recent older
  | .clear :: _ => []

/-- The history up to the first look for a query since the last clear. -/
structure StartsAt (history : History) (query : Query) (older : History) : Prop where
  shared : ∃ later first, history = later ++ .look first :: older ∧ Event.clear ∉ later ∧
    first.key = query.key
  first : query.key ∉ older.recent.map Query.key

theorem StartsAt.cons {history older : History} {query : Query} (h : history.StartsAt query older)
    {event : Event} (hevent : event ≠ .clear) : StartsAt (event :: history) query older where
  shared := by
    obtain ⟨later, first, rfl, hlater, hkey⟩ := h.shared
    refine ⟨event :: later, first, rfl, ?_, hkey⟩
    simpa [hevent.symm] using hlater
  first := h.first

end History

/-! ## One look -/

theorem look_of_found {catalog : ClassCatalog} {search : StyleSearch} {built : Built NameSet}
    (h : catalog.entries.lookup search = some built) (tree : FileTree) :
    catalog.look tree search = (built, catalog) := by
  unfold look
  rw [h]

theorem look_of_missing {catalog : ClassCatalog} {search : StyleSearch}
    (h : catalog.entries.lookup search = none) (tree : FileTree) :
    catalog.look tree search =
      (⟨catalog.builds, readDefined tree (search.discover tree)⟩,
        ⟨(search, ⟨catalog.builds, readDefined tree (search.discover tree)⟩) :: catalog.entries,
          catalog.builds + 1⟩) := by
  unfold look
  rw [h]

theorem lookup_look (catalog : ClassCatalog) (tree : FileTree) (search : StyleSearch) :
    (catalog.look tree search).2.entries.lookup search = some (catalog.look tree search).1 := by
  cases hfound : catalog.entries.lookup search with
  | some built => rw [look_of_found hfound, hfound]
  | none =>
    rw [look_of_missing hfound]
    exact List.lookup_cons_self

/-! ## The numbers of the builds -/

/-- The numbers of the entries are below that of the next build, and tell them apart. -/
structure Numbered (catalog : ClassCatalog) : Prop where
  below : ∀ entry ∈ catalog.entries, entry.2.build < catalog.builds
  distinct : ∀ entry ∈ catalog.entries, ∀ other ∈ catalog.entries,
    entry.2.build = other.2.build → entry = other

theorem Numbered.look {catalog : ClassCatalog} (h : catalog.Numbered) (tree : FileTree)
    (search : StyleSearch) : (catalog.look tree search).2.Numbered := by
  cases hfound : catalog.entries.lookup search with
  | some built =>
    rw [look_of_found hfound]
    exact h
  | none =>
    rw [look_of_missing hfound]
    constructor
    · intro entry hentry
      rcases List.mem_cons.1 hentry with rfl | hentry
      · exact Nat.lt_succ_self catalog.builds
      · exact Nat.lt_succ_of_lt (h.below entry hentry)
    · intro entry hentry other hother hbuild
      rcases List.mem_cons.1 hentry with rfl | hentry
      · rcases List.mem_cons.1 hother with rfl | hother
        · rfl
        · have hbelow := h.below other hother
          simp only at hbuild
          omega
      · rcases List.mem_cons.1 hother with rfl | hother
        · have hbelow := h.below entry hentry
          simp only at hbuild
          omega
        · exact h.distinct entry hentry other hother hbuild

theorem numbered_catalog (tree : FileTree) (history : History) :
    (history.catalog tree).Numbered := by
  induction history with
  | nil => exact ⟨by simp [History.catalog], by simp [History.catalog]⟩
  | cons event older ih =>
    cases event with
    | change later => exact ih
    | look query => exact ih.look (History.files tree older) query.search
    | clear => exact ⟨by simp [History.catalog, clear], by simp [History.catalog, clear]⟩

theorem builds_le_look (catalog : ClassCatalog) (tree : FileTree) (search : StyleSearch) :
    catalog.builds ≤ (catalog.look tree search).2.builds := by
  cases hfound : catalog.entries.lookup search with
  | some built => rw [look_of_found hfound]
  | none =>
    rw [look_of_missing hfound]
    exact Nat.le_succ catalog.builds

/-- An entry is an old one that no clear took away, or its build came later. -/
theorem entry_kept_or_later (tree : FileTree) (older later : History) :
    (older.catalog tree).builds ≤ (History.catalog tree (later ++ older)).builds ∧
      ∀ entry ∈ (History.catalog tree (later ++ older)).entries,
        (entry ∈ (older.catalog tree).entries ∧ Event.clear ∉ later) ∨
          (older.catalog tree).builds ≤ entry.2.build := by
  induction later with
  | nil => exact ⟨Nat.le_refl _, fun entry hentry => .inl ⟨hentry, List.not_mem_nil⟩⟩
  | cons event later ih =>
    obtain ⟨hbuilds, hentries⟩ := ih
    have hkept : event ≠ .clear → ∀ entry ∈ (History.catalog tree (later ++ older)).entries,
        (entry ∈ (older.catalog tree).entries ∧ Event.clear ∉ event :: later) ∨
          (older.catalog tree).builds ≤ entry.2.build := by
      intro hevent entry hentry
      refine (hentries entry hentry).imp_left fun ⟨hold, hlater⟩ => ⟨hold, ?_⟩
      simpa [hevent.symm] using hlater
    cases event with
    | change files => exact ⟨hbuilds, hkept (by simp)⟩
    | look query =>
      rw [List.cons_append, History.catalog]
      refine ⟨hbuilds.trans (builds_le_look _ _ _), ?_⟩
      cases hfound : (History.catalog tree (later ++ older)).entries.lookup query.search with
      | some built =>
        rw [look_of_found hfound]
        exact hkept (by simp)
      | none =>
        rw [look_of_missing hfound]
        intro entry hentry
        rcases List.mem_cons.1 hentry with rfl | hentry
        · exact .inr hbuilds
        · exact hkept (by simp) entry hentry
    | clear =>
      refine ⟨hbuilds, ?_⟩
      simp [History.catalog, clear]

/-! ## The entries and the history -/

/-- The entries are those of the queries looked for since the last clear, each with the names of the
files at the first look. -/
structure Tracks (tree : FileTree) (history : History) (catalog : ClassCatalog) : Prop where
  found : ∀ query : Query,
    (catalog.entries.lookup query.search).isSome ↔ query.key ∈ history.recent.map Query.key
  origin : ∀ (query : Query) (built : Built NameSet),
    catalog.entries.lookup query.search = some built →
      ∃ older, history.StartsAt query older ∧ built.value = query.namesIn (older.files tree)
  size : catalog.size = (history.recent.map Query.key).toFinset.card

namespace Tracks

variable {tree : FileTree} {history : History} {catalog : ClassCatalog}

theorem change (h : Tracks tree history catalog) (files : FileTree) :
    Tracks tree (.change files :: history) catalog where
  found := h.found
  origin := by
    intro query built hbuilt
    obtain ⟨older, hstart, hvalue⟩ := h.origin query built hbuilt
    exact ⟨older, hstart.cons (by simp), hvalue⟩
  size := h.size

theorem clear (tree : FileTree) (history : History) (catalog : ClassCatalog) :
    Tracks tree (.clear :: history) catalog.clear where
  found := by simp [ClassCatalog.clear, History.recent]
  origin := by simp [ClassCatalog.clear]
  size := by simp [ClassCatalog.clear, ClassCatalog.size, History.recent]

theorem look_of_found (h : Tracks tree history catalog) {query : Query} {built : Built NameSet}
    (hfound : catalog.entries.lookup query.search = some built) :
    Tracks tree (.look query :: history) catalog := by
  have hrecent : query.key ∈ history.recent.map Query.key := by
    apply (h.found query).1
    rw [hfound]
    rfl
  refine ⟨?_, ?_, ?_⟩
  · intro other
    rw [h.found other, History.recent, List.map_cons, List.mem_cons, or_iff_right_of_imp]
    intro hkey
    rwa [hkey]
  · intro other built hbuilt
    obtain ⟨older, hstart, hvalue⟩ := h.origin other built hbuilt
    exact ⟨older, hstart.cons (by simp), hvalue⟩
  · rw [h.size, History.recent, List.map_cons, List.toFinset_cons, Finset.insert_eq_of_mem]
    exact List.mem_toFinset.2 hrecent

theorem look_of_missing (h : Tracks tree history catalog) {query : Query}
    (hmissing : catalog.entries.lookup query.search = none) (number count : Nat) :
    Tracks tree (.look query :: history)
      ⟨(query.search, ⟨number, query.namesIn (history.files tree)⟩) :: catalog.entries, count⟩ := by
  have hnew : query.key ∉ history.recent.map Query.key := by
    rw [← h.found query, hmissing]
    exact Bool.false_ne_true
  have hother : ∀ {other : Query}, other.key ≠ query.key →
      ((query.search, (⟨number, query.namesIn (history.files tree)⟩ : Built NameSet)) ::
        catalog.entries).lookup other.search = catalog.entries.lookup other.search := by
    intro other hne
    have hsearch : (other.search == query.search) = false :=
      beq_false_of_ne fun heq => hne (Query.search_eq_iff.1 heq)
    rw [List.lookup_cons, hsearch]
  refine ⟨?_, ?_, ?_⟩
  · intro other
    rw [History.recent, List.map_cons, List.mem_cons]
    by_cases hkey : other.key = query.key
    · rw [Query.search_eq_iff.2 hkey, List.lookup_cons_self]
      exact iff_of_true rfl (.inl hkey)
    · rw [hother hkey, h.found other, or_iff_right hkey]
  · intro other built hbuilt
    by_cases hkey : other.key = query.key
    · rw [Query.search_eq_iff.2 hkey, List.lookup_cons_self, Option.some.injEq] at hbuilt
      refine ⟨history, ⟨⟨[], query, rfl, List.not_mem_nil, hkey.symm⟩, by rwa [hkey]⟩, ?_⟩
      rw [← hbuilt, Query.namesIn, Query.namesIn, Query.search_eq_iff.2 hkey]
    · rw [hother hkey] at hbuilt
      obtain ⟨older, hstart, hvalue⟩ := h.origin other built hbuilt
      exact ⟨older, hstart.cons (by simp), hvalue⟩
  · have hsize := h.size
    rw [History.recent, List.map_cons, List.toFinset_cons, Finset.card_insert_of_notMem
      (by rwa [List.mem_toFinset]), ← hsize]
    rfl

theorem look (h : Tracks tree history catalog) (query : Query) :
    Tracks tree (.look query :: history)
      (catalog.look (history.files tree) query.search).2 := by
  cases hfound : catalog.entries.lookup query.search with
  | some built =>
    rw [ClassCatalog.look_of_found hfound]
    exact h.look_of_found hfound
  | none =>
    rw [ClassCatalog.look_of_missing hfound]
    exact h.look_of_missing hfound _ _

end Tracks

theorem tracks_catalog (tree : FileTree) (history : History) :
    Tracks tree history (history.catalog tree) := by
  induction history with
  | nil => exact ⟨by simp [History.catalog, History.recent], by simp [History.catalog], rfl⟩
  | cons event older ih =>
    cases event with
    | change files => exact ih.change files
    | look query => exact ih.look query
    | clear => exact .clear tree older _

/-! ## Whole histories -/

theorem lookup_answer (tree : FileTree) (history : History) (query : Query) :
    (History.catalog tree (.look query :: history)).entries.lookup query.search =
      some (history.answer tree query) :=
  lookup_look (history.catalog tree) (history.files tree) query.search

theorem mem_entries_answer (tree : FileTree) (history : History) (query : Query) :
    (query.search, history.answer tree query) ∈
      (History.catalog tree (.look query :: history)).entries := by
  obtain ⟨front, rest, hentries, -⟩ := List.lookup_eq_some_iff.1 (lookup_answer tree history query)
  simp [hentries]

/-- What a look finds is found again until the next clear. -/
theorem lookup_catalog_append {tree : FileTree} {older : History} {search : StyleSearch}
    {built : Built NameSet} (h : (older.catalog tree).entries.lookup search = some built)
    {later : History} (hlater : Event.clear ∉ later) :
    (History.catalog tree (later ++ older)).entries.lookup search = some built := by
  induction later with
  | nil => exact h
  | cons event later ih =>
    have hkept := ih fun hclear => hlater (List.mem_cons_of_mem event hclear)
    cases event with
    | change files => exact hkept
    | look query =>
      rw [List.cons_append, History.catalog]
      cases hfound : (History.catalog tree (later ++ older)).entries.lookup query.search with
      | some other =>
        rw [look_of_found hfound]
        exact hkept
      | none =>
        have hne : (search == query.search) = false := by
          apply beq_false_of_ne
          rintro rfl
          rw [hfound] at hkept
          cases hkept
        rw [look_of_missing hfound, List.lookup_cons, hne]
        exact hkept
    | clear => exact absurd List.mem_cons_self hlater

/-- Two looks share a result iff they are for the same query and no clear lies between them.  The
result of a look is of the files at the first look for its query since the last clear, and the size
of a catalog is the number of different queries looked for since then. -/
theorem looks_share_until_clear (tree : FileTree) (history : History) :
    (∀ (between : History) (first second : Query),
      (History.answer tree (between ++ .look first :: history) second).build =
          (history.answer tree first).build ↔
        first.key = second.key ∧ Event.clear ∉ between) ∧
    (∀ query : Query, ∃ older, History.StartsAt (.look query :: history) query older ∧
      (history.answer tree query).value = query.namesIn (older.files tree)) ∧
    (history.catalog tree).size = (history.recent.map Query.key).toFinset.card := by
  refine ⟨?_, ?_, (tracks_catalog tree history).size⟩
  · intro between first second
    have hfirst := mem_entries_answer tree history first
    constructor
    · intro hshared
      -- The build is older than the state after the first look, so its entry was kept since.
      have hbelow := (numbered_catalog tree (.look first :: history)).below _ hfirst
      have hsecond := mem_entries_answer tree (between ++ .look first :: history) second
      rcases (entry_kept_or_later tree (.look first :: history)
          (.look second :: between)).2 _ hsecond with ⟨hkept, hclear⟩ | hlater
      · have hsame := (numbered_catalog tree (.look first :: history)).distinct _ hfirst _ hkept
          hshared.symm
        refine ⟨Query.search_eq_iff.1 (congrArg Prod.fst hsame), ?_⟩
        exact fun hmem => hclear (List.mem_cons_of_mem _ hmem)
      · simp only at hlater hbelow
        omega
    · rintro ⟨hkey, hclear⟩
      have hfound := lookup_catalog_append (lookup_answer tree history first) hclear
      rw [Query.search_eq_iff.2 hkey] at hfound
      unfold History.answer
      rw [look_of_found hfound]
      rfl
  · intro query
    exact (tracks_catalog tree (.look query :: history)).origin query _
      (lookup_answer tree history query)

end ClassCatalog

end ClassAudit
