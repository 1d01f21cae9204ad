import ClassAudit.Project.Discovery
import ClassAudit.Proofs.Project.CoveringGlob
/-!
# What pruning costs

Discovery is meant to list the files below the base directory that an include
glob matches and no exclude glob.  It does not enter a directory in which a file
of the name `_` would be excluded, so it lists those of the files that have no
such directory above them.  The two lists agree exactly when no file that is
meant lies below such a directory, and always when the exclude globs end in a
double star.
-/

namespace ClassAudit.StyleSearch

/-- A file below the base directory, by its names there. -/
def HasFile (search : StyleSearch) (tree : FileTree) (names : List Text) : Prop :=
  ∃ content, (search.baseDir.names ++ names, content) ∈ tree.files

/-- An include glob matches the names, and no exclude glob does. -/
def Wanted (search : StyleSearch) (names : List Text) : Prop :=
  (Globs.ofTexts search.includes).isMatch names = true ∧
    (Globs.ofTexts search.excludes).isMatch names = false

/-- No directory above the names would have a file `_` excluded. -/
def Reached (search : StyleSearch) (names : List Text) : Prop :=
  ∀ directory rest, directory ≠ [] → rest ≠ [] → names = directory ++ rest →
    (Globs.ofTexts search.excludes).isMatch (directory ++ [['_']]) = false

/-- The path of a file below the base directory. -/
def pathOf (search : StyleSearch) (names : List Text) : Path :=
  ⟨search.baseDir.absolute, search.baseDir.parts ++ names.map .name⟩

/-- The paths are those of the files with a property, strictly in path order: each stands there
once. -/
def Lists (search : StyleSearch) (tree : FileTree) (property : List Text → Prop)
    (paths : List Path) : Prop :=
  ∃ listed : List (List Text), paths = listed.map search.pathOf ∧
    listed.Pairwise (fun a b => namesBefore a b = true) ∧
    ∀ names, names ∈ listed ↔ search.HasFile tree names ∧ property names

/-! ## The order of the list -/

theorem namesBefore_of_not_after {a b : List Text} (hne : a ≠ b)
    (h : (!namesBefore b a) = true) : namesBefore a b = true := by
  rcases namesBefore_trichotomy a b with hbefore | rfl | hafter
  · exact hbefore
  · exact absurd rfl hne
  · rw [hafter] at h
    cases h

theorem pairwise_mergeSort_names (names : List (List Text)) :
    (names.mergeSort fun a b => !namesBefore b a).Pairwise
      (fun a b => (!namesBefore b a) = true) := by
  apply List.pairwise_mergeSort
  · intro a b c hab hbc
    by_cases heq : a = b
    · rw [heq]
      exact hbc
    · have hlt := namesBefore_of_not_after heq hab
      rw [Bool.not_eq_true'] at hbc ⊢
      rw [Bool.eq_false_iff] at hbc ⊢
      exact fun hca => hbc (namesBefore_trans hca hlt)
  · intro a b
    rw [Bool.or_eq_true, Bool.not_eq_true', Bool.not_eq_true', Bool.eq_false_iff]
    by_cases hba : namesBefore b a = true
    · right
      rw [Bool.eq_false_iff]
      intro hab
      have hcycle := namesBefore_trans hab hba
      rw [namesBefore_irrefl] at hcycle
      cases hcycle
    · exact Or.inl hba

theorem pairwise_eraseDups {names : List (List Text)}
    (h : names.Pairwise (fun a b => (!namesBefore b a) = true)) :
    names.eraseDups.Pairwise (fun a b => namesBefore a b = true) := by
  match names with
  | [] => exact List.Pairwise.nil
  | a :: later =>
    rw [List.eraseDups_cons]
    obtain ⟨hfirst, hlater⟩ := List.pairwise_cons.1 h
    refine List.Pairwise.cons (fun b hb => ?_) (pairwise_eraseDups (hlater.filter _))
    rw [List.mem_eraseDups, List.mem_filter] at hb
    -- Later names are not before the first one, and those that equal it are gone.
    have hne : a ≠ b := by
      rintro rfl
      simp at hb
    exact namesBefore_of_not_after hne (hfirst b hb.1)
termination_by names.length
decreasing_by
  have := List.length_filter_le (fun b => !b == a) later
  simp only [List.length_cons]
  omega

/-! ## The members of the list -/

theorem mem_directoriesOf {names directory : List Text} :
    directory ∈ directoriesOf names ↔
      ∃ rest, directory ≠ [] ∧ rest ≠ [] ∧ names = directory ++ rest := by
  unfold directoriesOf
  cases names with
  | nil => simp
  | cons name names =>
    rw [List.length_cons, List.range_succ_eq_map, List.drop_one, List.tail_cons, List.map_map,
      List.mem_map]
    constructor
    · rintro ⟨count, hcount, rfl⟩
      rw [List.mem_range] at hcount
      refine ⟨(name :: names).drop (count + 1), by simp, ?_, (List.take_append_drop _ _).symm⟩
      simpa using hcount
    · rintro ⟨rest, hdirectory, hrest, h⟩
      cases directory with
      | nil => exact absurd rfl hdirectory
      | cons first directory =>
        rw [List.cons_append, List.cons.injEq] at h
        obtain ⟨rfl, rfl⟩ := h
        refine ⟨directory.length, ?_, by simp⟩
        rw [List.mem_range, List.length_append]
        have := List.length_pos_iff.2 hrest
        omega

theorem selects_iff {search : StyleSearch} {names : List Text} :
    selects (Globs.ofTexts search.includes) (Globs.ofTexts search.excludes) names = true ↔
      search.Wanted names ∧ search.Reached names := by
  unfold selects Wanted
  rw [Bool.and_eq_true, Bool.and_eq_true, Bool.not_eq_true', Bool.not_eq_true']
  refine and_congr_right fun _ => ?_
  rw [List.any_eq_false]
  unfold Reached prunes
  constructor
  · intro h directory rest hdirectory hrest hnames
    exact Bool.eq_false_iff.2 (h directory (mem_directoriesOf.2 ⟨rest, hdirectory, hrest, hnames⟩))
  · intro h directory hmem
    obtain ⟨rest, hdirectory, hrest, hnames⟩ := mem_directoriesOf.1 hmem
    exact Bool.eq_false_iff.1 (h directory rest hdirectory hrest hnames)

theorem namesBelow?_eq_some_iff {directory file names : List Text} :
    namesBelow? directory file = some names ↔ file = directory ++ names := by
  unfold namesBelow?
  rw [Option.ite_none_right_eq_some, List.isPrefixOf_iff_prefix]
  constructor
  · rintro ⟨⟨rest, rfl⟩, h⟩
    rw [List.drop_left] at h
    rw [Option.some.inj h]
  · rintro rfl
    exact ⟨List.prefix_append directory names, by rw [List.drop_left]⟩

theorem mem_filesBelow_iff {search : StyleSearch} {tree : FileTree} {names : List Text} :
    names ∈ (tree.files.filterMap fun file => namesBelow? search.baseDir.names file.1) ↔
      search.HasFile tree names := by
  rw [List.mem_filterMap]
  unfold HasFile
  constructor
  · rintro ⟨⟨file, content⟩, hmem, hbelow⟩
    obtain rfl := namesBelow?_eq_some_iff.1 hbelow
    exact ⟨content, hmem⟩
  · rintro ⟨content, hmem⟩
    exact ⟨_, hmem, namesBelow?_eq_some_iff.2 rfl⟩

/-- Discovery lists the files that are wanted and reached. -/
theorem lists_discover (search : StyleSearch) (tree : FileTree) :
    search.Lists tree (fun names => search.Wanted names ∧ search.Reached names)
      (search.discover tree) := by
  refine ⟨_, rfl, pairwise_eraseDups (pairwise_mergeSort_names _), fun names => ?_⟩
  rw [List.mem_eraseDups, List.mem_mergeSort, List.mem_filter, mem_filesBelow_iff, selects_iff]

/-! ## When pruning loses nothing -/

theorem pathOf_inj {search : StyleSearch} {a b : List Text} :
    search.pathOf a = search.pathOf b ↔ a = b := by
  unfold pathOf
  rw [Path.mk.injEq, List.append_cancel_left_eq, List.map_inj_right (by simp)]
  simp

theorem lists_wanted_iff (search : StyleSearch) (tree : FileTree) :
    search.Lists tree search.Wanted (search.discover tree) ↔
      ∀ names, search.HasFile tree names → search.Wanted names → search.Reached names := by
  obtain ⟨found, hfound, hordered, hmem⟩ := lists_discover search tree
  constructor
  · rintro ⟨listed, hlisted, -, hall⟩ names hfile hwanted
    have heq : found = listed := by
      rw [hfound] at hlisted
      exact (List.map_inj_right fun _ _ => pathOf_inj.1).1 hlisted
    have hnames : names ∈ found := by
      rw [heq]
      exact (hall names).2 ⟨hfile, hwanted⟩
    exact ((hmem names).1 hnames).2.2
  · intro hreached
    refine ⟨found, hfound, hordered, fun names => ?_⟩
    rw [hmem]
    constructor
    · rintro ⟨hfile, hwanted, -⟩
      exact ⟨hfile, hwanted⟩
    · rintro ⟨hfile, hwanted⟩
      exact ⟨hfile, hwanted, hreached names hfile hwanted⟩

theorem reached_of_doubleStar {search : StyleSearch} {names : List Text}
    (hexcludes : ∀ glob ∈ search.excludes, ∃ front, glob = front ++ "/**".toList)
    (hwanted : search.Wanted names) : search.Reached names := by
  rintro directory rest hdirectory hrest rfl
  rw [Bool.eq_false_iff]
  intro hprobe
  have hmatch := Globs.isMatch_of_probe hexcludes hdirectory hrest hprobe
  rw [hwanted.2] at hmatch
  cases hmatch

/-- Discovery lists the files that are wanted and lie below no directory it does not enter.  These
are all wanted files exactly if none of them lies below such a directory, and they are if every
exclude glob ends in a double star. -/
theorem discover_lists_wanted_iff_reached (search : StyleSearch) (tree : FileTree) :
    search.Lists tree (fun names => search.Wanted names ∧ search.Reached names)
        (search.discover tree) ∧
      (search.Lists tree search.Wanted (search.discover tree) ↔
        ∀ names, search.HasFile tree names → search.Wanted names → search.Reached names) ∧
      ((∀ glob ∈ search.excludes, ∃ front, glob = front ++ "/**".toList) →
        search.Lists tree search.Wanted (search.discover tree)) := by
  refine ⟨lists_discover search tree, lists_wanted_iff search tree, fun hexcludes => ?_⟩
  apply (lists_wanted_iff search tree).2
  intro names _ hwanted
  exact reached_of_doubleStar hexcludes hwanted

/-- One style sheet in a directory of a directory. -/
def nestedTree : FileTree :=
  ⟨[(["a".toList, "b".toList, "c.css".toList], some ".x\x7b\x7d".toList)]⟩

/-- A search from the root for all style sheets, with the given globs left out. -/
def sheetsExcept (excludes : List Text) : StyleSearch :=
  ⟨⟨true, []⟩, ["**/*.css".toList], excludes⟩

theorem discover_lists_wanted_default :
    (sheetsExcept ["**/node_modules/**".toList]).Lists nestedTree
      (sheetsExcept ["**/node_modules/**".toList]).Wanted
      ((sheetsExcept ["**/node_modules/**".toList]).discover nestedTree) := by
  apply (discover_lists_wanted_iff_reached _ _).2.2
  intro glob hglob
  obtain rfl := List.mem_singleton.1 hglob
  exact ⟨"**/node_modules".toList, rfl⟩

/-- A glob for the files of one directory makes discovery lose those of its subdirectories. -/
theorem discover_loses_nested :
    ¬(sheetsExcept ["a/*".toList]).Lists nestedTree (sheetsExcept ["a/*".toList]).Wanted
      ((sheetsExcept ["a/*".toList]).discover nestedTree) := by
  rw [lists_wanted_iff]
  intro h
  have hreached := h ["a".toList, "b".toList, "c.css".toList] ⟨_, List.mem_singleton_self _⟩
    ⟨by decide +kernel, by decide +kernel⟩
  have hprobe := hreached ["a".toList] ["b".toList, "c.css".toList] (by simp) (by simp) rfl
  exact absurd hprobe (by decide +kernel)

end ClassAudit.StyleSearch
