import ClassAudit.Project.ClassCatalog
import ClassAudit.Project.FrameworkSign
import ClassAudit.Proofs.Project.Pruning
import ClassAudit.Proofs.Theme.DeclaredTokens
/-!
# Files that are added

A project is read for the names its style sheets define, for the tokens of its
theme and for the signs of the framework.  Each of these is a union over files,
so it can only grow with the files: nothing that a tree shows is lost in a tree
that extends it, whether the files that come in can be read or not.
-/

namespace ClassAudit

namespace FileTree

/-- Every file of the first tree is in the second, and is found there by the same paths. -/
structure Extends (tree larger : FileTree) : Prop where
  files : tree.files ⊆ larger.files
  file? : ∀ {path content}, tree.file? path = some content → larger.file? path = some content

/-- Nothing is at a path: neither a file nor a directory. -/
def Vacant (tree : FileTree) (path : Path) : Prop :=
  ∀ file ∈ tree.files, ¬path.names <+: file.1

instance (tree : FileTree) (path : Path) : Decidable (tree.Vacant path) :=
  inferInstanceAs (Decidable (∀ file ∈ tree.files, ¬path.names <+: file.1))

variable {tree larger : FileTree}

theorem remove_of_vacant {path : Path} (h : tree.Vacant path) : tree.remove path = tree := by
  have hall : tree.files.filter (fun file => !path.names.isPrefixOf file.1) = tree.files := by
    apply List.filter_eq_self.2
    intro file hfile
    rw [Bool.not_eq_true', Bool.eq_false_iff, Ne, List.isPrefixOf_iff_prefix]
    exact h file hfile
  unfold remove
  rw [hall]

theorem extends_write {path : Path} (h : tree.Vacant path) (content : FileContent) :
    tree.Extends (tree.write path content) where
  files := by
    unfold write
    rw [remove_of_vacant h]
    exact List.subset_cons_self _ _
  file? := by
    intro other found hfound
    have hne : other.names ≠ path.names := by
      intro heq
      obtain ⟨front, rest, hfiles, -⟩ := List.lookup_eq_some_iff.1 hfound
      apply h (other.names, found)
      · rw [hfiles]
        simp
      · exact heq ▸ List.prefix_refl _
    unfold file? write
    rw [remove_of_vacant h, List.lookup_cons, beq_eq_false_iff_ne.2 hne]
    exact hfound

namespace Extends

theorem read? (h : tree.Extends larger) {path : Path} {text : Text}
    (hread : tree.read? path = some text) : larger.read? path = some text := by
  unfold FileTree.read? at hread ⊢
  obtain ⟨content, hfile, rfl⟩ := Option.bind_eq_some_iff.1 hread
  rw [h.file? hfile]
  rfl

theorem any_read? (h : tree.Extends larger) {path : Path} {test : Text → Bool}
    (htest : (tree.read? path).any test = true) : (larger.read? path).any test = true := by
  rw [Option.any_eq_true] at htest ⊢
  obtain ⟨text, hread, htext⟩ := htest
  exact ⟨text, h.read? hread, htext⟩

theorem isFile (h : tree.Extends larger) {path : Path} (hfile : tree.isFile path = true) :
    larger.isFile path = true := by
  obtain ⟨content, hcontent⟩ := Option.isSome_iff_exists.1 hfile
  exact Option.isSome_iff_exists.2 ⟨content, h.file? hcontent⟩

end Extends

end FileTree

/-! ## What is gathered from files -/

theorem StyleSearch.mem_discover_iff {search : StyleSearch} {tree : FileTree} {path : Path} :
    path ∈ search.discover tree ↔
      ∃ names, (search.HasFile tree names ∧ search.Wanted names ∧ search.Reached names) ∧
        search.pathOf names = path := by
  obtain ⟨listed, hpaths, -, hlisted⟩ := lists_discover search tree
  rw [hpaths, List.mem_map]
  simp only [hlisted]

/-- What holds of a fold holds at its start or comes from an item. -/
theorem foldl_gathers {σ α : Type} (holds : σ → Prop) (comes : α → Prop) {step : σ → α → σ}
    (hstep : ∀ state item, holds (step state item) ↔ holds state ∨ comes item) (items : List α)
    (state : σ) : holds (items.foldl step state) ↔ holds state ∨ ∃ item ∈ items, comes item := by
  induction items generalizing state with
  | nil => simp
  | cons item items ih =>
    rw [List.foldl_cons, ih, hstep, or_assoc]
    simp

theorem mem_readDefined_iff {tree : FileTree} {paths : List Path} {name : Text} :
    name ∈ readDefined tree paths ↔ ∃ path ∈ paths, name ∈ definedIn tree path := by
  have hgathers := foldl_gathers (fun names : NameSet => name ∈ names)
    (fun path => name ∈ definedIn tree path) (fun _ _ => NameSet.mem_union) paths ∅
  exact hgathers.trans (or_iff_right (NameSet.not_mem_empty name))

namespace ThemeTokens

theorem mem_get_merge {first second : ThemeTokens} {kind : TokenKind} {name : Text} :
    name ∈ (first.merge second).get kind ↔ name ∈ first.get kind ∨ name ∈ second.get kind := by
  cases kind <;> exact NameSet.mem_union

theorem not_mem_get_empty (kind : TokenKind) (name : Text) : name ∉ get {} kind := by
  cases kind <;> exact NameSet.not_mem_empty name

end ThemeTokens

theorem mem_get_readThemeTokens_iff {tree : FileTree} {paths : List Path} {kind : TokenKind}
    {name : Text} :
    name ∈ (readThemeTokens tree paths).get kind ↔
      ∃ path ∈ paths, name ∈ (themeTokensIn tree path).get kind := by
  have hgathers := foldl_gathers (fun tokens : ThemeTokens => name ∈ tokens.get kind)
    (fun path => name ∈ (themeTokensIn tree path).get kind)
    (fun _ _ => ThemeTokens.mem_get_merge) paths {}
  exact hgathers.trans (or_iff_right (ThemeTokens.not_mem_get_empty kind name))

/-! ## Nothing is lost -/

namespace FileTree.Extends

variable {tree larger : FileTree}

theorem discover (h : tree.Extends larger) (search : StyleSearch) :
    search.discover tree ⊆ search.discover larger := by
  intro path hpath
  obtain ⟨names, ⟨⟨content, hfile⟩, hselected⟩, hnames⟩ := StyleSearch.mem_discover_iff.1 hpath
  exact StyleSearch.mem_discover_iff.2 ⟨names, ⟨⟨content, h.files hfile⟩, hselected⟩, hnames⟩

theorem definedIn (h : tree.Extends larger) {path : Path} {name : Text}
    (hname : name ∈ ClassAudit.definedIn tree path) : name ∈ ClassAudit.definedIn larger path := by
  unfold ClassAudit.definedIn at hname ⊢
  cases hread : tree.read? path with
  | none =>
    rw [hread] at hname
    exact absurd hname (NameSet.not_mem_empty name)
  | some css =>
    rw [hread] at hname
    rwa [h.read? hread]

theorem themeTokensIn (h : tree.Extends larger) {path : Path} {kind : TokenKind} {name : Text}
    (hname : name ∈ (ClassAudit.themeTokensIn tree path).get kind) :
    name ∈ (ClassAudit.themeTokensIn larger path).get kind := by
  unfold ClassAudit.themeTokensIn at hname ⊢
  cases hread : tree.read? path with
  | none =>
    rw [hread] at hname
    exact absurd hname (ThemeTokens.not_mem_get_empty kind name)
  | some css =>
    rw [hread] at hname
    rwa [h.read? hread]

theorem readDefined (h : tree.Extends larger) {paths others : List Path} (hpaths : paths ⊆ others)
    {name : Text} (hname : name ∈ ClassAudit.readDefined tree paths) :
    name ∈ ClassAudit.readDefined larger others := by
  obtain ⟨path, hpath, hdefined⟩ := mem_readDefined_iff.1 hname
  exact mem_readDefined_iff.2 ⟨path, hpaths hpath, h.definedIn hdefined⟩

theorem utilityClasses (h : tree.Extends larger) {paths others : List Path}
    (hpaths : paths ⊆ others) {name : Text}
    (hname : name ∈ (readThemeTokens tree paths).utilityClasses) :
    name ∈ (readThemeTokens larger others).utilityClasses := by
  obtain ⟨kind, stem, token, hstem, htoken, rfl⟩ := ThemeTokens.mem_utilityClasses.1 hname
  obtain ⟨path, hpath, hdeclared⟩ := mem_get_readThemeTokens_iff.1 htoken
  have hkept := mem_get_readThemeTokens_iff.2 ⟨path, hpaths hpath, h.themeTokensIn hdeclared⟩
  exact ThemeTokens.mem_utilityClasses.2 ⟨kind, stem, token, hstem, hkept, rfl⟩

theorem signs (h : tree.Extends larger) (root : Path) {paths others : List Path}
    (hpaths : paths ⊆ others) :
    FrameworkSign.all tree root paths ⊆ FrameworkSign.all larger root others := by
  have hfilter : ∀ {list larger : List Path} {test test' : Path → Bool}, list ⊆ larger →
      (∀ path, test path = true → test' path = true) →
      list.filter test ⊆ larger.filter test' := by
    intro list larger test test' hlist htest path hpath
    rw [List.mem_filter] at hpath ⊢
    exact ⟨hlist hpath.1, htest path hpath.2⟩
  intro sign hsign
  simp only [FrameworkSign.all, List.mem_append] at hsign ⊢
  refine hsign.imp (Or.imp (Or.imp ?_ ?_) ?_) ?_
  · apply List.map_subset
    exact hfilter (List.Subset.refl _) fun _ => h.isFile
  · apply List.map_subset
    exact hfilter (List.Subset.refl _) fun _ => h.any_read?
  · apply List.map_subset
    exact hfilter (List.Subset.refl _) fun _ => h.any_read?
  · apply List.map_subset
    exact hfilter hpaths fun _ => h.any_read?

/-- A sign of the framework is still found, maybe another one. -/
theorem isSome_find? (h : tree.Extends larger) (root : Path) {paths others : List Path}
    (hpaths : paths ⊆ others) (hfound : (FrameworkSign.find? tree root paths).isSome = true) :
    (FrameworkSign.find? larger root others).isSome = true := by
  unfold FrameworkSign.find? at hfound ⊢
  rw [List.isSome_head?] at hfound ⊢
  obtain ⟨sign, hsign⟩ := List.exists_mem_of_ne_nil _ hfound
  exact List.ne_nil_of_mem (h.signs root hpaths hsign)

end FileTree.Extends

theorem Theme.accepts_of_subset {classes larger : NameSet} (h : ∀ name ∈ classes, name ∈ larger)
    {token : Text} (haccepts : accepts classes token = true) : accepts larger token = true := by
  simp only [accepts, Option.any_eq_true, Bool.or_eq_true, Bool.and_eq_true,
    NameSet.contains_iff] at haccepts ⊢
  obtain ⟨base, hbase, hclass | ⟨parts, hparts, hopacity, hclass⟩⟩ := haccepts
  · exact ⟨base, hbase, .inl (h base hclass)⟩
  · exact ⟨base, hbase, .inr ⟨parts, hparts, hopacity, h parts.1 hclass⟩⟩

end ClassAudit
