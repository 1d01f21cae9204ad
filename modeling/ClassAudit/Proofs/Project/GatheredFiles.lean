import ClassAudit.Proofs.Project.AddedFiles
/-!
# What files give together

The names that files define and the classes that their themes make are unions
over the files, one file at a time.  A file that cannot be read, or is no style
sheet, or declares no theme gives nothing, so it neither adds to what the other
files give nor hides any of it, wherever it is listed and however often.
-/

namespace ClassAudit

/-- Whether a path leads to a style sheet that can be read. -/
def FileTree.HasSheet (tree : FileTree) (path : Path) : Prop :=
  ∃ css sheet, tree.read? path = some css ∧ Css.Stylesheet.parse css = .ok sheet

/-- Whether a path leads to a file that declares a theme. -/
def FileTree.HasTheme (tree : FileTree) (path : Path) : Prop :=
  ∃ css, tree.read? path = some css ∧ Theme.definesTheme css = true

/-! ## One file -/

theorem mem_definedIn_iff {tree : FileTree} {path : Path} {name : Text} :
    name ∈ definedIn tree path ↔ ∃ css sheet, tree.read? path = some css ∧
      Css.Stylesheet.parse css = .ok sheet ∧ (name ∈ sheet.classes ∨ name ∈ sheet.keyframes) := by
  have hdefined : ∀ sheet : Css.Stylesheet,
      name ∈ sheet.defined ↔ name ∈ sheet.classes ∨ name ∈ sheet.keyframes :=
    fun sheet => NameSet.mem_union
  unfold definedIn
  cases hread : tree.read? path with
  | none => simp
  | some css =>
    cases hparse : Css.Stylesheet.parse css with
    | error fault => simp [hparse]
    | ok sheet => simp [hparse, hdefined]

theorem mem_get_themeTokensIn_iff {tree : FileTree} {path : Path} {kind : TokenKind}
    {name : Text} :
    name ∈ (themeTokensIn tree path).get kind ↔ ∃ css, tree.read? path = some css ∧
      Theme.definesTheme css = true ∧ name ∈ (ThemeTokens.parse css).get kind := by
  unfold themeTokensIn
  cases hread : tree.read? path with
  | none => simp [ThemeTokens.not_mem_get_empty]
  | some css =>
    cases htheme : Theme.definesTheme css with
    | false => simp [htheme, ThemeTokens.not_mem_get_empty]
    | true => simp [htheme]

/-! ## All files -/

theorem ThemeTokens.ext_get {first second : ThemeTokens}
    (h : ∀ kind name, name ∈ first.get kind ↔ name ∈ second.get kind) : first = second := by
  have hget : ∀ kind, first.get kind = second.get kind := fun kind => NameSet.ext (h kind)
  obtain ⟨colors, fonts, spacing, radii, shadows⟩ := first
  obtain rfl : colors = second.colors := hget .color
  obtain rfl : fonts = second.fonts := hget .font
  obtain rfl : spacing = second.spacing := hget .spacing
  obtain rfl : radii = second.radii := hget .radius
  obtain rfl : shadows = second.shadows := hget .shadow
  rfl

theorem mem_utilityClasses_readThemeTokens_iff {tree : FileTree} {paths : List Path}
    {className : Text} :
    className ∈ (readThemeTokens tree paths).utilityClasses ↔ ∃ path ∈ paths, ∃ css,
      tree.read? path = some css ∧ Theme.definesTheme css = true ∧
        className ∈ (ThemeTokens.parse css).utilityClasses := by
  simp only [ThemeTokens.mem_utilityClasses, mem_get_readThemeTokens_iff,
    mem_get_themeTokensIn_iff]
  constructor
  · rintro ⟨kind, stem, name, hstem, ⟨path, hpath, css, hread, htheme, hname⟩, hclass⟩
    exact ⟨path, hpath, css, hread, htheme, kind, stem, name, hstem, hname, hclass⟩
  · rintro ⟨path, hpath, css, hread, htheme, kind, stem, name, hstem, hname, hclass⟩
    exact ⟨kind, stem, name, hstem, ⟨path, hpath, css, hread, htheme, hname⟩, hclass⟩

/-- What only some items give is the same for two lists that agree on those items. -/
theorem exists_mem_congr {α : Type} {gives matters : α → Prop} {items others : List α}
    (hgives : ∀ item, gives item → matters item)
    (hagree : ∀ item, matters item → (item ∈ items ↔ item ∈ others)) :
    (∃ item ∈ items, gives item) ↔ ∃ item ∈ others, gives item := by
  refine exists_congr fun item => and_congr_left fun hitem => ?_
  exact hagree item (hgives item hitem)

variable {tree : FileTree} {paths others : List Path}

theorem readDefined_congr
    (hagree : ∀ path, tree.HasSheet path → (path ∈ paths ↔ path ∈ others)) :
    readDefined tree paths = readDefined tree others := by
  ext name
  rw [mem_readDefined_iff, mem_readDefined_iff]
  refine exists_mem_congr (fun path hname => ?_) hagree
  obtain ⟨css, sheet, hread, hparse, -⟩ := mem_definedIn_iff.1 hname
  exact ⟨css, sheet, hread, hparse⟩

theorem readThemeTokens_congr
    (hagree : ∀ path, tree.HasTheme path → (path ∈ paths ↔ path ∈ others)) :
    readThemeTokens tree paths = readThemeTokens tree others := by
  apply ThemeTokens.ext_get
  intro kind name
  rw [mem_get_readThemeTokens_iff, mem_get_readThemeTokens_iff]
  refine exists_mem_congr (fun path hname => ?_) hagree
  obtain ⟨css, hread, htheme, -⟩ := mem_get_themeTokensIn_iff.1 hname
  exact ⟨css, hread, htheme⟩

/-- Each file gives its names and the classes of its theme as if it were alone: a name is found iff
some listed file that can be read defines it, and a class iff some listed file that declares a
theme makes it.  So the order of the files, their repetitions and the files that give nothing do
not matter. -/
theorem files_give_separately (tree : FileTree) (paths : List Path) :
    ((∀ name, name ∈ readDefined tree paths ↔ ∃ path ∈ paths, ∃ css sheet,
        tree.read? path = some css ∧ Css.Stylesheet.parse css = .ok sheet ∧
          (name ∈ sheet.classes ∨ name ∈ sheet.keyframes)) ∧
      ∀ others, (∀ path, tree.HasSheet path → (path ∈ others ↔ path ∈ paths)) →
        readDefined tree others = readDefined tree paths) ∧
    (∀ className, className ∈ (readThemeTokens tree paths).utilityClasses ↔
        ∃ path ∈ paths, ∃ css, tree.read? path = some css ∧ Theme.definesTheme css = true ∧
          className ∈ (ThemeTokens.parse css).utilityClasses) ∧
      ∀ others, (∀ path, tree.HasTheme path → (path ∈ others ↔ path ∈ paths)) →
        readThemeTokens tree others = readThemeTokens tree paths := by
  refine ⟨⟨fun name => ?_, fun _ => readDefined_congr⟩,
    fun _ => mem_utilityClasses_readThemeTokens_iff, fun _ => readThemeTokens_congr⟩
  rw [mem_readDefined_iff]
  simp only [mem_definedIn_iff]

/-- A project with a style sheet, a theme, a sheet with a brace that is not closed and a file that
is no text. -/
def mixedTree : FileTree where
  files := [
    (Text.table ["card.css"], some ".card\x7b\x7d".toList),
    (Text.table ["theme.css"],
      some "@import \"tailwindcss\";\n@theme\x7b--color-brand:red;\x7d".toList),
    (Text.table ["torn.css"], some ".torn\x7b".toList),
    (Text.table ["bytes.css"], none)]

def mixedPaths : List Path :=
  (Text.table ["/torn.css", "/card.css", "/lost.css", "/theme.css", "/bytes.css", "/card.css"]).map
    .ofText

def goodPaths : List Path :=
  (Text.table ["/theme.css", "/card.css"]).map .ofText

theorem files_give_separately_mixed :
    (∀ path, mixedTree.HasSheet path → (path ∈ mixedPaths ↔ path ∈ goodPaths)) ∧
      (readDefined mixedTree mixedPaths).toList = Text.table ["card"] ∧
      readDefined mixedTree mixedPaths = readDefined mixedTree goodPaths ∧
      readThemeTokens mixedTree mixedPaths = readThemeTokens mixedTree goodPaths ∧
      "bg-brand".toList ∈ (readThemeTokens mixedTree mixedPaths).utilityClasses := by
  have hsubset : ∀ path ∈ goodPaths, path ∈ mixedPaths := by decide +kernel
  have hidle : ∀ path ∈ mixedPaths, path ∉ goodPaths →
      (mixedTree.read? path).all fun css =>
        (Css.Stylesheet.parse css).isOk = false ∧ Theme.definesTheme css = false := by
    decide +kernel
  have hsheets : ∀ path, mixedTree.HasSheet path → (path ∈ mixedPaths ↔ path ∈ goodPaths) := by
    rintro path ⟨css, sheet, hread, hparse⟩
    refine ⟨fun hpath => ?_, hsubset path⟩
    by_contra hbad
    have hfault := hidle path hpath hbad
    simp [hread, hparse, Except.isOk, Except.toBool] at hfault
  have hthemes : ∀ path, mixedTree.HasTheme path → (path ∈ mixedPaths ↔ path ∈ goodPaths) := by
    rintro path ⟨css, hread, htheme⟩
    refine ⟨fun hpath => ?_, hsubset path⟩
    by_contra hbad
    have hfault := hidle path hpath hbad
    simp [hread, htheme] at hfault
  refine ⟨hsheets, by decide +kernel, (files_give_separately mixedTree goodPaths).1.2 _ hsheets,
    (files_give_separately mixedTree goodPaths).2.2 _ hthemes, ?_⟩
  decide +kernel

end ClassAudit
