import ClassAudit.Audit.Auditor
/-!
# What an auditor remembers

An auditor fills its memories in the order in which decisions need them.  This
module says what each decision is without any memory, as a function of a
configuration and a file tree, and ties the memories to it by one invariant,
`Auditor.Coherent`.

Every operation of a coherent auditor gives the memoryless answer and leaves a
coherent auditor of the same configuration.  `Auditor.Faithful` states the two
facts together, and there is one lemma for each operation.
-/

namespace ClassAudit

/-! ## Decisions without memory -/

namespace Config

/-- The search for the style sheets of a project. -/
def styleSearch (config : Config) : StyleSearch :=
  ⟨config.baseDir, config.cssFiles, config.excludePatterns⟩

/-- The style sheets of a project. -/
def sheets (config : Config) (tree : FileTree) : List Path :=
  config.styleSearch.discover tree

/-- The names that the style sheets of a project define. -/
def definedNames (config : Config) (tree : FileTree) : NameSet :=
  readDefined tree (config.sheets tree)

/-- The utility classes that the theme of a project makes. -/
def themeNames (config : Config) (tree : FileTree) : NameSet :=
  (readThemeTokens tree (config.sheets tree)).utilityClasses

/-- Whether the files of a project show a sign of the framework. -/
def showsFramework (config : Config) (tree : FileTree) : Bool :=
  (FrameworkSign.find? tree config.projectRoot (config.sheets tree)).isSome

/-- Whether the classes of the framework are known in a project. -/
def exempts (config : Config) (tree : FileTree) : Bool :=
  config.ignoreTailwind && (!config.requireTailwindConfig || config.showsFramework tree)

/-- The verdict on a class name. -/
def verdict (config : Config) (tree : FileTree) (name : Text) (dynamic : Bool)
    (localNames : Option NameSet) : Verdict :=
  if config.allowDynamicClasses && (dynamic || Utility.hasPlaceholder name) then .dynamic
  else if config.isIgnored name then .ignoredPattern
  else if Auditor.moduleLeads.any fun lead => name.startsWith lead then .moduleScoped
  else if config.exempts tree && (Utility.isUtility name || Utility.isDynamic name) then .utility
  else if config.exempts tree && Theme.accepts (config.themeNames tree) name then .themeToken
  else if name ∈ config.definedNames tree then .defined
  else if localNames.any fun names => names.contains name then .locallyDefined
  else .undefined

/-- The names of the tokens whose verdict is that nothing defines them. -/
def undefinedNames (config : Config) (tree : FileTree) (localNames : Option NameSet)
    (tokens : List ClassToken) : List Text :=
  (tokens.filter fun token =>
    config.verdict tree token.value token.dynamic localNames = .undefined).map ClassToken.value

end Config

namespace Auditor

/-! ## The invariant -/

/-- Whatever an auditor remembers is what the files of a tree say. -/
structure Coherent (tree : FileTree) (auditor : Auditor) : Prop where
  catalog : ∀ entry ∈ auditor.catalog.entries,
    entry.2.value = readDefined tree (entry.1.discover tree)
  memo : ∀ entry ∈ auditor.memo.answers,
    entry.1 = auditor.config.projectRoot → entry.2 = auditor.config.showsFramework tree
  recognizer : ∀ entry ∈ auditor.recognizer.cache.entries,
    entry.2 = Utility.isFramework entry.1
  stylesheets : ∀ paths ∈ auditor.stylesheets, paths = auditor.config.sheets tree
  theme : ∀ built ∈ auditor.theme, built.value = auditor.config.themeNames tree

/-- An operation on an auditor of a configuration that answers with a value and leaves the auditor
coherent. -/
structure Faithful {α : Type} (config : Config) (tree : FileTree) (result : α × Auditor)
    (value : α) : Prop where
  answer : result.1 = value
  config : result.2.config = config
  coherent : result.2.Coherent tree

variable {tree : FileTree} {auditor : Auditor}

/-- An auditor that remembers nothing is coherent. -/
theorem coherent_new (tree : FileTree) (config : Config) :
    Coherent tree { config := config } where
  catalog := by intro entry hentry; cases hentry
  memo := by intro entry hentry; cases hentry
  recognizer := by intro entry hentry; cases hentry
  stylesheets := by intro paths hpaths; cases hpaths
  theme := by intro built hbuilt; cases hbuilt

theorem coherent_forget (tree : FileTree) (auditor : Auditor) :
    auditor.forget.Coherent tree where
  catalog := by intro entry hentry; cases hentry
  memo := by intro entry hentry; cases hentry
  recognizer := by intro entry hentry; cases hentry
  stylesheets := by intro paths hpaths; cases hpaths
  theme := by intro built hbuilt; cases hbuilt

private theorem mem_of_lookup {κ α : Type} [BEq κ] [LawfulBEq κ] {entries : List (κ × α)}
    {key : κ} {value : α} (h : entries.lookup key = some value) : (key, value) ∈ entries := by
  obtain ⟨front, rest, rfl, -⟩ := List.lookup_eq_some_iff.1 h
  simp

/-! ## The memories one by one -/

theorem knownClasses_faithful (h : auditor.Coherent tree) :
    Faithful auditor.config tree (Prod.map Built.value id (auditor.knownClasses tree))
      (auditor.config.definedNames tree) := by
  unfold knownClasses ClassCatalog.look
  cases hlookup : auditor.catalog.entries.lookup auditor.search with
  | some built =>
    refine ⟨?_, rfl, { h with }⟩
    exact h.catalog (auditor.search, built) (mem_of_lookup hlookup)
  | none =>
    refine ⟨rfl, rfl, { h with catalog := ?_ }⟩
    intro entry hentry
    rcases List.mem_cons.1 hentry with rfl | hentry
    · rfl
    · exact h.catalog entry hentry

theorem sheetPaths_faithful (h : auditor.Coherent tree) :
    Faithful auditor.config tree (auditor.sheetPaths tree) (auditor.config.sheets tree) := by
  unfold sheetPaths
  split
  · rename_i paths hpaths
    exact ⟨h.stylesheets paths hpaths, rfl, h⟩
  · refine ⟨rfl, rfl, { h with stylesheets := ?_ }⟩
    intro paths hpaths
    cases hpaths
    rfl

theorem themeClasses_faithful (h : auditor.Coherent tree) :
    Faithful auditor.config tree (Prod.map Built.value id (auditor.themeClasses tree))
      (auditor.config.themeNames tree) := by
  unfold themeClasses
  split
  · rename_i built hbuilt
    exact ⟨h.theme built hbuilt, rfl, h⟩
  · obtain ⟨hpaths, hconfig, hcoherent⟩ := sheetPaths_faithful h
    have hnames : (readThemeTokens tree (auditor.sheetPaths tree).1).utilityClasses =
        auditor.config.themeNames tree := by rw [hpaths]; rfl
    refine ⟨hnames, hconfig, { hcoherent with theme := ?_ }⟩
    intro built hbuilt
    cases hbuilt
    show _ = (auditor.sheetPaths tree).2.config.themeNames tree
    rw [hconfig]
    exact hnames

theorem exemptsFramework_faithful (h : auditor.Coherent tree) :
    Faithful auditor.config tree (auditor.exemptsFramework tree)
      (auditor.config.exempts tree) := by
  unfold exemptsFramework Config.exempts
  cases hignore : auditor.config.ignoreTailwind with
  | false => exact ⟨rfl, rfl, h⟩
  | true =>
    cases hrequire : auditor.config.requireTailwindConfig with
    | false => exact ⟨rfl, rfl, h⟩
    | true =>
      obtain ⟨hpaths, hconfig, hcoherent⟩ := sheetPaths_faithful h
      simp only [Bool.not_true, Bool.false_eq_true, if_false, Bool.true_and, Bool.false_or]
      unfold FrameworkMemo.ask
      split
      · rename_i answer hlookup
        refine ⟨?_, hconfig, hcoherent⟩
        have hanswer := hcoherent.memo _ (mem_of_lookup hlookup) rfl
        rwa [hconfig] at hanswer
      · have hfind : (FrameworkSign.find? tree (auditor.sheetPaths tree).2.config.projectRoot
            (auditor.sheetPaths tree).1).isSome = auditor.config.showsFramework tree := by
          rw [hpaths, hconfig]
          rfl
        refine ⟨hfind, hconfig, { hcoherent with memo := ?_ }⟩
        intro entry hentry hroot
        rcases List.mem_cons.1 hentry with rfl | hentry
        · exact hfind.trans (by rw [← hconfig])
        · exact hcoherent.memo entry hentry hroot

/-- A recognizer whose answers are right gives the right answer, and its answers stay right. -/
theorem ask_recognizer {recognizer : Recognizer}
    (h : ∀ entry ∈ recognizer.cache.entries, entry.2 = Utility.isFramework entry.1)
    (name : Text) :
    (recognizer.ask name).1 = Utility.isFramework name ∧
      ∀ entry ∈ (recognizer.ask name).2.cache.entries,
        entry.2 = Utility.isFramework entry.1 := by
  unfold Recognizer.ask RecencyCache.get
  cases hfind : recognizer.cache.find? name with
  | some answer =>
    have hanswer := h _ (RecencyCache.mem_entries_of_find? hfind)
    refine ⟨hanswer, ?_⟩
    intro entry hentry
    rcases RecencyCache.mem_entries_put hentry with hentry | rfl
    · exact h entry hentry
    · exact hanswer
  | none =>
    refine ⟨rfl, ?_⟩
    intro entry hentry
    rcases RecencyCache.mem_entries_put hentry with hentry | rfl
    · exact h entry hentry
    · rfl

/-! ## Verdicts and reports -/

theorem frameworkVerdict_faithful (h : auditor.Coherent tree) (name : Text) :
    Faithful auditor.config tree (auditor.frameworkVerdict tree name)
      (if Utility.isFramework name then some .utility
      else if Theme.accepts (auditor.config.themeNames tree) name then some .themeToken
      else none) := by
  obtain ⟨hask, hentries⟩ := ask_recognizer h.recognizer name
  have hcoherent : Coherent tree { auditor with recognizer := (auditor.recognizer.ask name).2 } :=
    { h with recognizer := hentries }
  obtain ⟨hnames, hconfig, htheme⟩ := themeClasses_faithful hcoherent
  unfold frameworkVerdict
  cases hframework : Utility.isFramework name with
  | true =>
    rw [hframework] at hask
    simp only [hask, if_true]
    exact ⟨rfl, rfl, hcoherent⟩
  | false =>
    rw [hframework] at hask
    simp only [hask, Bool.false_eq_true, if_false]
    refine ⟨?_, hconfig, htheme⟩
    simp only [Prod.map_fst] at hnames
    rw [hnames]

theorem definitionVerdict_faithful (h : auditor.Coherent tree) (name : Text)
    (localNames : Option NameSet) :
    Faithful auditor.config tree (auditor.definitionVerdict tree name localNames)
      (if name ∈ auditor.config.definedNames tree then .defined
      else if localNames.any fun names => names.contains name then .locallyDefined
      else .undefined) := by
  obtain ⟨hnames, hconfig, hcoherent⟩ := knownClasses_faithful h
  simp only [Prod.map_fst] at hnames
  unfold definitionVerdict
  simp only [hnames, NameSet.contains_iff]
  split
  · exact ⟨rfl, hconfig, hcoherent⟩
  · split
    · exact ⟨rfl, hconfig, hcoherent⟩
    · exact ⟨rfl, hconfig, hcoherent⟩

private theorem isSome_afterAny? (name : Text) (leads : List Text) :
    (name.afterAny? leads).isSome = leads.any fun lead => name.startsWith lead := by
  unfold Text.afterAny?
  induction leads with
  | nil => rfl
  | cons lead leads ih =>
    rw [List.findSome?_cons, List.any_cons, ← ih]
    unfold Text.startsWith
    cases name.after? lead <;> rfl

/-- The memoryless verdict asks the name first, then the framework, then the style sheets. -/
theorem config_verdict_eq (config : Config) (tree : FileTree) (name : Text) (dynamic : Bool)
    (localNames : Option NameSet) :
    config.verdict tree name dynamic localNames =
      (nameVerdict? config name dynamic).getD
        (((if config.exempts tree then
            if Utility.isFramework name then some .utility
            else if Theme.accepts (config.themeNames tree) name then some .themeToken
            else none
          else none) : Option Verdict).getD
          (if name ∈ config.definedNames tree then .defined
          else if localNames.any fun names => names.contains name then .locallyDefined
          else .undefined)) := by
  unfold Config.verdict nameVerdict? Utility.isFramework
  rw [isSome_afterAny?]
  grind

theorem verdict_faithful (h : auditor.Coherent tree) (name : Text) (dynamic : Bool)
    (localNames : Option NameSet) :
    Faithful auditor.config tree (auditor.verdict tree name dynamic localNames)
      (auditor.config.verdict tree name dynamic localNames) := by
  rw [config_verdict_eq]
  unfold verdict
  cases nameVerdict? auditor.config name dynamic with
  | some verdict => exact ⟨rfl, rfl, h⟩
  | none =>
    obtain ⟨hexempts, hconfig, hcoherent⟩ := exemptsFramework_faithful h
    -- The framework is asked only if it is exempt, on the auditor that remembers the answer.
    rcases hresult : auditor.exemptsFramework tree with ⟨exempts, next⟩
    rw [hresult] at hexempts hconfig hcoherent
    simp only at hexempts hconfig hcoherent
    rw [← hexempts, ← hconfig]
    cases exempts with
    | false => exact definitionVerdict_faithful hcoherent name localNames
    | true =>
      obtain ⟨hframework, hconfig', hcoherent'⟩ := frameworkVerdict_faithful hcoherent name
      rcases hresult' : next.frameworkVerdict tree name with ⟨verdict?, last⟩
      rw [hresult'] at hframework hconfig' hcoherent'
      simp only at hframework hconfig' hcoherent'
      simp only [if_true, hresult', Option.getD_none]
      rw [← hframework, ← hconfig']
      cases verdict? with
      | some verdict => exact ⟨rfl, rfl, hcoherent'⟩
      | none => exact definitionVerdict_faithful hcoherent' name localNames

theorem undefinedNames_faithful (localNames : Option NameSet) (tokens : List ClassToken) :
    ∀ {auditor : Auditor}, auditor.Coherent tree →
      Faithful auditor.config tree (auditor.undefinedNames tree localNames tokens)
        (auditor.config.undefinedNames tree localNames tokens) := by
  induction tokens with
  | nil => exact fun h => ⟨rfl, rfl, h⟩
  | cons token rest ih =>
    intro auditor h
    obtain ⟨hverdict, hconfig, hcoherent⟩ :=
      verdict_faithful h token.value token.dynamic localNames
    obtain ⟨hnames, hconfig', hcoherent'⟩ := ih hcoherent
    refine ⟨?_, hconfig'.trans hconfig, hcoherent'⟩
    simp only [undefinedNames, hverdict, hnames, hconfig, Config.undefinedNames, List.filter_cons,
      decide_eq_true_eq]
    split <;> rfl

theorem auditSite_faithful (h : auditor.Coherent tree) (site : Site) (tokens : List ClassToken)
    (localNames : Option NameSet) :
    Faithful auditor.config tree (auditor.auditSite tree site tokens localNames)
      (Diagnostic.ofNames? site (auditor.config.undefinedNames tree localNames tokens)) := by
  obtain ⟨hnames, hconfig, hcoherent⟩ := undefinedNames_faithful localNames tokens h
  exact ⟨congrArg (Diagnostic.ofNames? site) hnames, hconfig, hcoherent⟩

end Auditor

end ClassAudit
