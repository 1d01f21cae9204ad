import ClassAudit.Proofs.Audit.History
import ClassAudit.Proofs.Project.AddedFiles
import Mathlib.Data.List.Basic
/-!
# Audits that report less

A name is reported if none of several excuses applies to it.  Whatever makes for
more excuses, a looser configuration or more files, can only take names off a
report.  `Config.Milder` says that one audit has all the excuses of another; its
report is then a sublist of the other's, with the order and the repetitions that
are left.
-/

namespace ClassAudit

/-- The names that a report holds. -/
def reportedNames : Option Diagnostic → List Text
  | none => []
  | some diagnostic => diagnostic.names

theorem reportedNames_ofNames? (site : Site) (names : List Text) :
    reportedNames (Diagnostic.ofNames? site names) = names := by
  match names with
  | [] => rfl
  | [name] => rfl
  | first :: second :: rest => rfl

namespace Config

/-- Why a name is not reported. -/
inductive Excuses (config : Config) (tree : FileTree) (name : Text) (dynamic : Bool)
    (localNames : Option NameSet) : Prop where
  | dynamic (hallowed : config.allowDynamicClasses = true)
      (hname : (dynamic || Utility.hasPlaceholder name) = true)
  | ignored (hname : config.isIgnored name = true)
  | moduleScoped (hname : (Auditor.moduleLeads.any fun lead => name.startsWith lead) = true)
  | utility (hexempts : config.exempts tree = true)
      (hname : (Utility.isUtility name || Utility.isDynamic name) = true)
  | themeToken (hexempts : config.exempts tree = true)
      (hname : Theme.accepts (config.themeNames tree) name = true)
  | defined (hname : name ∈ config.definedNames tree)
  | locallyDefined (hname : (localNames.any fun names => names.contains name) = true)

theorem verdict_ne_undefined_iff {config : Config} {tree : FileTree} {name : Text}
    {dynamic : Bool} {localNames : Option NameSet} :
    config.verdict tree name dynamic localNames ≠ .undefined ↔
      config.Excuses tree name dynamic localNames := by
  unfold verdict
  constructor
  · intro h
    split at h
    · rename_i hdynamic
      exact .dynamic (Bool.and_eq_true_iff.1 hdynamic).1 (Bool.and_eq_true_iff.1 hdynamic).2
    split at h
    · exact .ignored ‹_›
    split at h
    · exact .moduleScoped ‹_›
    split at h
    · rename_i hutility
      exact .utility (Bool.and_eq_true_iff.1 hutility).1 (Bool.and_eq_true_iff.1 hutility).2
    split at h
    · rename_i htheme
      exact .themeToken (Bool.and_eq_true_iff.1 htheme).1 (Bool.and_eq_true_iff.1 htheme).2
    split at h
    · exact .defined ‹_›
    split at h
    · exact .locallyDefined ‹_›
    · exact absurd rfl h
  · intro h
    cases h <;> grind

/-- An audit that has every excuse of another one. -/
structure Milder (config : Config) (tree : FileTree) (mild : Config) (larger : FileTree) :
    Prop where
  dynamic : config.allowDynamicClasses = true → mild.allowDynamicClasses = true
  ignored : ∀ {name}, config.isIgnored name = true → mild.isIgnored name = true
  exempts : config.exempts tree = true → mild.exempts larger = true
  theme : ∀ name ∈ config.themeNames tree, name ∈ mild.themeNames larger
  defined : ∀ name ∈ config.definedNames tree, name ∈ mild.definedNames larger

namespace Milder

variable {config mild : Config} {tree larger : FileTree}

theorem excuses (h : config.Milder tree mild larger) {name : Text} {dynamic : Bool}
    {localNames : Option NameSet} (hname : config.Excuses tree name dynamic localNames) :
    mild.Excuses larger name dynamic localNames := by
  cases hname with
  | dynamic hallowed hname => exact .dynamic (h.dynamic hallowed) hname
  | ignored hname => exact .ignored (h.ignored hname)
  | moduleScoped hname => exact .moduleScoped hname
  | utility hexempts hname => exact .utility (h.exempts hexempts) hname
  | themeToken hexempts hname =>
    exact .themeToken (h.exempts hexempts) (Theme.accepts_of_subset h.theme hname)
  | defined hname => exact .defined (h.defined name hname)
  | locallyDefined hname => exact .locallyDefined hname

theorem verdict (h : config.Milder tree mild larger) {name : Text} {dynamic : Bool}
    {localNames : Option NameSet}
    (hname : config.verdict tree name dynamic localNames ≠ .undefined) :
    mild.verdict larger name dynamic localNames ≠ .undefined :=
  verdict_ne_undefined_iff.2 (h.excuses (verdict_ne_undefined_iff.1 hname))

theorem undefinedNames (h : config.Milder tree mild larger) (localNames : Option NameSet)
    (tokens : List ClassToken) :
    (mild.undefinedNames larger localNames tokens).Sublist
      (config.undefinedNames tree localNames tokens) := by
  apply List.Sublist.map
  apply List.monotone_filter_right
  intro token htoken
  rw [decide_eq_true_eq] at htoken ⊢
  by_contra hexcused
  exact h.verdict hexcused htoken

end Milder

/-- A configuration that differs from another one only by being looser. -/
structure Loosens (strict loose : Config) : Prop where
  projectRoot : loose.projectRoot = strict.projectRoot
  baseDir : loose.baseDir = strict.baseDir
  cssFiles : loose.cssFiles = strict.cssFiles
  excludePatterns : loose.excludePatterns = strict.excludePatterns
  ignorePatterns : strict.ignorePatterns ⊆ loose.ignorePatterns
  ignoreTailwind : strict.ignoreTailwind = true → loose.ignoreTailwind = true
  requireTailwindConfig : loose.requireTailwindConfig = true → strict.requireTailwindConfig = true
  allowDynamicClasses : strict.allowDynamicClasses = true → loose.allowDynamicClasses = true

namespace Loosens

variable {strict loose : Config}

theorem sheets (h : strict.Loosens loose) (tree : FileTree) :
    loose.sheets tree = strict.sheets tree := by
  unfold Config.sheets styleSearch
  rw [h.baseDir, h.cssFiles, h.excludePatterns]

theorem showsFramework (h : strict.Loosens loose) (tree : FileTree) :
    loose.showsFramework tree = strict.showsFramework tree := by
  unfold Config.showsFramework
  rw [h.projectRoot, h.sheets]

theorem isIgnored (h : strict.Loosens loose) {name : Text} (hname : strict.isIgnored name = true) :
    loose.isIgnored name = true := by
  obtain ⟨pattern, hpattern, hmatch⟩ := List.any_eq_true.1 hname
  exact List.any_eq_true.2 ⟨pattern, h.ignorePatterns hpattern, hmatch⟩

theorem exempts (h : strict.Loosens loose) {tree : FileTree}
    (hexempts : strict.exempts tree = true) : loose.exempts tree = true := by
  unfold Config.exempts at hexempts ⊢
  rw [h.showsFramework]
  rw [Bool.and_eq_true, Bool.or_eq_true, Bool.not_eq_true'] at hexempts ⊢
  refine ⟨h.ignoreTailwind hexempts.1, ?_⟩
  cases hrequire : loose.requireTailwindConfig with
  | false => exact .inl rfl
  | true =>
    rw [h.requireTailwindConfig hrequire] at hexempts
    exact .inr (hexempts.2.resolve_left Bool.noConfusion)

theorem milder (h : strict.Loosens loose) (tree : FileTree) : strict.Milder tree loose tree where
  dynamic := h.allowDynamicClasses
  ignored := h.isIgnored
  exempts := h.exempts
  theme := by
    unfold themeNames
    rw [h.sheets]
    exact fun _ hname => hname
  defined := by
    unfold definedNames
    rw [h.sheets]
    exact fun _ hname => hname

end Loosens

/-- The options of the recommended preset loosen those of the strict one in every project. -/
theorem loosens_of_presets {read? : PatternReader} {workingDir root : Path}
    {strict recommended : Config}
    (hstrict : ofOptions read? workingDir Preset.strict.options root = .ok strict)
    (hrecommended : ofOptions read? workingDir Preset.recommended.options root = .ok recommended) :
    strict.Loosens recommended := by
  cases hstrict
  cases hrecommended
  constructor <;> simp [Preset.options]

theorem milder_of_extends {tree larger : FileTree} (h : tree.Extends larger) (config : Config) :
    config.Milder tree config larger where
  dynamic := id
  ignored := id
  exempts := by
    intro hexempts
    unfold exempts at hexempts ⊢
    rw [Bool.and_eq_true, Bool.or_eq_true] at hexempts ⊢
    refine ⟨hexempts.1, hexempts.2.imp_right ?_⟩
    exact h.isSome_find? config.projectRoot (h.discover config.styleSearch)
  theme := fun _ => h.utilityClasses (h.discover config.styleSearch)
  defined := fun _ => h.readDefined (h.discover config.styleSearch)

end Config

namespace Auditor

theorem reportedNames_of_coherent {tree : FileTree} {auditor : Auditor}
    (h : auditor.Coherent tree) (site : Site) (tokens : List ClassToken)
    (localNames : Option NameSet) :
    reportedNames (auditor.auditSite tree site tokens localNames).1 =
      auditor.config.undefinedNames tree localNames tokens := by
  rw [(auditSite_faithful h site tokens localNames).answer, reportedNames_ofNames?]

theorem reportedNames_auditSite (config : Config) (tree : FileTree) (site : Site)
    (tokens : List ClassToken) (localNames : Option NameSet) :
    reportedNames (auditSite { config := config } tree site tokens localNames).1 =
      config.undefinedNames tree localNames tokens :=
  reportedNames_of_coherent (coherent_new tree config) site tokens localNames

/-- A new auditor of a milder audit reports, in order, only what is reported by the other. -/
theorem reportedNames_sublist {config mild : Config} {tree larger : FileTree}
    (h : config.Milder tree mild larger) (site : Site) (tokens : List ClassToken)
    (localNames : Option NameSet) :
    (reportedNames (auditSite { config := mild } larger site tokens localNames).1).Sublist
      (reportedNames (auditSite { config := config } tree site tokens localNames).1) := by
  rw [reportedNames_auditSite, reportedNames_auditSite]
  exact h.undefinedNames localNames tokens

/-- Loosening a configuration only takes names off the reports of a new auditor: what is left is a
sublist.  So is the report of the recommended preset in that of the strict one, in every project. -/
theorem loosened_report_sublist :
    (∀ {strict loose : Config}, strict.Loosens loose →
      ∀ (tree : FileTree) (site : Site) (tokens : List ClassToken) (localNames : Option NameSet),
        (reportedNames (auditSite { config := loose } tree site tokens localNames).1).Sublist
          (reportedNames (auditSite { config := strict } tree site tokens localNames).1)) ∧
      ∀ (read? : PatternReader) (workingDir root : Path), ∃ strict recommended : Config,
        Config.ofOptions read? workingDir Preset.strict.options root = .ok strict ∧
        Config.ofOptions read? workingDir Preset.recommended.options root = .ok recommended ∧
        ∀ (tree : FileTree) (site : Site) (tokens : List ClassToken) (localNames : Option NameSet),
          (reportedNames
            (auditSite { config := recommended } tree site tokens localNames).1).Sublist
              (reportedNames (auditSite { config := strict } tree site tokens localNames).1) := by
  constructor
  · intro strict loose h tree
    exact reportedNames_sublist (h.milder tree)
  · intro read? workingDir root
    refine ⟨_, _, rfl, rfl, ?_⟩
    intro tree
    exact reportedNames_sublist ((Config.loosens_of_presets rfl rfl).milder tree)

/-- A project with one style sheet and no sign of the framework. -/
def shopTree : FileTree := ⟨[(Text.table ["shop.css"], some ".card\x7b\x7d".toList)]⟩

/-- The tokens of a site, of which the second is part of a computed name. -/
def shopTokens : List ClassToken :=
  let site : Site := ⟨.expression, {}⟩
  [⟨"nope".toList, false, site⟩, ⟨"btn-".toList, true, site⟩, ⟨"flex".toList, false, site⟩,
    ⟨"card".toList, false, site⟩, ⟨"nope".toList, false, site⟩]

/-- A configuration that knows the framework only where a project shows it. -/
def shopConfig : Config :=
  { Config.bare (Text.table ["*.css"]) with ignoreTailwind := true, requireTailwindConfig := true }

theorem loosened_report_sublist_shop :
    let loose := { shopConfig with requireTailwindConfig := false, allowDynamicClasses := true }
    shopConfig.Loosens loose ∧
      reportedNames (auditSite { config := shopConfig } shopTree ⟨.expression, {}⟩ shopTokens
        none).1 = Text.table ["nope", "btn-", "flex", "nope"] ∧
      (reportedNames (auditSite { config := loose } shopTree ⟨.expression, {}⟩ shopTokens
        none).1).Sublist (Text.table ["nope", "btn-", "flex", "nope"]) := by
  intro loose
  have hloosens : shopConfig.Loosens loose := by constructor <;> simp [loose, shopConfig]
  have hstrict : reportedNames (auditSite { config := shopConfig } shopTree ⟨.expression, {}⟩
      shopTokens none).1 = Text.table ["nope", "btn-", "flex", "nope"] := by decide +kernel
  refine ⟨hloosens, hstrict, ?_⟩
  rw [← hstrict]
  exact loosened_report_sublist.1 hloosens shopTree _ _ _

/-- A file that comes in where nothing was creates no report: a token that a new auditor did not
call undefined is not called so with the file, whatever the file holds. -/
theorem added_file_report_sublist {tree : FileTree} {path : Path} (h : tree.Vacant path)
    (content : FileContent) (config : Config) (localNames : Option NameSet) :
    (∀ (name : Text) (dynamic : Bool),
      (verdict { config := config } tree name dynamic localNames).1 ≠ .undefined →
        (verdict { config := config } (tree.write path content) name dynamic localNames).1 ≠
          .undefined) ∧
      ∀ (site : Site) (tokens : List ClassToken),
        (reportedNames (auditSite { config := config } (tree.write path content) site tokens
          localNames).1).Sublist
            (reportedNames (auditSite { config := config } tree site tokens localNames).1) := by
  have hmilder := Config.milder_of_extends (FileTree.extends_write h content) config
  constructor
  · intro name dynamic hname
    rw [(verdict_faithful (coherent_new _ config) name dynamic localNames).answer] at hname ⊢
    exact hmilder.verdict hname
  · intro site tokens
    exact reportedNames_sublist hmilder site tokens localNames

/-- A style sheet that cannot be read comes into the project. -/
theorem added_file_report_sublist_shop :
    let torn := shopTree.write (.ofText "/torn.css".toList) (some ".card\x7b".toList)
    shopTree.Vacant (.ofText "/torn.css".toList) ∧
      (verdict { config := shopConfig } shopTree "card".toList false none).1 ≠ .undefined ∧
      (verdict { config := shopConfig } torn "card".toList false none).1 ≠ .undefined := by
  intro torn
  have hvacant : shopTree.Vacant (.ofText "/torn.css".toList) := by decide +kernel
  have hcard : (verdict { config := shopConfig } shopTree "card".toList false none).1 ≠
      .undefined := by decide +kernel
  exact ⟨hvacant, hcard, (added_file_report_sublist hvacant _ shopConfig none).1 _ _ hcard⟩

end Auditor

end ClassAudit
