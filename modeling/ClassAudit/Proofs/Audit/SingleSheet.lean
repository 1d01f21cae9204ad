import ClassAudit.Proofs.Audit.History
import ClassAudit.Proofs.Css.RuleTree
import ClassAudit.Proofs.Markup.SpacedNames
/-!
# A class attribute against one style sheet

The whole way from the text of an attribute and the text of a style sheet to a
report: the attribute lists plain names, the sheet writes a rule tree, and the
report holds the names that the tree does not define, in the order of the list.
-/

namespace ClassAudit

namespace Css.RuleTree

/-- The names that a tree defines: the classes of its selectors and its keyframes. -/
def definedNames (rules : RuleTree) : List Text :=
  rules.selectors.flatMap (fun selector => (Selector.classes selector).toOption.getD []) ++
    rules.keyframesNames

theorem Written.mem_defined_iff {rules : RuleTree} {css : Text} (h : rules.Written css)
    (hform : rules.WellFormed) :
    ∃ sheet, Stylesheet.parse css = .ok sheet ∧
      ∀ name, name ∈ sheet.defined ↔ name ∈ rules.definedNames := by
  refine ⟨.ofFindings rules.findings, h.parse_eq hform, fun name => ?_⟩
  have hclasses : name ∈ rules.selectors.flatMap
      (fun selector => (Selector.classes selector).toOption.getD []) ↔
        ∃ selector ∈ rules.selectors, ∃ names, Selector.classes selector = .ok names ∧
          name ∈ names := by
    rw [List.mem_flatMap]
    refine exists_congr fun selector => and_congr_right fun _ => ?_
    cases Selector.classes selector with
    | ok names => simp [Except.toOption]
    | error cause => simp [Except.toOption]
  unfold Stylesheet.defined definedNames
  rw [NameSet.mem_union, Stylesheet.mem_classes_ofFindings, Stylesheet.mem_keyframes_ofFindings,
    className_mem_findings, keyframes_mem_findings, List.mem_append, hclasses]

end Css.RuleTree

/-- The names of a list that neither a tree nor a style module defines. -/
def missingNames (rules : Css.RuleTree) (names : List Text) : List Text :=
  names.filter fun name =>
    ¬(name ∈ rules.definedNames ∨ "module-".toList <+: name ∨ "styles-".toList <+: name)

/-! ## Reports -/

namespace Diagnostic

theorem ofNames?_eq_none_iff {site : Site} {names : List Text} :
    ofNames? site names = none ↔ names = [] := by
  match names with
  | [] => simp [ofNames?]
  | [name] => simp [ofNames?]
  | first :: second :: rest => simp [ofNames?]

theorem exists_ofNames? {site : Site} {names : List Text} (h : names ≠ []) :
    ∃ diagnostic, ofNames? site names = some diagnostic ∧ diagnostic.site = site ∧
      diagnostic.names = names ∧
      ((∃ name, diagnostic.classes = .single name) ↔ names.length = 1) := by
  match names with
  | [] => exact absurd rfl h
  | [name] => exact ⟨⟨site, .single name⟩, rfl, rfl, rfl, by simp⟩
  | first :: second :: rest =>
    exact ⟨⟨site, .multiple (first :: second :: rest)⟩, rfl, rfl, rfl, by simp⟩

end Diagnostic

/-- The node of a class attribute that is a string. -/
def classNameNode (text : Text) (span : Span) : SiteNode :=
  ⟨.jsxAttribute "className".toList (some (.string text)), span⟩

theorem tokens_classNameNode {names : List Text} {text : Text}
    (h : ClassList.Spaced names text) (hnames : ∀ name ∈ names, IsPlainName name) (span : Span) :
    (classNameNode text span).tokens = names.map (⟨·, false, ⟨.jsxAttribute, span⟩⟩) := by
  have hfound : Extract.contentTokens (classNameNode text span).content =
      Extract.literalTokens text := by
    have hattribute : Extract.jsxAttributes.contains "className".toList = true := by decide
    simp only [classNameNode, Extract.contentTokens, hattribute, if_true, Option.map_some,
      Option.getD_some, Expr.string, Extract.valueTokens]
  unfold SiteNode.tokens
  rw [hfound, Extract.literalTokens, h.tokens_eq hnames, List.map_map]
  rfl

theorem IsPlainName.hasPlaceholder_eq_false {name : Text} (h : IsPlainName name) :
    Utility.hasPlaceholder name = false := by
  have hbrace : '{' ∉ name := fun hmem => absurd (h.plain '{' hmem) (by decide)
  have hdollar : name.includes ['$', '{'] = false :=
    Bool.eq_false_iff.2 fun hincludes => hbrace (Text.mem_of_includes hincludes (by simp))
  have hdouble : name.includes ['{', '{'] = false :=
    Bool.eq_false_iff.2 fun hincludes => hbrace (Text.mem_of_includes hincludes (by simp))
  unfold Utility.hasPlaceholder
  rw [hdollar, hdouble]
  rfl

namespace Config

theorem mem_definedNames_iff {config : Config} {tree : FileTree} {path : Path} {css : Text}
    {rules : Css.RuleTree} (hsheets : config.sheets tree = [path])
    (hread : tree.read? path = some css) (hform : rules.WellFormed) (hwritten : rules.Written css)
    (name : Text) : name ∈ config.definedNames tree ↔ name ∈ rules.definedNames := by
  obtain ⟨sheet, hparse, hdefined⟩ := hwritten.mem_defined_iff hform
  have hone : definedIn tree path = sheet.defined := by
    unfold definedIn
    rw [hread, Option.map_some, hparse]
  unfold definedNames readDefined
  rw [hsheets, List.foldl_cons, List.foldl_nil, hone, NameSet.mem_union, hdefined]
  exact or_iff_right (NameSet.not_mem_empty name)

theorem verdict_eq_undefined_iff {config : Config} (tree : FileTree)
    (hframework : config.ignoreTailwind = false) (hpatterns : config.ignorePatterns = [])
    {name : Text} (hname : IsPlainName name) :
    config.verdict tree name false none = .undefined ↔
      ¬(name ∈ config.definedNames tree ∨
        "module-".toList <+: name ∨ "styles-".toList <+: name) := by
  have hplaceholder : Utility.hasPlaceholder name = false := hname.hasPlaceholder_eq_false
  have hignored : config.isIgnored name = false := by
    unfold isIgnored
    rw [hpatterns]
    rfl
  have hexempts : config.exempts tree = false := by
    unfold exempts
    rw [hframework]
    rfl
  have hmodule : (Auditor.moduleLeads.any fun lead => name.startsWith lead) = true ↔
      "module-".toList <+: name ∨ "styles-".toList <+: name := by
    simp only [Auditor.moduleLeads, Text.table, List.map_cons, List.map_nil, List.any_cons,
      List.any_nil, Bool.or_false, Bool.or_eq_true, Text.startsWith_iff]
  unfold verdict
  simp only [hplaceholder, hignored, hexempts, hmodule, Bool.or_false, Bool.and_false,
    Bool.false_and, Bool.false_eq_true, if_false, Option.any_none]
  by_cases hscoped : "module-".toList <+: name ∨ "styles-".toList <+: name
  · rw [if_pos hscoped]
    exact iff_of_false (by decide) fun hnone => hnone (Or.inr hscoped)
  rw [if_neg hscoped]
  by_cases hdefined : name ∈ config.definedNames tree
  · rw [if_pos hdefined]
    exact iff_of_false (by decide) fun hnone => hnone (Or.inl hdefined)
  · rw [if_neg hdefined]
    exact iff_of_true rfl fun hsome => hsome.elim hdefined hscoped

theorem undefinedNames_eq_missing {config : Config} {tree : FileTree} {rules : Css.RuleTree}
    {names : List Text} (hframework : config.ignoreTailwind = false)
    (hpatterns : config.ignorePatterns = [])
    (hdefined : ∀ name, name ∈ config.definedNames tree ↔ name ∈ rules.definedNames)
    (hnames : ∀ name ∈ names, IsPlainName name) (site : Site) :
    config.undefinedNames tree none (names.map (⟨·, false, site⟩)) = missingNames rules names := by
  have hfilter : (names.filter fun name => config.verdict tree name false none = .undefined) =
      missingNames rules names := by
    apply List.filter_congr
    intro name hname
    rw [decide_eq_decide, verdict_eq_undefined_iff tree hframework hpatterns (hnames name hname),
      hdefined]
  unfold undefinedNames
  rw [List.filter_map, List.map_map]
  exact (List.map_id _).trans hfilter

end Config

namespace Auditor

/-- The report about a class attribute, whatever the auditor was asked before: the names of the
attribute that the only style sheet does not define, in order and with repetitions. -/
theorem auditNode_reports_missing {config : Config} {tree : FileTree} {path : Path}
    {css text : Text} {rules : Css.RuleTree} {names : List Text}
    (hframework : config.ignoreTailwind = false) (hpatterns : config.ignorePatterns = [])
    (hsheets : config.sheets tree = [path]) (hread : tree.read? path = some css)
    (hform : rules.WellFormed) (hwritten : rules.Written css)
    (hnames : ∀ name ∈ names, IsPlainName name) (htext : ClassList.Spaced names text)
    (span : Span) (requests : List Request) :
    let report := ((serveAll { config := config } tree requests).2.auditNode tree
      (classNameNode text span) none).1
    (missingNames rules names = [] → report = none) ∧
      (missingNames rules names ≠ [] → ∃ diagnostic, report = some diagnostic ∧
        diagnostic.site = (classNameNode text span).site ∧
        diagnostic.names = missingNames rules names ∧
        ((∃ name, diagnostic.classes = .single name) ↔
          (missingNames rules names).length = 1)) := by
  intro report
  have hdefined := Config.mem_definedNames_iff hsheets hread hform hwritten
  -- Earlier requests leave memories that agree with the files, and so no trace in the report.
  obtain ⟨-, hconfig, hcoherent⟩ := serveAll_faithful requests (coherent_new tree config)
  have hreport : report =
      Diagnostic.ofNames? (classNameNode text span).site (missingNames rules names) := by
    have hfaithful := auditSite_faithful hcoherent (classNameNode text span).site
      (classNameNode text span).tokens none
    have hmissing := Config.undefinedNames_eq_missing hframework hpatterns hdefined hnames
      ⟨.jsxAttribute, span⟩
    rw [← tokens_classNameNode htext hnames span] at hmissing
    rw [hconfig] at hfaithful
    rw [← hmissing]
    exact hfaithful.answer
  rw [hreport]
  exact ⟨Diagnostic.ofNames?_eq_none_iff.2, Diagnostic.exists_ofNames?⟩

open Css in
/-- A rule in a rule in a grouping rule, and keyframes. -/
def cardRules : RuleTree :=
  .grouping "@layer a".toList
    (.style [".card".toList]
      (.declaration "top: 0".toList (.style ["& > .title:hover".toList] .nil .nil)) .nil)
    (.keyframes "@keyframes".toList "spin".toList ['t', 'o', '{', '}'] .nil)

/-- A text of `cardRules`. -/
def cardSheet : Text :=
  ("@layer a\x7b.card \x7btop: 0;& > .title:hover\x7b\x7d\x7d\x7d\n" ++
    "@keyframes spin\x7bto\x7b\x7d\x7d").toList

theorem wellFormed_cardRules : cardRules.WellFormed := by
  have hblock : Css.Balanced id ('{' :: [] ++ '}' :: []) := .block rfl rfl .nil .nil
  have hbody : Css.Balanced id ['t', 'o', '{', '}'] :=
    .other (by decide) (by decide) (.other (by decide) (by decide) hblock)
  refine ⟨?_, ⟨?_, ⟨?_, ?_, trivial, trivial⟩, trivial⟩, ⟨?_, ?_, ?_, hbody⟩, trivial⟩
  all_goals decide

theorem written_cardSheet : cardRules.Written cardSheet := by
  have htext : cardSheet = [] ++ ("@layer a".toList ++ [] ++ ('{' ::
      ([] ++ (".card".toList ++ [' '] ++ ('{' ::
        ([] ++ ("top: 0".toList ++ ';' :: ([] ++ ("& > .title:hover".toList ++ [] ++
          ('{' :: [] ++ '}' :: []))))) ++ '}' :: []))) ++ '}' ::
      (['\n'] ++ ("@keyframes".toList ++ [' '] ++ "spin".toList ++ [] ++
        ('{' :: ['t', 'o', '{', '}'] ++ '}' :: []))))) := by decide
  rw [htext]
  have hnil : Css.RuleTree.Written .nil [] := .nil (by decide)
  refine .grouping ?_ ?_
    (.style ?_ (.single _) ?_ (.declaration ?_ (.style ?_ (.single _) ?_ hnil hnil)) hnil)
    (.keyframes ?_ ?_ ?_ ?_ hnil)
  all_goals decide

def cardTree : FileTree := ⟨[(Text.table ["card.css"], some cardSheet)]⟩

/-- The names of an attribute, two of which stand for one that is not defined. -/
def cardNames : List Text := Text.table ["title", "nope", "spin", "module-x", "nope"]

theorem spaced_cardNames :
    ClassList.Spaced cardNames " title nope\tspin  module-x\n nope".toList := by
  have htext : " title nope\tspin  module-x\n nope".toList =
      [' '] ++ ("title".toList ++ ([' '] ++ ("nope".toList ++ (['\t'] ++ ("spin".toList ++
        ([' ', ' '] ++ ("module-x".toList ++ (['\n', ' '] ++ ("nope".toList ++ []))))))))) := by
    decide
  rw [htext]
  have hnil : ClassList.Spaced [] [] := .nil (by decide)
  refine .cons ?_ ?_ (.cons ?_ ?_ (.cons ?_ ?_ (.cons ?_ ?_ (.cons ?_ ?_ hnil))))
  all_goals decide

theorem auditNode_reports_missing_card :
    (Config.bare (Text.table ["*.css"])).sheets cardTree = [⟨true, [.name "card.css".toList]⟩] ∧
      cardRules.WellFormed ∧ cardRules.Written cardSheet ∧
      ∃ diagnostic, ((serveAll { config := .bare (Text.table ["*.css"]) } cardTree []).2.auditNode
          cardTree (classNameNode " title nope\tspin  module-x\n nope".toList ⟨3, 40⟩) none).1 =
        some diagnostic ∧ diagnostic.names = Text.table ["nope", "nope"] := by
  have hsheets : (Config.bare (Text.table ["*.css"])).sheets cardTree =
      [⟨true, [.name "card.css".toList]⟩] := by decide +kernel
  have hmissing : missingNames cardRules cardNames = Text.table ["nope", "nope"] := by
    decide +kernel
  have hreport := auditNode_reports_missing rfl rfl hsheets rfl wellFormed_cardRules
    written_cardSheet (by decide) spaced_cardNames ⟨3, 40⟩ []
  obtain ⟨diagnostic, hsome, -, hnames, -⟩ := hreport.2 (by rw [hmissing]; decide)
  rw [hmissing] at hnames
  exact ⟨hsheets, wellFormed_cardRules, written_cardSheet, diagnostic, hsome, hnames⟩

end Auditor

end ClassAudit
