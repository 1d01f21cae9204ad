import ClassAudit.Proofs.Audit.History
/-!
# Placeholders under a strict policy

Where computed names are not allowed, a name with a placeholder should be
judged like any other: by the patterns, the module leads, the grammar of
utility classes, the theme and the style sheets.  The looser recogniser accepts
every placeholder whatever the policy says, so this holds exactly where the
framework is not exempt or one of the earlier answers settles the name.
-/

namespace ClassAudit

/-- The verdict on a class name if of the framework only the grammar and the theme counted. -/
def Config.grammarVerdict (config : Config) (tree : FileTree) (name : Text)
    (localNames : Option NameSet) : Verdict :=
  if config.isIgnored name then .ignoredPattern
  else if Auditor.moduleLeads.any fun lead => name.startsWith lead then .moduleScoped
  else if config.exempts tree && Utility.isUtility name then .utility
  else if config.exempts tree && Theme.accepts (config.themeNames tree) name then .themeToken
  else if name ∈ config.definedNames tree then .defined
  else if localNames.any fun names => names.contains name then .locallyDefined
  else .undefined

/-- A name that is judged before the looser recogniser is asked, or without it. -/
def Config.SettlesBefore (config : Config) (tree : FileTree) (name : Text) : Prop :=
  config.isIgnored name = true ∨ (Auditor.moduleLeads.any fun lead => name.startsWith lead) = true ∨
    Utility.isUtility name = true ∨ config.exempts tree = false

namespace Config

variable {config : Config} {tree : FileTree} {name : Text} {localNames : Option NameSet}

theorem isUtility_of_grammarVerdict (h : config.grammarVerdict tree name localNames = .utility) :
    Utility.isUtility name = true := by
  unfold grammarVerdict at h
  grind

/-- The looser recogniser is not asked about a settled name, or says nothing new about it. -/
theorem verdict_of_settlesBefore (hstrict : config.allowDynamicClasses = false)
    (h : config.SettlesBefore tree name) (dynamic : Bool) :
    config.verdict tree name dynamic localNames =
      config.grammarVerdict tree name localNames := by
  unfold verdict grammarVerdict
  rw [hstrict, Bool.false_and, if_neg (by decide)]
  rcases h with hignored | hmodule | hutility | hexempts
  · rw [if_pos hignored, if_pos hignored]
  · rw [if_pos hmodule, if_pos hmodule]
  · rw [hutility, Bool.true_or]
  · simp only [hexempts, Bool.false_and]

/-- Any other name with a placeholder is taken for a utility class. -/
theorem verdict_of_not_settlesBefore (hstrict : config.allowDynamicClasses = false)
    (hplaceholder : Utility.hasPlaceholder name = true) (h : ¬config.SettlesBefore tree name)
    (dynamic : Bool) : config.verdict tree name dynamic localNames = .utility := by
  obtain ⟨hignored, hmodule, -, hexempts⟩ :
      ¬config.isIgnored name = true ∧
        ¬(Auditor.moduleLeads.any fun lead => name.startsWith lead) = true ∧
        ¬Utility.isUtility name = true ∧ ¬config.exempts tree = false := by
    simpa only [SettlesBefore, not_or] using h
  have hdynamic : Utility.isDynamic name = true := by
    unfold Utility.isDynamic
    rw [hplaceholder, Bool.true_or]
  unfold verdict
  rw [hstrict, Bool.false_and, if_neg (by decide), if_neg hignored, if_neg hmodule, if_pos]
  rw [hdynamic, Bool.or_true, Bool.and_true]
  exact (Bool.not_eq_false _).mp hexempts

end Config

namespace Auditor

/-- Where computed names are not allowed, whatever the auditor was asked before: only utility
classes among the names with a placeholder get the verdict of a utility class, and the verdict is
the one without the looser recogniser, exactly if the name is settled before. -/
theorem placeholder_verdict_iff {config : Config} {name : Text}
    (hstrict : config.allowDynamicClasses = false)
    (hplaceholder : Utility.hasPlaceholder name = true) (tree : FileTree)
    (requests : List Request) (dynamic : Bool) (localNames : Option NameSet) :
    let verdict := ((serveAll { config := config } tree requests).2.verdict tree name dynamic
      localNames).1
    ((verdict = .utility → Utility.isUtility name = true) ↔ config.SettlesBefore tree name) ∧
      (verdict = config.grammarVerdict tree name localNames ↔
        config.SettlesBefore tree name) := by
  intro verdict
  have hverdict : verdict = config.verdict tree name dynamic localNames := by
    obtain ⟨-, hconfig, hcoherent⟩ := serveAll_faithful requests (coherent_new tree config)
    have hanswer := (verdict_faithful hcoherent name dynamic localNames).answer
    rwa [hconfig] at hanswer
  rw [hverdict]
  by_cases hsettles : config.SettlesBefore tree name
  · rw [Config.verdict_of_settlesBefore hstrict hsettles]
    exact ⟨iff_of_true Config.isUtility_of_grammarVerdict hsettles, iff_of_true rfl hsettles⟩
  · have hutility : ¬Utility.isUtility name = true := fun h => hsettles (.inr (.inr (.inl h)))
    rw [Config.verdict_of_not_settlesBefore hstrict hplaceholder hsettles]
    refine ⟨iff_of_false (fun h => hutility (h rfl)) hsettles, iff_of_false ?_ hsettles⟩
    intro hgrammar
    exact hutility (Config.isUtility_of_grammarVerdict hgrammar.symm)

/-- A class name with a computed colour. -/
def computedColor : Text := "bg-$\x7bcolor\x7d".toList

theorem placeholder_verdict_bare :
    Utility.hasPlaceholder computedColor = true ∧
      ((serveAll { config := .bare [] } ⟨[]⟩ []).2.verdict ⟨[]⟩ computedColor false none).1 =
        .undefined := by
  have hplaceholder : Utility.hasPlaceholder computedColor = true := by decide
  refine ⟨hplaceholder, ?_⟩
  have hlaw := @placeholder_verdict_iff (.bare []) computedColor rfl hplaceholder ⟨[]⟩ [] false none
  rw [hlaw.2.2 (.inr (.inr (.inr rfl)))]
  decide +kernel

/-- Where the framework is exempt, a placeholder alone makes a utility class, also under the strict
policy. -/
theorem placeholder_exempts :
    ((serveAll { config := { Config.bare [] with ignoreTailwind := true } } ⟨[]⟩ []).2.verdict
        ⟨[]⟩ computedColor false none).1 = .utility ∧
      Utility.isUtility computedColor = false := by
  decide +kernel

end Auditor

end ClassAudit
