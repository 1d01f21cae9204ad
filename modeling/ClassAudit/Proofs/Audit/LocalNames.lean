import ClassAudit.Proofs.Audit.Leniency
/-!
# Local names and parts of a site

The names that a component defines excuse a name only after every other verdict
has failed to, so they take their own members off a report and change nothing
else.  No memory changes a verdict over a fixed tree; so the report about a list
of tokens is put together from those about its parts, whether the auditor has seen
the first part before the second or not.
-/

namespace ClassAudit

/-- A report about a site that holds the given names, in the form for their number. -/
structure Reports (site : Site) (names : List Text) (report : Option Diagnostic) : Prop where
  reported : reportedNames report = names
  none : report = none ↔ names = []
  single : (∃ name, report = some ⟨site, .single name⟩) ↔ names.length = 1
  multiple : (∃ several, report = some ⟨site, .multiple several⟩) ↔ 2 ≤ names.length

theorem reports_ofNames? (site : Site) (names : List Text) :
    Reports site names (Diagnostic.ofNames? site names) := by
  refine ⟨reportedNames_ofNames? site names, ?_, ?_, ?_⟩
  all_goals
    match names with
    | [] => simp [Diagnostic.ofNames?]
    | [name] => simp [Diagnostic.ofNames?]
    | first :: second :: rest => simp [Diagnostic.ofNames?]

namespace Config

/-- Local names come last: they change a verdict only where nothing else defines the name. -/
theorem verdict_some (config : Config) (tree : FileTree) (name : Text) (dynamic : Bool)
    (localNames : NameSet) :
    config.verdict tree name dynamic (some localNames) =
      if config.verdict tree name dynamic none = .undefined ∧ name ∈ localNames then
        .locallyDefined
      else config.verdict tree name dynamic none := by
  unfold verdict
  simp only [Option.any_some, Option.any_none, NameSet.contains_iff, Bool.false_eq_true, if_false]
  grind

theorem verdict_some_eq_undefined_iff {config : Config} {tree : FileTree} {name : Text}
    {dynamic : Bool} {localNames : NameSet} :
    config.verdict tree name dynamic (some localNames) = .undefined ↔
      config.verdict tree name dynamic none = .undefined ∧ name ∉ localNames := by
  rw [verdict_some]
  by_cases hundefined : config.verdict tree name dynamic none = .undefined
  · by_cases hlocal : name ∈ localNames
    · simp [hundefined, hlocal]
    · simp [hundefined, hlocal]
  · simp [hundefined]

theorem undefinedNames_some (config : Config) (tree : FileTree) (localNames : NameSet)
    (tokens : List ClassToken) :
    config.undefinedNames tree (some localNames) tokens =
      (config.undefinedNames tree none tokens).filter fun name => name ∉ localNames := by
  unfold undefinedNames
  rw [List.filter_map, List.filter_filter]
  congr 1
  apply List.filter_congr
  intro token _
  rw [decide_eq_decide.2 verdict_some_eq_undefined_iff, Bool.decide_and, Bool.and_comm]
  rfl

theorem undefinedNames_append (config : Config) (tree : FileTree) (localNames : Option NameSet)
    (first second : List ClassToken) :
    config.undefinedNames tree localNames (first ++ second) =
      config.undefinedNames tree localNames first ++
        config.undefinedNames tree localNames second := by
  unfold undefinedNames
  rw [List.filter_append, List.map_append]

end Config

namespace Auditor

/-- Whatever an auditor was asked before over a fixed tree: local names take their members off a
report, in order and with repetitions; the names reported for two lists of tokens are those of the
first and those of the second, asked before or after the first; and a report holds the names of the
tokens whose verdict is that nothing defines them, in the form for their number. -/
theorem report_parts_and_form (config : Config) (tree : FileTree) (requests : List Request)
    (site : Site) :
    let auditor := (serveAll { config := config } tree requests).2
    (∀ (tokens : List ClassToken) (localNames : NameSet),
      reportedNames (auditor.auditSite tree site tokens (some localNames)).1 =
        (reportedNames (auditor.auditSite tree site tokens none).1).filter
          fun name => name ∉ localNames) ∧
    (∀ (first second : List ClassToken) (localNames : Option NameSet),
      let behind := (auditor.auditSite tree site first localNames).2
      reportedNames (auditor.auditSite tree site (first ++ second) localNames).1 =
        reportedNames (auditor.auditSite tree site first localNames).1 ++
          reportedNames (auditor.auditSite tree site second localNames).1 ∧
      reportedNames (behind.auditSite tree site second localNames).1 =
        reportedNames (auditor.auditSite tree site second localNames).1) ∧
    ∀ (tokens : List ClassToken) (localNames : Option NameSet),
      Reports site
        ((tokens.filter fun token =>
          (auditor.verdict tree token.value token.dynamic localNames).1 = .undefined).map
            ClassToken.value)
        (auditor.auditSite tree site tokens localNames).1 := by
  intro auditor
  obtain ⟨-, -, hcoherent⟩ := serveAll_faithful requests (coherent_new tree config)
  have hnames := reportedNames_of_coherent hcoherent site
  refine ⟨?_, ?_, ?_⟩
  · intro tokens localNames
    rw [hnames, hnames, Config.undefinedNames_some]
  · intro first second localNames behind
    obtain ⟨-, hconfig, hbehind⟩ := auditSite_faithful hcoherent site first localNames
    rw [hnames, hnames, hnames, Config.undefinedNames_append, reportedNames_of_coherent hbehind,
      hconfig]
    exact ⟨rfl, rfl⟩
  · intro tokens localNames
    have hverdict : ∀ token : ClassToken,
        (auditor.verdict tree token.value token.dynamic localNames).1 =
          auditor.config.verdict tree token.value token.dynamic localNames := fun token =>
      (verdict_faithful hcoherent token.value token.dynamic localNames).answer
    simp only [hverdict]
    rw [(auditSite_faithful hcoherent site tokens localNames).answer]
    exact reports_ofNames? site _

end Auditor

end ClassAudit
