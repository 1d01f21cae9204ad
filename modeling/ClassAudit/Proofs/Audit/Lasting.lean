import ClassAudit.Proofs.Audit.History
/-!
# Answers that last

Files may change while an auditor is at work, and its memories may then come from
different states of the files.  An answer still lasts until the auditor forgets:
giving it fills every memory that it rests on, and no request but `forget` empties
a memory or fills it anew.

`Auditor.Keeps` says that one auditor remembers what another does, and
`Auditor.Lasting` that an operation, asked again of any auditor that keeps what the
operation left, answers the same over any tree.  Operations that last compose
(`Lasting.bind`), which reduces every verdict to the memories one by one.
-/

namespace ClassAudit

namespace Auditor

/-- The answers that the recognizer remembers are right. -/
def Sound (auditor : Auditor) : Prop :=
  ∀ entry ∈ auditor.recognizer.cache.entries, entry.2 = Utility.isFramework entry.1

/-- The second auditor remembers all that the first one does, as far as verdicts rest on it. -/
structure Keeps (first second : Auditor) : Prop where
  config : second.config = first.config
  catalog : ∀ search built, first.catalog.entries.lookup search = some built →
    second.catalog.entries.lookup search = some built
  memo : ∀ root answer, first.memo.answers.lookup root = some answer →
    second.memo.answers.lookup root = some answer
  theme : ∀ built, first.theme = some built → second.theme = some built
  sound : first.Sound → second.Sound

theorem Keeps.refl (auditor : Auditor) : auditor.Keeps auditor where
  config := rfl
  catalog := fun _ _ h => h
  memo := fun _ _ h => h
  theme := fun _ h => h
  sound := fun h => h

theorem Keeps.trans {first second third : Auditor} (h : first.Keeps second)
    (h' : second.Keeps third) : first.Keeps third where
  config := h'.config.trans h.config
  catalog := fun search built hfound => h'.catalog search built (h.catalog search built hfound)
  memo := fun root answer hfound => h'.memo root answer (h.memo root answer hfound)
  theme := fun built hfound => h'.theme built (h.theme built hfound)
  sound := fun hsound => h'.sound (h.sound hsound)

/-- An operation of auditors whose answer holds for all that keep what it leaves. -/
structure Lasting {α : Type} (op : Auditor → FileTree → α × Auditor) : Prop where
  keeps : ∀ (auditor : Auditor) (tree : FileTree), auditor.Keeps (op auditor tree).2
  replays : ∀ {auditor later : Auditor} {tree : FileTree} (tree' : FileTree), auditor.Sound →
    (op auditor tree).2.Keeps later → (op later tree').1 = (op auditor tree).1

namespace Lasting

variable {α β : Type}

theorem pure (value : α) : Lasting fun auditor _ => (value, auditor) where
  keeps := fun auditor _ => .refl auditor
  replays := fun _ _ _ => rfl

theorem bind {op : Auditor → FileTree → α × Auditor} {next : α → Auditor → FileTree → β × Auditor}
    (hop : Lasting op) (hnext : ∀ value, Lasting (next value)) :
    Lasting fun auditor tree => next (op auditor tree).1 (op auditor tree).2 tree where
  keeps := fun auditor tree => (hop.keeps auditor tree).trans ((hnext _).keeps _ tree)
  replays := by
    intro auditor later tree tree' hsound hkeeps
    -- What follows the first operation keeps what it left, so asked again it answers the same,
    -- and the second operation is the one that followed before.
    have hafter := (hnext (op auditor tree).1).keeps (op auditor tree).2 tree
    have hvalue : (op later tree').1 = (op auditor tree).1 :=
      hop.replays tree' hsound (hafter.trans hkeeps)
    simp only [hvalue]
    apply (hnext (op auditor tree).1).replays tree' ((hop.keeps auditor tree).sound hsound)
    exact hkeeps.trans (hop.keeps later tree')

theorem map {op : Auditor → FileTree → α × Auditor} (hop : Lasting op) (f : α → β) :
    Lasting fun auditor tree => (f (op auditor tree).1, (op auditor tree).2) :=
  hop.bind fun value => .pure (f value)

theorem config : Lasting fun auditor _ => (auditor.config, auditor) where
  keeps := fun auditor _ => .refl auditor
  replays := fun _ _ hkeeps => hkeeps.config

end Lasting

/-! ## The memories one by one -/

theorem sheetPaths_keeps (auditor : Auditor) (tree : FileTree) :
    auditor.Keeps (auditor.sheetPaths tree).2 := by
  unfold sheetPaths
  split
  · exact .refl auditor
  · exact { Keeps.refl auditor with }

private theorem lookup_cons_of_none {κ α : Type} [BEq κ] [LawfulBEq κ] {entries : List (κ × α)}
    {key : κ} {value : α} (hnone : entries.lookup key = none) {other : κ} {found : α}
    (h : entries.lookup other = some found) :
    ((key, value) :: entries).lookup other = some found := by
  have hne : (other == key) = false := by
    rw [Bool.eq_false_iff]
    intro heq
    rw [eq_of_beq heq, hnone] at h
    cases h
  rw [List.lookup_cons, hne]
  exact h

theorem knownClasses_of_found {auditor : Auditor} {built : Built NameSet}
    (h : auditor.catalog.entries.lookup auditor.search = some built) (tree : FileTree) :
    auditor.knownClasses tree = (built, auditor) := by
  unfold knownClasses ClassCatalog.look
  rw [h]

theorem found_knownClasses (auditor : Auditor) (tree : FileTree) :
    (auditor.knownClasses tree).2.catalog.entries.lookup auditor.search =
      some (auditor.knownClasses tree).1 := by
  cases hlookup : auditor.catalog.entries.lookup auditor.search with
  | some built => rw [knownClasses_of_found hlookup tree, hlookup]
  | none =>
    unfold knownClasses ClassCatalog.look
    rw [hlookup]
    exact List.lookup_cons_self

theorem knownClasses_lasting : Lasting knownClasses where
  keeps := by
    intro auditor tree
    cases hlookup : auditor.catalog.entries.lookup auditor.search with
    | some built =>
      rw [knownClasses_of_found hlookup tree]
      exact .refl auditor
    | none =>
      unfold knownClasses ClassCatalog.look
      rw [hlookup]
      exact { Keeps.refl auditor with
        catalog := fun search built hfound => lookup_cons_of_none hlookup hfound }
  replays := by
    intro auditor later tree tree' _ hkeeps
    have hsearch : later.search = auditor.search := by
      have hconfig : later.config = auditor.config := hkeeps.config
      exact congrArg Config.styleSearch hconfig
    have hfound := hkeeps.catalog _ _ (found_knownClasses auditor tree)
    rw [← hsearch] at hfound
    rw [knownClasses_of_found hfound tree']

theorem themeClasses_of_found {auditor : Auditor} {built : Built NameSet}
    (h : auditor.theme = some built) (tree : FileTree) :
    auditor.themeClasses tree = (built, auditor) := by
  unfold themeClasses
  rw [h]

theorem found_themeClasses (auditor : Auditor) (tree : FileTree) :
    (auditor.themeClasses tree).2.theme = some (auditor.themeClasses tree).1 := by
  cases htheme : auditor.theme with
  | some built => rw [themeClasses_of_found htheme tree, htheme]
  | none =>
    unfold themeClasses
    rw [htheme]

theorem themeClasses_lasting : Lasting themeClasses where
  keeps := by
    intro auditor tree
    cases htheme : auditor.theme with
    | some built =>
      rw [themeClasses_of_found htheme tree]
      exact .refl auditor
    | none =>
      unfold themeClasses
      rw [htheme]
      refine { sheetPaths_keeps auditor tree with theme := ?_ }
      intro built hbuilt
      rw [htheme] at hbuilt
      cases hbuilt
  replays := by
    intro auditor later tree tree' _ hkeeps
    have hfound := hkeeps.theme _ (found_themeClasses auditor tree)
    rw [themeClasses_of_found hfound tree']

/-- The answer of the memo about the project of an auditor. -/
def askMemo (auditor : Auditor) (tree : FileTree) : Bool × Auditor :=
  let (paths, auditor) := auditor.sheetPaths tree
  let (answer, memo) := auditor.memo.ask tree auditor.config.projectRoot paths
  (answer, { auditor with memo := memo })

theorem askMemo_of_found {auditor : Auditor} {answer : Bool}
    (h : auditor.memo.answers.lookup auditor.config.projectRoot = some answer)
    (tree : FileTree) : auditor.askMemo tree = (answer, (auditor.sheetPaths tree).2) := by
  have hkeeps := sheetPaths_keeps auditor tree
  have hfound := hkeeps.memo _ _ h
  rw [← hkeeps.config] at hfound
  unfold askMemo FrameworkMemo.ask
  simp only [hfound]

theorem found_askMemo (auditor : Auditor) (tree : FileTree) :
    (auditor.askMemo tree).2.memo.answers.lookup auditor.config.projectRoot =
      some (auditor.askMemo tree).1 := by
  have hkeeps := sheetPaths_keeps auditor tree
  unfold askMemo FrameworkMemo.ask
  rw [← hkeeps.config]
  cases hlookup : (auditor.sheetPaths tree).2.memo.answers.lookup
      (auditor.sheetPaths tree).2.config.projectRoot with
  | some answer => simp only [hlookup]
  | none => simp only [hlookup, List.lookup_cons_self]

theorem askMemo_lasting : Lasting askMemo where
  keeps := by
    intro auditor tree
    have hkeeps := sheetPaths_keeps auditor tree
    unfold askMemo FrameworkMemo.ask
    cases hlookup : (auditor.sheetPaths tree).2.memo.answers.lookup
        (auditor.sheetPaths tree).2.config.projectRoot with
    | some answer => simp only [hlookup]; exact hkeeps
    | none =>
      simp only [hlookup]
      exact { hkeeps with
        memo := fun root answer hfound =>
          lookup_cons_of_none hlookup (hkeeps.memo root answer hfound) }
  replays := by
    intro auditor later tree tree' _ hkeeps
    have hroot : later.config.projectRoot = auditor.config.projectRoot := by
      rw [hkeeps.config]
      exact congrArg Config.projectRoot (sheetPaths_keeps auditor tree).config
    have hfound := hkeeps.memo _ _ (found_askMemo auditor tree)
    rw [← hroot] at hfound
    rw [askMemo_of_found hfound tree']

theorem exemptsFramework_lasting : Lasting exemptsFramework := by
  have hstages : exemptsFramework = fun auditor tree =>
      if !auditor.config.ignoreTailwind then (false, auditor)
      else if !auditor.config.requireTailwindConfig then (true, auditor)
      else auditor.askMemo tree := rfl
  have hbranch : ∀ config : Config, Lasting fun auditor tree =>
      if !config.ignoreTailwind then (false, auditor)
      else if !config.requireTailwindConfig then (true, auditor)
      else auditor.askMemo tree := by
    intro config
    split
    · exact .pure false
    · split
      · exact .pure true
      · exact askMemo_lasting
  rw [hstages]
  exact Lasting.config.bind hbranch

/-- The answer of the recognizer about a name. -/
def askRecognizer (name : Text) (auditor : Auditor) (_ : FileTree) : Bool × Auditor :=
  ((auditor.recognizer.ask name).1, { auditor with recognizer := (auditor.recognizer.ask name).2 })

theorem askRecognizer_lasting (name : Text) : Lasting (askRecognizer name) where
  keeps := fun auditor _ => { Keeps.refl auditor with
    sound := fun hsound => (ask_recognizer hsound name).2 }
  replays := by
    intro auditor later tree tree' hsound hkeeps
    have hlater := hkeeps.sound (ask_recognizer hsound name).2
    exact (ask_recognizer hlater name).1.trans (ask_recognizer hsound name).1.symm

/-! ## Verdicts -/

theorem definitionVerdict_lasting (name : Text) (localNames : Option NameSet) :
    Lasting fun auditor tree => auditor.definitionVerdict tree name localNames := by
  have hbranch : ∀ known : Built NameSet, Lasting fun auditor _ =>
      if known.value.contains name then (Verdict.defined, auditor)
      else if localNames.any fun names => names.contains name then (.locallyDefined, auditor)
      else (.undefined, auditor) := by
    intro known
    split
    · exact .pure Verdict.defined
    · split
      · exact .pure Verdict.locallyDefined
      · exact .pure Verdict.undefined
  exact knownClasses_lasting.bind hbranch

theorem frameworkVerdict_lasting (name : Text) :
    Lasting fun auditor tree => auditor.frameworkVerdict tree name := by
  have hbranch : ∀ isFramework : Bool, Lasting fun auditor tree =>
      if isFramework then (some Verdict.utility, auditor)
      else ((if Theme.accepts (auditor.themeClasses tree).1.value name then some .themeToken
        else none), (auditor.themeClasses tree).2) := by
    intro isFramework
    cases isFramework with
    | true => exact .pure (some Verdict.utility)
    | false => exact themeClasses_lasting.map fun theme =>
        if Theme.accepts theme.value name then some Verdict.themeToken else none
  exact (askRecognizer_lasting name).bind hbranch

/-- A verdict once the framework was asked. -/
def afterFramework (name : Text) (localNames : Option NameSet) (found : Option Verdict)
    (auditor : Auditor) (tree : FileTree) : Verdict × Auditor :=
  match found with
  | some verdict => (verdict, auditor)
  | none => auditor.definitionVerdict tree name localNames

/-- A verdict once it is known whether the framework is to be asked. -/
def afterExempts (name : Text) (localNames : Option NameSet) (exempts : Bool)
    (auditor : Auditor) (tree : FileTree) : Verdict × Auditor :=
  if exempts then
    afterFramework name localNames (auditor.frameworkVerdict tree name).1
      (auditor.frameworkVerdict tree name).2 tree
  else auditor.definitionVerdict tree name localNames

/-- A verdict once the name alone was looked at. -/
def afterName (name : Text) (localNames : Option NameSet) (found : Option Verdict)
    (auditor : Auditor) (tree : FileTree) : Verdict × Auditor :=
  match found with
  | some verdict => (verdict, auditor)
  | none =>
    afterExempts name localNames (auditor.exemptsFramework tree).1
      (auditor.exemptsFramework tree).2 tree

theorem verdict_eq_afterName (auditor : Auditor) (tree : FileTree) (name : Text) (dynamic : Bool)
    (localNames : Option NameSet) :
    auditor.verdict tree name dynamic localNames =
      afterName name localNames (nameVerdict? auditor.config name dynamic) auditor tree := by
  unfold verdict afterName
  cases nameVerdict? auditor.config name dynamic with
  | some verdict => rfl
  | none =>
    simp only
    rcases auditor.exemptsFramework tree with ⟨_ | _, next⟩
    · rfl
    · simp only [afterExempts, if_true]
      rcases next.frameworkVerdict tree name with ⟨_ | _, last⟩
      · rfl
      · rfl

theorem afterFramework_lasting (name : Text) (localNames : Option NameSet)
    (found : Option Verdict) : Lasting (afterFramework name localNames found) := by
  cases found with
  | some verdict => exact .pure verdict
  | none => exact definitionVerdict_lasting name localNames

theorem afterExempts_lasting (name : Text) (localNames : Option NameSet) (exempts : Bool) :
    Lasting (afterExempts name localNames exempts) := by
  cases exempts with
  | false => exact definitionVerdict_lasting name localNames
  | true => exact (frameworkVerdict_lasting name).bind (afterFramework_lasting name localNames)

theorem verdict_lasting (name : Text) (dynamic : Bool) (localNames : Option NameSet) :
    Lasting fun auditor tree => auditor.verdict tree name dynamic localNames := by
  have hbranch : ∀ config : Config,
      Lasting (afterName name localNames (nameVerdict? config name dynamic)) := by
    intro config
    cases nameVerdict? config name dynamic with
    | some verdict => exact .pure verdict
    | none => exact exemptsFramework_lasting.bind (afterExempts_lasting name localNames)
  simp only [verdict_eq_afterName]
  exact Lasting.config.bind hbranch

end Auditor

end ClassAudit
