import ClassAudit.Proofs.Audit.Coherence
/-!
# Histories of an audit

A history is any list of requests to one auditor.  Over a tree that does not
change, every reply of every history is the memoryless one, whatever was asked,
remembered, crowded out or forgotten before.
-/

namespace ClassAudit

/-- What an auditor may be asked. -/
inductive Request where
  | verdict (name : Text) (dynamic : Bool) (localNames : Option NameSet)
  | auditSite (site : Site) (tokens : List ClassToken) (localNames : Option NameSet)
  | auditNode (node : SiteNode) (localNames : Option NameSet)
  | knownClasses
  | themeClasses
  | exemptsFramework
  | forget

/-- What an auditor replies. -/
inductive Reply where
  | verdict (verdict : Verdict)
  | report (report : Option Diagnostic)
  | names (names : NameSet)
  | exempts (answer : Bool)
  | done
  deriving DecidableEq

/-- The reply to a request, as far as a configuration and a tree decide it. -/
def Config.reply (config : Config) (tree : FileTree) : Request → Reply
  | .verdict name dynamic localNames => .verdict (config.verdict tree name dynamic localNames)
  | .auditSite site tokens localNames =>
    .report (Diagnostic.ofNames? site (config.undefinedNames tree localNames tokens))
  | .auditNode node localNames =>
    .report (Diagnostic.ofNames? node.site (config.undefinedNames tree localNames node.tokens))
  | .knownClasses => .names (config.definedNames tree)
  | .themeClasses => .names (config.themeNames tree)
  | .exemptsFramework => .exempts (config.exempts tree)
  | .forget => .done

/-- A configuration without framework and patterns, for the style sheets that globs find from the
root of the file system. -/
def Config.bare (globs : List Text) : Config where
  projectRoot := ⟨true, []⟩
  baseDir := ⟨true, []⟩
  cssFiles := globs
  excludePatterns := []
  ignorePatterns := []
  ignoreTailwind := false
  requireTailwindConfig := false
  allowDynamicClasses := false
  debug := false

namespace Auditor

/-- Serves one request. -/
def serve (auditor : Auditor) (tree : FileTree) : Request → Reply × Auditor
  | .verdict name dynamic localNames =>
    (auditor.verdict tree name dynamic localNames).map .verdict id
  | .auditSite site tokens localNames =>
    (auditor.auditSite tree site tokens localNames).map .report id
  | .auditNode node localNames => (auditor.auditNode tree node localNames).map .report id
  | .knownClasses => (auditor.knownClasses tree).map (fun built => .names built.value) id
  | .themeClasses => (auditor.themeClasses tree).map (fun built => .names built.value) id
  | .exemptsFramework => (auditor.exemptsFramework tree).map .exempts id
  | .forget => (.done, auditor.forget)

/-- Serves requests one after the other. -/
def serveAll (auditor : Auditor) (tree : FileTree) : List Request → List Reply × Auditor
  | [] => ([], auditor)
  | request :: rest =>
    let (reply, next) := auditor.serve tree request
    let (replies, last) := next.serveAll tree rest
    (reply :: replies, last)

variable {tree : FileTree} {auditor : Auditor}

theorem Faithful.map {α β : Type} {config : Config} {result : α × Auditor} {value : α}
    (h : Faithful config tree result value) (f : α → β) :
    Faithful config tree (result.map f id) (f value) :=
  ⟨congrArg f h.answer, h.config, h.coherent⟩

/-- One request is served faithfully. -/
theorem serve_faithful (h : auditor.Coherent tree) (request : Request) :
    Faithful auditor.config tree (auditor.serve tree request)
      (auditor.config.reply tree request) := by
  cases request with
  | verdict name dynamic localNames =>
    exact (verdict_faithful h name dynamic localNames).map Reply.verdict
  | auditSite site tokens localNames =>
    exact (auditSite_faithful h site tokens localNames).map Reply.report
  | auditNode node localNames =>
    exact (auditSite_faithful h node.site node.tokens localNames).map Reply.report
  | knownClasses => exact (knownClasses_faithful h).map Reply.names
  | themeClasses => exact (themeClasses_faithful h).map Reply.names
  | exemptsFramework => exact (exemptsFramework_faithful h).map Reply.exempts
  | forget => exact ⟨rfl, rfl, coherent_forget tree auditor⟩

/-- A whole history is served faithfully. -/
theorem serveAll_faithful (requests : List Request) :
    ∀ {auditor : Auditor}, auditor.Coherent tree →
      Faithful auditor.config tree (auditor.serveAll tree requests)
        (requests.map (auditor.config.reply tree)) := by
  induction requests with
  | nil => exact fun h => ⟨rfl, rfl, h⟩
  | cons request rest ih =>
    intro auditor h
    obtain ⟨hreply, hconfig, hcoherent⟩ := serve_faithful h request
    obtain ⟨hreplies, hconfig', hcoherent'⟩ := ih hcoherent
    refine ⟨?_, hconfig'.trans hconfig, hcoherent'⟩
    simp only [serveAll, List.map_cons, hreply, hreplies, hconfig]

/-- No memory ever changes an answer: over a fixed tree, the replies of a new auditor to any
history are the memoryless ones, and so is the verdict on any token after that history. -/
theorem replies_memoryless (config : Config) (tree : FileTree) (requests : List Request) :
    (serveAll { config := config } tree requests).1 = requests.map (config.reply tree) ∧
      ∀ (name : Text) (dynamic : Bool) (localNames : Option NameSet),
        ((serveAll { config := config } tree requests).2.verdict tree name dynamic
          localNames).1 = config.verdict tree name dynamic localNames := by
  obtain ⟨hreplies, hconfig, hcoherent⟩ := serveAll_faithful requests (coherent_new tree config)
  refine ⟨hreplies, ?_⟩
  intro name dynamic localNames
  rw [(verdict_faithful hcoherent name dynamic localNames).answer, hconfig]

end Auditor

end ClassAudit
