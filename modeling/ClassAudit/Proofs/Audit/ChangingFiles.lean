import ClassAudit.Proofs.Audit.Lasting
/-!
# Audits of files that change

A session is an auditor at work on a tree of files that others write and remove
between its requests.  Until the auditor forgets, all verdicts of a session on one
question agree, those inside reports included.  Once it forgets, its replies are
those of a new auditor that finds the files as they are then.
-/

namespace ClassAudit

/-- What a verdict is given on: a token, and the names that its component defines. -/
structure Question where
  name : Text
  dynamic : Bool
  localNames : Option NameSet
  deriving DecidableEq

def Question.ofToken (localNames : Option NameSet) (token : ClassToken) : Question :=
  ⟨token.value, token.dynamic, localNames⟩

/-- The questions that a request raises, in order. -/
def Request.questions : Request → List Question
  | .verdict name dynamic localNames => [⟨name, dynamic, localNames⟩]
  | .auditSite _ tokens localNames => tokens.map (.ofToken localNames)
  | .auditNode node localNames => node.tokens.map (.ofToken localNames)
  | .knownClasses | .themeClasses | .exemptsFramework | .forget => []

/-- What happens during a session. -/
inductive Event where
  | write (path : Path) (content : FileContent)
  | remove (path : Path)
  | request (request : Request)

namespace Auditor

/-- The verdicts on questions, one after the other. -/
def answerAll (auditor : Auditor) (tree : FileTree) :
    List Question → List (Question × Verdict) × Auditor
  | [] => ([], auditor)
  | question :: rest =>
    let (verdict, next) :=
      auditor.verdict tree question.name question.dynamic question.localNames
    let (answers, last) := next.answerAll tree rest
    ((question, verdict) :: answers, last)

end Auditor

/-- An auditor and the files it works on. -/
structure Session where
  tree : FileTree
  auditor : Auditor

namespace Session

def start (config : Config) (tree : FileTree) : Session :=
  ⟨tree, { config := config }⟩

def step (session : Session) : Event → Session
  | .write path content => { session with tree := session.tree.write path content }
  | .remove path => { session with tree := session.tree.remove path }
  | .request request =>
    { session with auditor := (session.auditor.serve session.tree request).2 }

def run (session : Session) (events : List Event) : Session :=
  events.foldl step session

/-- The verdicts given while an event takes place. -/
def given (session : Session) : Event → List (Question × Verdict)
  | .write _ _ | .remove _ => []
  | .request request => (session.auditor.answerAll session.tree request.questions).1

/-- All verdicts given while events take place. -/
def verdicts (session : Session) : List Event → List (Question × Verdict)
  | [] => []
  | event :: rest => session.given event ++ (session.step event).verdicts rest

end Session

namespace Auditor

/-! ## Requests and their questions -/

/-- The names in a report are those of the questions whose verdict is that nothing defines them. -/
theorem undefinedNames_eq_answerAll (auditor : Auditor) (tree : FileTree)
    (localNames : Option NameSet) (tokens : List ClassToken) :
    auditor.undefinedNames tree localNames tokens =
      (((auditor.answerAll tree (tokens.map (.ofToken localNames))).1.filter fun answer =>
          answer.2 = .undefined).map fun answer => answer.1.name,
        (auditor.answerAll tree (tokens.map (.ofToken localNames))).2) := by
  induction tokens generalizing auditor with
  | nil => rfl
  | cons token rest ih =>
    rw [List.map_cons]
    simp only [undefinedNames, answerAll, ih, List.filter_cons, Question.ofToken,
      decide_eq_true_eq]
    split <;> rfl

theorem auditSite_eq_answerAll (auditor : Auditor) (tree : FileTree) (site : Site)
    (tokens : List ClassToken) (localNames : Option NameSet) :
    (auditor.auditSite tree site tokens localNames).2 =
      (auditor.answerAll tree (tokens.map (.ofToken localNames))).2 := by
  unfold auditSite
  rw [undefinedNames_eq_answerAll]

theorem keeps_answerAll (auditor : Auditor) (tree : FileTree) (questions : List Question) :
    auditor.Keeps (auditor.answerAll tree questions).2 := by
  induction questions generalizing auditor with
  | nil => exact .refl auditor
  | cons question rest ih => exact ((verdict_lasting _ _ _).keeps auditor tree).trans (ih _)

theorem keeps_serve (auditor : Auditor) (tree : FileTree) {request : Request}
    (h : request ≠ .forget) : auditor.Keeps (auditor.serve tree request).2 := by
  cases request with
  | verdict name dynamic localNames =>
    exact (verdict_lasting name dynamic localNames).keeps auditor tree
  | auditSite site tokens localNames =>
    show auditor.Keeps (auditor.auditSite tree site tokens localNames).2
    rw [auditSite_eq_answerAll]
    exact keeps_answerAll auditor tree _
  | auditNode node localNames =>
    show auditor.Keeps (auditor.auditSite tree node.site node.tokens localNames).2
    rw [auditSite_eq_answerAll]
    exact keeps_answerAll auditor tree _
  | knownClasses => exact knownClasses_lasting.keeps auditor tree
  | themeClasses => exact themeClasses_lasting.keeps auditor tree
  | exemptsFramework => exact exemptsFramework_lasting.keeps auditor tree
  | forget => exact absurd rfl h

theorem sound_forget (auditor : Auditor) : auditor.forget.Sound := by
  intro entry hentry
  cases hentry

/-! ## Settled questions -/

/-- Whatever happens to the files and whatever else is remembered, the verdict is this one. -/
def Settles (auditor : Auditor) (question : Question) (verdict : Verdict) : Prop :=
  ∀ (later : Auditor) (tree : FileTree), auditor.Keeps later →
    (later.verdict tree question.name question.dynamic question.localNames).1 = verdict

theorem Settles.mono {auditor later : Auditor} {question : Question} {verdict : Verdict}
    (h : auditor.Settles question verdict) (hkeeps : auditor.Keeps later) :
    later.Settles question verdict :=
  fun last tree hlast => h last tree (hkeeps.trans hlast)

theorem Settles.eq {auditor : Auditor} {question : Question} {verdict verdict' : Verdict}
    (h : auditor.Settles question verdict) (h' : auditor.Settles question verdict') :
    verdict = verdict' :=
  (h auditor {} (.refl auditor)).symm.trans (h' auditor {} (.refl auditor))

theorem settles_answerAll {auditor : Auditor} {tree : FileTree} {questions : List Question}
    (hsound : auditor.Sound) {question : Question} {verdict : Verdict}
    (h : (question, verdict) ∈ (auditor.answerAll tree questions).1) :
    (auditor.answerAll tree questions).2.Settles question verdict := by
  induction questions generalizing auditor with
  | nil => cases h
  | cons first rest ih =>
    have hlasting := verdict_lasting first.name first.dynamic first.localNames
    rcases List.mem_cons.1 h with hfirst | hrest
    · obtain ⟨rfl, rfl⟩ := Prod.mk.inj hfirst
      have hsettled : (auditor.verdict tree question.name question.dynamic
          question.localNames).2.Settles question (auditor.verdict tree question.name
            question.dynamic question.localNames).1 :=
        fun later tree' hkeeps => hlasting.replays tree' hsound hkeeps
      exact hsettled.mono (keeps_answerAll _ tree rest)
    · exact ih ((hlasting.keeps auditor tree).sound hsound) hrest

end Auditor

namespace Session

theorem settles_given {session : Session} (hsound : session.auditor.Sound) {event : Event}
    {question : Question} {verdict : Verdict} (h : (question, verdict) ∈ session.given event) :
    (session.step event).auditor.Settles question verdict := by
  cases event with
  | write path content => cases h
  | remove path => cases h
  | request request =>
    have hsettled := Auditor.settles_answerAll hsound h
    cases request with
    | verdict name dynamic localNames => exact hsettled
    | auditSite site tokens localNames =>
      have hlast := session.auditor.auditSite_eq_answerAll session.tree site tokens localNames
      exact (congrArg (Auditor.Settles · question verdict) hlast).mpr hsettled
    | auditNode node localNames =>
      have hlast := session.auditor.auditSite_eq_answerAll session.tree node.site node.tokens
        localNames
      exact (congrArg (Auditor.Settles · question verdict) hlast).mpr hsettled
    | knownClasses | themeClasses | exemptsFramework | forget => cases h

theorem keeps_step (session : Session) {event : Event} (h : event ≠ .request .forget) :
    session.auditor.Keeps (session.step event).auditor := by
  cases event with
  | write path content => exact .refl _
  | remove path => exact .refl _
  | request request =>
    exact session.auditor.keeps_serve session.tree fun hforget => h (congrArg Event.request hforget)

theorem keeps_run (session : Session) {events : List Event}
    (h : Event.request .forget ∉ events) :
    session.auditor.Keeps (session.run events).auditor := by
  induction events generalizing session with
  | nil => exact .refl _
  | cons event rest ih =>
    have hevent : event ≠ .request .forget := fun heq => h (by simp [heq])
    have hrest : Event.request .forget ∉ rest := fun hmem => h (by simp [hmem])
    exact (session.keeps_step hevent).trans (ih _ hrest)

theorem settles_verdicts {session : Session} (hsound : session.auditor.Sound)
    {events : List Event} (hevents : Event.request .forget ∉ events) {question : Question}
    {verdict : Verdict} (h : (question, verdict) ∈ session.verdicts events) :
    (session.run events).auditor.Settles question verdict := by
  -- A verdict is settled by the event that gives it, and no later event unsettles it.
  induction events generalizing session with
  | nil => cases h
  | cons event rest ih =>
    have hevent : event ≠ .request .forget := fun heq => hevents (by simp [heq])
    have hrest : Event.request .forget ∉ rest := fun hmem => hevents (by simp [hmem])
    rcases List.mem_append.1 h with hgiven | hlater
    · exact (settles_given hsound hgiven).mono ((session.step event).keeps_run hrest)
    · exact ih ((session.keeps_step hevent).sound hsound) hrest hlater

/-! ## Whole sessions -/

theorem step_forget (session : Session) :
    (session.step (.request .forget)).auditor = session.auditor.forget := rfl

/-- What holds of an auditor whatever its session was. -/
theorem sound_run {session : Session} (hsound : session.auditor.Sound) (events : List Event) :
    (session.run events).auditor.Sound ∧
      (session.run events).auditor.config = session.auditor.config := by
  induction events generalizing session with
  | nil => exact ⟨hsound, rfl⟩
  | cons event rest ih =>
    have hstep : (session.step event).auditor.Sound ∧
        (session.step event).auditor.config = session.auditor.config := by
      by_cases hforget : event = .request .forget
      · rw [hforget, step_forget]
        exact ⟨session.auditor.sound_forget, rfl⟩
      · have hkeeps := session.keeps_step hforget
        exact ⟨hkeeps.sound hsound, hkeeps.config⟩
    obtain ⟨hsound', hconfig⟩ := ih hstep.1
    exact ⟨hsound', hconfig.trans hstep.2⟩

/-- After any session, the verdicts on one question agree for as long as the auditor does not
forget, whatever is written and removed meanwhile; and if it forgets, its replies to any further
requests are those of a new auditor. -/
theorem verdicts_agree_until_forget (config : Config) (tree : FileTree) (earlier : List Event) :
    (∀ later : List Event, Event.request .forget ∉ later →
      ∀ (question : Question) (first second : Verdict),
        (question, first) ∈ ((start config tree).run earlier).verdicts later →
        (question, second) ∈ ((start config tree).run earlier).verdicts later →
        first = second) ∧
      ∀ requests : List Request,
        (((start config tree).run earlier).auditor.forget.serveAll
          ((start config tree).run earlier).tree requests).1 =
        (Auditor.serveAll { config := config } ((start config tree).run earlier).tree
          requests).1 := by
  have hnew : (start config tree).auditor.Sound := by
    intro entry hentry
    cases hentry
  obtain ⟨hsound, hconfig⟩ := sound_run hnew earlier
  constructor
  · intro later hlater question first second hfirst hsecond
    exact (settles_verdicts hsound hlater hfirst).eq (settles_verdicts hsound hlater hsecond)
  · intro requests
    have hforgotten := Auditor.serveAll_faithful requests
      (Auditor.coherent_forget ((start config tree).run earlier).tree
        ((start config tree).run earlier).auditor)
    have hfresh := Auditor.serveAll_faithful requests
      (Auditor.coherent_new ((start config tree).run earlier).tree config)
    have hsame : ((start config tree).run earlier).auditor.forget.config = config := hconfig
    rw [hforgotten.answer, hfresh.answer, hsame]

/-- A class is looked up before and after its style sheet is replaced by another one. -/
def replacedSheet : List Event :=
  [.request (.verdict ['x'] false none), .remove (.ofText "/a.css".toList),
    .write (.ofText "/b.css".toList) (some ".y\x7b\x7d".toList),
    .request (.auditSite ⟨.expression, {}⟩
      [⟨['x'], false, ⟨.expression, {}⟩⟩, ⟨['y'], false, ⟨.expression, {}⟩⟩] none)]

/-- A tree with one style sheet. -/
def oneSheetTree : FileTree :=
  ⟨[(Text.table ["a.css"], some ".x\x7b\x7d".toList)]⟩

theorem verdicts_agree_replacedSheet :
    Event.request .forget ∉ replacedSheet ∧
      (start (.bare (Text.table ["*.css"])) oneSheetTree).verdicts replacedSheet =
        [(⟨['x'], false, none⟩, .defined), (⟨['x'], false, none⟩, .defined),
          (⟨['y'], false, none⟩, .undefined)] ∧
      ∀ verdict, (⟨['x'], false, none⟩, verdict) ∈
        (start (.bare (Text.table ["*.css"])) oneSheetTree).verdicts replacedSheet →
          verdict = .defined := by
  have hforget : Event.request .forget ∉ replacedSheet := by simp [replacedSheet]
  have hgiven : (start (.bare (Text.table ["*.css"])) oneSheetTree).verdicts replacedSheet =
      [(⟨['x'], false, none⟩, .defined), (⟨['x'], false, none⟩, .defined),
        (⟨['y'], false, none⟩, .undefined)] := by decide +kernel
  refine ⟨hforget, hgiven, fun verdict hverdict => ?_⟩
  have hfirst : ((⟨['x'], false, none⟩, .defined) : Question × Verdict) ∈
      (start (.bare (Text.table ["*.css"])) oneSheetTree).verdicts replacedSheet := by
    rw [hgiven]
    exact List.mem_cons_self
  exact (verdicts_agree_until_forget _ oneSheetTree []).1 replacedSheet hforget _ _ _
    hverdict hfirst

end Session

end ClassAudit
