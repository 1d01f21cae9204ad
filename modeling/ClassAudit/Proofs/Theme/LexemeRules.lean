import ClassAudit.Proofs.Css.Lexemes
import ClassAudit.Proofs.Theme.TopLevelRules
import Mathlib.Data.List.Chain
/-!
# Theme rules over lexemes

The search for theme rules again, over lexemes instead of characters: a comment
or string is one step and opens or closes nothing.  Two conditions say when the
search by characters agrees with this one: what stands outside of comments and
strings starts none, and those inside of theme rules are quiet.
-/

namespace ClassAudit.Theme

open Css

/-- The braces open after a lexeme. -/
def depthOver (depth : Nat) : Lexeme → Nat
  | .char c => depthStep depth c
  | _ => depth

theorem depthOver_of_isChar_eq_false {lexeme : Lexeme} (h : lexeme.isChar = false) (depth : Nat) :
    depthOver depth lexeme = depth := by
  cases lexeme with
  | char c => cases h
  | comment content => rfl
  | string quote content => rfl

/-- The braces open after lexemes. -/
def depthBehind (depth : Nat) (list : List Lexeme) : Nat :=
  list.foldl depthOver depth

theorem depthBehind_append (depth : Nat) (front rest : List Lexeme) :
    depthBehind depth (front ++ rest) = depthBehind (depthBehind depth front) rest :=
  List.foldl_append

/-- The word that starts a theme rule. -/
def themeLexemes : List Lexeme :=
  themeWord.map .char

/-- Whether a lexeme belongs to the header of a rule. -/
def inHeader (lexeme : Lexeme) : Bool :=
  lexeme ≠ .char '{' && lexeme ≠ .char ';'

/-- The lexemes up to the brace that closes the block they start in, and those behind it. -/
def closeRule? : Nat → List Lexeme → Option (List Lexeme × List Lexeme)
  | _, [] => none
  | depth, lexeme :: rest =>
    if lexeme = .char '}' ∧ depth = 0 then some ([], rest)
    else (closeRule? (depthOver depth lexeme) rest).map fun parts => (lexeme :: parts.1, parts.2)

theorem closeRule?_eq_some {depth : Nat} {list body rest : List Lexeme}
    (h : closeRule? depth list = some (body, rest)) : list = body ++ .char '}' :: rest := by
  induction list generalizing depth body with
  | nil => cases h
  | cons lexeme list ih =>
    rw [closeRule?] at h
    split at h
    · rename_i hclose
      cases h
      rw [hclose.1]
      rfl
    · obtain ⟨⟨body', rest'⟩, h', hparts⟩ := Option.map_eq_some_iff.1 h
      cases hparts
      rw [ih h']
      rfl

/-- The bodies of the theme rules at the top level.  A rule that is not closed ends the search, and
a semicolon before the brace makes it none. -/
def ruleBodies (depth : Nat) (list : List Lexeme) : List (List Lexeme) :=
  match list with
  | [] => []
  | lexeme :: later =>
    if depth = 0 ∧ themeLexemes <+: lexeme :: later then
      match _hheader : ((lexeme :: later).drop themeLexemes.length).dropWhile inHeader with
      | [] => []
      | mark :: content =>
        if mark = .char '{' then
          match _hclose : closeRule? 0 content with
          | none => []
          | some (body, rest) => body :: ruleBodies 0 rest
        else ruleBodies (depthOver depth lexeme) later
    else ruleBodies (depthOver depth lexeme) later
termination_by list.length
decreasing_by
  · have hsuffix := (List.dropWhile_suffix (l := (lexeme :: later).drop themeLexemes.length)
      inHeader).length_le
    rw [_hheader, closeRule?_eq_some _hclose] at hsuffix
    simp only [List.length_cons, List.length_append, List.length_drop] at hsuffix ⊢
    omega
  all_goals simp

/-- The lexemes of a block that has been opened: up to its end, if it has one. -/
def openBlock (depth : Nat) (list : List Lexeme) : List Lexeme :=
  match closeRule? depth list with
  | none => list
  | some (body, _) => body

/-- What stands in a rule behind its first word: the header and the body. -/
def ruleArea (list : List Lexeme) : List Lexeme :=
  list.takeWhile inHeader ++
    match list.dropWhile inHeader with
    | [] => []
    | mark :: content => if mark = .char '{' then openBlock 0 content else []

/-- The comments and strings of theme rules are quiet. -/
def Calm (depth : Nat) (list : List Lexeme) : Prop :=
  ∀ front rest, list = front ++ (themeLexemes ++ rest) → depthBehind depth front = 0 →
    ∀ lexeme ∈ ruleArea rest, lexeme.Quiet

theorem Calm.of_append {depth : Nat} {front list : List Lexeme} (h : Calm depth (front ++ list)) :
    Calm (depthBehind depth front) list := by
  intro before rest hlist hdepth
  apply h (front ++ before) rest
  · rw [hlist, List.append_assoc]
  · rw [depthBehind_append, hdepth]

theorem Calm.tail {depth : Nat} {lexeme : Lexeme} {list : List Lexeme}
    (h : Calm depth (lexeme :: list)) : Calm (depthOver depth lexeme) list :=
  @Calm.of_append depth [lexeme] list h

theorem calm_cons_iff {depth : Nat} {lexeme : Lexeme} {list : List Lexeme} :
    Calm depth (lexeme :: list) ↔
      (depth = 0 ∧ themeLexemes <+: lexeme :: list →
        ∀ other ∈ ruleArea ((lexeme :: list).drop themeLexemes.length), other.Quiet) ∧
      Calm (depthOver depth lexeme) list := by
  constructor
  · intro h
    refine ⟨?_, h.tail⟩
    rintro ⟨hdepth, rest, hrest⟩
    rw [← hrest, List.drop_left]
    exact h [] rest hrest.symm hdepth
  · rintro ⟨hfirst, hlater⟩ front rest hlist hdepth
    cases front with
    | nil =>
      rw [List.nil_append] at hlist
      rw [hlist, List.drop_left] at hfirst
      exact hfirst ⟨hdepth, rest, rfl⟩
    | cons other front =>
      obtain ⟨rfl, hrest⟩ := List.cons.inj hlist
      exact hlater front rest hrest hdepth

instance decidableCalm : ∀ depth list, Decidable (Calm depth list)
  | _, [] => .isTrue fun front rest hlist => absurd hlist (by simp [themeLexemes, themeWord])
  | depth, lexeme :: list =>
    have := decidableCalm (depthOver depth lexeme) list
    decidable_of_iff _ calm_cons_iff.symm

/-- The lexemes outside of comments and strings start none. -/
structure Clear (list : List Lexeme) : Prop where
  unquoted : .char '"' ∉ list ∧ .char '\'' ∉ list
  uncommented : list.IsChain fun lexeme next => ¬(lexeme = .char '/' ∧ next = .char '*')

instance (list : List Lexeme) : Decidable (Clear list) :=
  decidable_of_iff ((.char '"' ∉ list ∧ .char '\'' ∉ list) ∧
      list.IsChain fun lexeme next => ¬(lexeme = .char '/' ∧ next = .char '*'))
    ⟨fun h => ⟨h.1, h.2⟩, fun h => ⟨h.unquoted, h.uncommented⟩⟩

namespace Clear

variable {list rest : List Lexeme} {lexeme : Lexeme}

theorem of_within (hwithin : rest <:+: list) (h : Clear list) : Clear rest where
  unquoted := h.unquoted.imp (mt (hwithin.subset ·)) (mt (hwithin.subset ·))
  uncommented := h.uncommented.infix hwithin

theorem tail (h : Clear (lexeme :: list)) : Clear list :=
  h.of_within (List.suffix_cons lexeme list).isInfix

theorem ne_quote {c : Char} (h : Clear list) (hc : .char c ∈ list) : c ≠ '"' ∧ c ≠ '\'' := by
  constructor
  · rintro rfl
    exact h.unquoted.1 hc
  · rintro rfl
    exact h.unquoted.2 hc

theorem seam (h : Clear (lexeme :: list)) :
    (lexeme == .char '/') = true → list.head? ≠ some (.char '*') := by
  intro hslash hstar
  obtain ⟨later, rfl⟩ := List.head?_eq_some_iff.1 hstar
  exact (List.isChain_cons_cons.1 h.uncommented).1 ⟨eq_of_beq hslash, rfl⟩

end Clear

/-- A rule up to the end of its header. -/
theorem Calm.exists_header {list tail : List Lexeme} (hcalm : Calm 0 list)
    (hstart : themeLexemes <+: list)
    (htail : (list.drop themeLexemes.length).dropWhile inHeader = tail) :
    ∃ header, list = themeLexemes ++ (header ++ tail) ∧
      (∀ lexeme ∈ header, inHeader lexeme = true ∧ lexeme.Quiet) ∧
      ∀ content, tail = .char '{' :: content → ∀ lexeme ∈ openBlock 0 content, lexeme.Quiet := by
  obtain ⟨rest, rfl⟩ := hstart
  rw [List.drop_left] at htail
  have harea := hcalm [] rest rfl rfl
  unfold ruleArea at harea
  rw [htail, List.forall_mem_append] at harea
  refine ⟨rest.takeWhile inHeader, ?_, ?_, ?_⟩
  · rw [← htail, List.takeWhile_append_dropWhile]
  · exact fun lexeme hmem => ⟨List.mem_takeWhile_imp hmem, harea.1 lexeme hmem⟩
  · rintro content rfl
    simp only [if_true] at harea
    exact harea.2

/-! ## Depths -/

theorem depthBehind_header {header : List Lexeme}
    (h : ∀ lexeme ∈ header, inHeader lexeme = true ∧ lexeme.Quiet) : depthBehind 0 header = 0 := by
  induction header with
  | nil => rfl
  | cons lexeme header ih =>
    have hfirst : depthOver 0 lexeme = 0 := by
      cases lexeme with
      | char c =>
        have hopen : c ≠ '{' := by
          rintro rfl
          exact absurd (h (.char '{') (by simp)).1 (by decide)
        show depthStep 0 c = 0
        unfold depthStep
        rw [if_neg hopen]
        split <;> rfl
      | comment content => rfl
      | string quote content => rfl
    show depthBehind (depthOver 0 lexeme) header = 0
    rw [hfirst]
    exact ih fun other hother => h other (by simp [hother])

/-- The body of a block gives back the braces it takes. -/
theorem depthBehind_body {depth : Nat} {list body rest : List Lexeme}
    (h : closeRule? depth list = some (body, rest)) (base : Nat) :
    depthBehind (depth + base) body = base := by
  induction list generalizing depth body with
  | nil => cases h
  | cons lexeme list ih =>
    rw [closeRule?] at h
    split at h
    · rename_i hclose
      cases h
      rw [hclose.2, Nat.zero_add]
      rfl
    · rename_i hopen
      obtain ⟨⟨body', rest'⟩, h', hparts⟩ := Option.map_eq_some_iff.1 h
      cases hparts
      have hfirst : depthOver (depth + base) lexeme = depthOver depth lexeme + base := by
        cases lexeme with
        | char c =>
          show depthStep (depth + base) c = depthStep depth c + base
          unfold depthStep
          split
          · omega
          · split
            · rename_i hc
              have hdepth : depth ≠ 0 := fun hzero => hopen ⟨by rw [hc], hzero⟩
              omega
            · rfl
        | comment content => rfl
        | string quote content => rfl
      show depthBehind (depthOver (depth + base) lexeme) body' = base
      rw [hfirst]
      exact ih h'

theorem depthBehind_rule {header body : List Lexeme}
    (hheader : ∀ lexeme ∈ header, inHeader lexeme = true ∧ lexeme.Quiet)
    (hbody : depthBehind 1 body = 1) :
    depthBehind 0 (themeLexemes ++ (header ++ .char '{' :: body)) = 1 := by
  have hword : depthBehind 0 themeLexemes = 0 := by decide
  rw [depthBehind_append, depthBehind_append, hword, depthBehind_header hheader]
  exact hbody

/-- What follows a rule is as calm as the list it stands in. -/
theorem Calm.behind_rule {list header content body rest : List Lexeme} (hcalm : Calm 0 list)
    (hlist : list = themeLexemes ++ (header ++ .char '{' :: content))
    (hheader : ∀ lexeme ∈ header, inHeader lexeme = true ∧ lexeme.Quiet)
    (hclose : closeRule? 0 content = some (body, rest)) :
    Calm 0 rest ∧ rest <:+: list ∧ body <:+: list := by
  have hsplit :
      list = (themeLexemes ++ (header ++ .char '{' :: body)) ++ ([.char '}'] ++ rest) := by
    rw [hlist, closeRule?_eq_some hclose]
    simp
  refine ⟨?_, ?_, ?_⟩
  · rw [hsplit] at hcalm
    have hbehind := hcalm.of_append
    rw [depthBehind_rule hheader (depthBehind_body hclose 1)] at hbehind
    exact hbehind.of_append
  · refine ⟨themeLexemes ++ (header ++ .char '{' :: body) ++ [.char '}'], [], ?_⟩
    rw [hsplit]
    simp
  · refine ⟨themeLexemes ++ (header ++ [.char '{']), .char '}' :: rest, ?_⟩
    rw [hsplit]
    simp

theorem Calm.quiet_of_mem_ruleBodies {depth : Nat} {list body : List Lexeme}
    (hcalm : Calm depth list) (h : body ∈ ruleBodies depth list) :
    (∀ lexeme ∈ body, lexeme.Quiet) ∧ body <:+: list := by
  fun_induction ruleBodies depth list with
  | case1 => cases h
  | case2 => cases h
  | case3 => cases h
  | case4 depth lexeme later hstart content first rest hclose htail ih =>
    obtain ⟨rfl, hword⟩ := hstart
    obtain ⟨header, hlist, hheader, hquiet⟩ := hcalm.exists_header hword htail
    obtain ⟨hrest, hrestWithin, hbodyWithin⟩ := hcalm.behind_rule hlist hheader hclose
    rcases List.mem_cons.1 h with rfl | h
    · have hopen : openBlock 0 content = body := by rw [openBlock, hclose]
      exact ⟨hopen ▸ hquiet content rfl, hbodyWithin⟩
    · obtain ⟨hbody, hwithin⟩ := ih hrest h
      exact ⟨hbody, hwithin.trans hrestWithin⟩
  | case5 depth lexeme later hstart mark content htail hmark ih =>
    obtain ⟨hbody, hwithin⟩ := ih hcalm.tail h
    exact ⟨hbody, hwithin.trans (List.suffix_cons lexeme later).isInfix⟩
  | case6 depth lexeme later hstart ih =>
    obtain ⟨hbody, hwithin⟩ := ih hcalm.tail h
    exact ⟨hbody, hwithin.trans (List.suffix_cons lexeme later).isInfix⟩

end ClassAudit.Theme
