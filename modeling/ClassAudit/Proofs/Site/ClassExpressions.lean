import ClassAudit.Proofs.Markup.SpacedTokens
import ClassAudit.Site.Extract
import Mathlib.Data.List.Forall2
/-!
# What a class expression evaluates to

The class expressions are built from strings, templates, conditionals,
containers and identifiers.  Once a branch is chosen for each conditional and
the identifiers hold strings, such an expression has a text for its value.  A
token that is found literally is a word of that value for some choice of the
branches, whatever the identifiers hold: no interpolation can extend it.
-/

namespace ClassAudit

namespace Expr

/-- The expressions built from strings, templates, conditionals, containers and identifiers. -/
inductive IsClassExpr : Expr → Prop where
  | string (text : Text) : IsClassExpr (.string text)
  | template {texts : List Text} {expressions : List Expr}
      (hlength : texts.length = expressions.length + 1)
      (hparts : ∀ expression ∈ expressions, IsClassExpr expression) :
      IsClassExpr (.template texts expressions)
  | conditional {test consequent alternate : Expr} (hconsequent : IsClassExpr consequent)
      (halternate : IsClassExpr alternate) :
      IsClassExpr (.conditional test consequent alternate)
  | container {expression : Expr} (hinner : IsClassExpr expression) :
      IsClassExpr (.container expression)
  | identifier (name : Text) : IsClassExpr (.identifier name)

/-- A choice of the first branch or the second for each conditional, given by its path. -/
abbrev Choice := List Nat → Bool

/-- The choice inside the part with an index. -/
def Choice.inside (choice : Choice) (index : Nat) : Choice :=
  fun path => choice (index :: path)

/-- The texts of a template and the values between them, in order. -/
def weave : List Text → List Text → List Text
  | [], _ => []
  | text :: texts, [] => text :: weave texts []
  | text :: texts, value :: values => text :: value :: weave texts values

mutual

/-- The text that a class expression evaluates to, given what the identifiers hold. -/
def value (held : Text → Text) (choice : Choice) : Expr → Text
  | .literal text => text.getD []
  | .template texts expressions => (weave texts (values held choice 0 expressions)).flatten
  | .conditional _ consequent alternate =>
    if choice [] then value held (choice.inside 0) consequent
    else value held (choice.inside 1) alternate
  | .container expression => value held (choice.inside 0) expression
  | .identifier name => held name
  | _ => []

/-- The values of expressions, the first of them at an index. -/
def values (held : Text → Text) (choice : Choice) (index : Nat) : List Expr → List Text
  | [] => []
  | expression :: rest =>
    value held (choice.inside index) expression :: values held choice (index + 1) rest

end

end Expr

namespace Extract

/-! ## Texts between interpolations -/

theorem exists_cut_of_mem_textTokens {content token : Text} {touchedBefore touchedAfter : Bool}
    (h : (token, false) ∈ textTokens content touchedBefore touchedAfter) :
    ∃ before after, ClassList.tokens content = before ++ token :: after ∧
      ((touchedBefore && !content.startsBlank) = true → before ≠ []) ∧
      ((touchedAfter && !content.endsBlank) = true → after ≠ []) := by
  unfold textTokens at h
  generalize ClassList.tokens content = tokens at h ⊢
  generalize (touchedBefore && !content.startsBlank) = follows at h ⊢
  generalize (touchedAfter && !content.endsBlank) = precedes at h ⊢
  simp only at h
  cases hlast : tokens.getLast? with
  | none =>
    rw [hlast] at h
    exact absurd h List.not_mem_nil
  | some last =>
    obtain ⟨init, rfl⟩ := List.getLast?_eq_some_iff.1 hlast
    -- Either the last token is left out, or no token touches what follows.
    obtain ⟨whole, tail, hsplit, htail, hmem⟩ : ∃ whole tail : List Text,
        init ++ [last] = whole ++ tail ∧ (precedes = true → tail ≠ []) ∧
          (token, false) ∈ whole.mapIdx fun index token => (token, follows && index == 0) := by
      simp only [hlast, List.dropLast_concat] at h
      have hmarked : (token, false) ∈ (if precedes then init else init ++ [last]).mapIdx
          fun index token => (token, follows && index == 0) := by
        split at h
        · rcases List.mem_append.1 h with h | h
          · exact h
          · exact absurd (List.mem_singleton.1 h) (by simp)
        · exact h
      cases precedes with
      | false => exact ⟨init ++ [last], [], by simp, by simp, hmarked⟩
      | true => exact ⟨init, [last], rfl, by simp, hmarked⟩
    obtain ⟨index, hindex, hfound⟩ := List.mem_mapIdx.1 hmem
    obtain ⟨htoken, hfirst⟩ := Prod.mk.inj hfound
    refine ⟨whole.take index, whole.drop (index + 1) ++ tail, ?_, ?_, ?_⟩
    · rw [hsplit, ← List.cons_append, ← List.append_assoc, ← htoken,
        ← List.drop_eq_getElem_cons hindex, List.take_append_drop]
    · intro hfollows hnil
      have hzero : index = 0 := by
        have hlength := congrArg List.length hnil
        rw [List.length_take, List.length_nil] at hlength
        omega
      rw [hfollows, hzero] at hfirst
      exact absurd hfirst (by decide)
    · intro hprecedes hnil
      exact htail hprecedes (List.append_eq_nil_iff.1 hnil).2

/-- A literal token of a text is a word of the whole, if what touches the text on either side is
counted as touching it. -/
theorem mem_words_of_mem_textTokens {content token : Text} {touchedBefore touchedAfter : Bool}
    (htoken : ∀ c ∈ token, Text.isBlank c = false)
    (h : (token, false) ∈ textTokens content touchedBefore touchedAfter) {front back : Text}
    (hfront : touchedBefore = false → front = [] ∨ front.endsBlank = true)
    (hback : touchedAfter = false → back = [] ∨ back.startsBlank = true) :
    token ∈ Text.words (front ++ (content ++ back)) := by
  obtain ⟨before, after, htokens, hbefore, hafter⟩ := exists_cut_of_mem_textTokens h
  have hmem : token ∈ ClassList.tokens content := by simp [htokens]
  have hne : token ≠ [] := ClassList.ne_nil_of_mem_tokensFrom hmem
  have hspaced := ClassList.spaced_tokens content
  rw [htokens] at hspaced
  obtain ⟨left, right, rfl, hleft, hright⟩ := hspaced.exists_cut hne htoken
  have hapartLeft : Text.Apart (front ++ left) (token ++ (right ++ back)) := by
    rcases hleft with ⟨rfl, hfirst⟩ | hends
    · rw [List.nil_append, Text.startsBlank_append hne (Text.startsBlank_of_unblank htoken),
        Bool.not_false, Bool.and_true] at hbefore
      rw [List.append_nil]
      have huntouched : touchedBefore = false := by
        rw [Bool.eq_false_iff]
        exact fun htouched => hbefore htouched hfirst
      exact (hfront huntouched).imp id Or.inl
    · exact .inr (.inl (Text.endsBlank_append_of_right front hends))
  have hapartRight : Text.Apart token (right ++ back) := by
    rcases hright with ⟨rfl, hlast⟩ | hstarts
    · rw [List.append_nil, Text.endsBlank_append hne (Text.endsBlank_of_unblank htoken),
        Bool.not_false, Bool.and_true] at hafter
      have huntouched : touchedAfter = false := by
        rw [Bool.eq_false_iff]
        exact fun htouched => hafter htouched hlast
      exact .inr (.inr (hback huntouched))
    · exact .inr (.inr (.inr (Text.startsBlank_append_of_left hstarts back)))
  have hword := Text.mem_words_of_apart hne htoken hapartLeft hapartRight
  simpa only [List.append_assoc] using hword

/-! ## Interpolated texts -/

/-- A piece with its value: a text is its own, and the tokens found in an interpolation are words
of it as far as a given token goes. -/
def Piece.Shows (token : Text) : Piece → Text → Prop
  | .text content, value => value = content
  | .interpolation tokens, value => (token, false) ∈ tokens → token ∈ Text.words value

theorem startsBlank_of_untouched {token : Text} {pieces : List Piece} {values : List Text}
    (hvalues : List.Forall₂ (Piece.Shows token) pieces values)
    (h : (pieces.filter Piece.isVisible).head?.any Piece.touchesPrevious = false) :
    values.flatten = [] ∨ Text.startsBlank values.flatten = true := by
  induction hvalues with
  | nil => exact .inl rfl
  | @cons piece value pieces values hvalue hvalues ih =>
    cases piece with
    | text content =>
      obtain rfl : value = content := hvalue
      cases value with
      | nil => exact ih h
      | cons c content =>
        refine .inr ?_
        have hblank : Text.startsBlank (c :: content) = true := by
          simpa [Piece.isVisible, Piece.touchesPrevious] using h
        exact Text.startsBlank_append_of_left hblank values.flatten
    | interpolation tokens =>
      have hvisible : (Piece.interpolation tokens).isVisible = true := rfl
      rw [List.filter_cons_of_pos hvisible] at h
      exact absurd h (by simp [Piece.touchesPrevious])

/-- The pieces are read from left to right: what is in front touches the rest only if the reader
takes it to do so. -/
theorem mem_words_of_mem_visibleTokens {token : Text}
    (htoken : ∀ c ∈ token, Text.isBlank c = false) {pieces : List Piece} {values : List Text}
    (hvalues : List.Forall₂ (Piece.Shows token) pieces values) {touched : Bool}
    (h : (token, false) ∈ visibleTokens touched (pieces.filter Piece.isVisible)) {front : Text}
    (hfront : touched = false → front = [] ∨ front.endsBlank = true) :
    token ∈ Text.words (front ++ values.flatten) := by
  induction hvalues generalizing touched front with
  | nil => exact absurd h List.not_mem_nil
  | @cons piece value pieces values hvalue hvalues ih =>
    by_cases hvisible : piece.isVisible = true
    · rw [List.filter_cons_of_pos hvisible, visibleTokens, List.mem_append] at h
      rw [List.flatten_cons]
      rcases h with hhere | hlater
      · have hback := startsBlank_of_untouched hvalues
        cases piece with
        | text content =>
          obtain rfl : value = content := hvalue
          exact mem_words_of_mem_textTokens htoken hhere hfront hback
        | interpolation tokens =>
          rw [pieceTokens] at hhere
          split at hhere
          · exact absurd hhere List.not_mem_nil
          · rename_i huntouched
            rw [Bool.or_eq_true, not_or, Bool.not_eq_true, Bool.not_eq_true] at huntouched
            have hleft : Text.Apart front (value ++ values.flatten) :=
              (hfront huntouched.1).imp id Or.inl
            have hright : Text.Apart value values.flatten :=
              .inr (.inr (hback huntouched.2))
            rw [Text.words_append_of_apart hleft, Text.words_append_of_apart hright]
            have hword : token ∈ Text.words value := hvalue hhere
            simp [hword]
      · rw [← List.append_assoc]
        apply ih hlater
        intro hends
        cases piece with
        | text content =>
          obtain rfl : value = content := hvalue
          have hblank : value.endsBlank = true := by simpa [Piece.touchesNext] using hends
          exact .inr (Text.endsBlank_append_of_right front hblank)
        | interpolation tokens => exact absurd hends (by simp [Piece.touchesNext])
    · rw [List.filter_cons_of_neg hvisible] at h
      have hempty : value = [] := by
        cases piece with
        | text content =>
          obtain rfl : value = content := hvalue
          simpa [Piece.isVisible] using hvisible
        | interpolation tokens => exact absurd rfl hvisible
      rw [List.flatten_cons, hempty, List.nil_append]
      exact ih h hfront

/-! ## Expressions -/

open ClassAudit.Expr

theorem shows_templatePieces {token : Text} {found : List (List Found)} {values : List Text}
    (h : List.Forall₂ (fun tokens value => (token, false) ∈ tokens → token ∈ Text.words value)
      found values) (texts : List Text) :
    List.Forall₂ (Piece.Shows token) (templatePieces texts found) (weave texts values) := by
  induction texts generalizing found values with
  | nil => exact .nil
  | cons text texts ih =>
    cases h with
    | nil => exact .cons rfl (ih .nil)
    | cons hvalue hvalues => exact .cons rfl (.cons hvalue (ih hvalues))

theorem values_congr {held : Text → Text} {choice other : Choice} {index : Nat}
    (h : ∀ later, index ≤ later → choice.inside later = other.inside later)
    (expressions : List Expr) :
    values held choice index expressions = values held other index expressions := by
  induction expressions generalizing index with
  | nil => rfl
  | cons expression rest ih =>
    rw [values, values, h index (Nat.le_refl index),
      ih fun later hlater => h later (by omega)]

/-- One choice serves every expression of a template. -/
theorem exists_choice_of_forall {token : Text} {expressions : List Expr}
    (h : ∀ expression ∈ expressions, ∃ choice : Choice, ∀ held,
      (token, false) ∈ valueTokens false expression →
        token ∈ Text.words (expression.value held choice)) (index : Nat) :
    ∃ choice : Choice, ∀ held,
      List.Forall₂ (fun tokens value => (token, false) ∈ tokens → token ∈ Text.words value)
        (eachTokens expressions) (values held choice index expressions) := by
  induction expressions generalizing index with
  | nil => exact ⟨fun _ => true, fun _ => .nil⟩
  | cons expression rest ih =>
    obtain ⟨first, hfirst⟩ := h expression (by simp)
    obtain ⟨later, hlater⟩ := ih (fun other hother => h other (by simp [hother])) (index + 1)
    -- The paths into the first expression start with its index, those into the others do not.
    let choice : Choice := fun path =>
      if path.head? = some index then first path.tail else later path
    have hinside : choice.inside index = first := by
      funext path
      simp [choice, Choice.inside]
    have hothers : ∀ position, index + 1 ≤ position →
        choice.inside position = later.inside position := by
      intro position hposition
      have hne : position ≠ index := by omega
      funext path
      simp [choice, Choice.inside, hne]
    refine ⟨choice, fun held => ?_⟩
    simp only [eachTokens, values, hinside, values_congr hothers]
    exact .cons (hfirst held) (hlater held)

theorem exists_choice_of_isClassExpr {token : Text}
    (htoken : ∀ c ∈ token, Text.isBlank c = false) {expression : Expr}
    (h : expression.IsClassExpr) :
    ∃ choice : Choice, ∀ held, (token, false) ∈ valueTokens false expression →
      token ∈ Text.words (expression.value held choice) := by
  induction h with
  | string text =>
    refine ⟨fun _ => true, fun held hfound => ?_⟩
    simp only [Expr.string, valueTokens, literalTokens, List.mem_map, Prod.mk.injEq] at hfound
    obtain ⟨found, hmem, rfl, -⟩ := hfound
    exact ClassList.mem_words_of_mem_tokens htoken hmem
  | @template texts expressions _ _ ih =>
    obtain ⟨choice, hchoice⟩ := exists_choice_of_forall ih 0
    refine ⟨choice, fun held hfound => ?_⟩
    rw [valueTokens, interpolatedTokens] at hfound
    have hshown := shows_templatePieces (hchoice held) texts
    exact mem_words_of_mem_visibleTokens htoken hshown hfound fun _ => .inl rfl
  | @conditional test consequent alternate _ _ ihconsequent ihalternate =>
    obtain ⟨first, hfirst⟩ := ihconsequent
    obtain ⟨second, hsecond⟩ := ihalternate
    by_cases hbranch : (token, false) ∈ valueTokens false consequent
    · refine ⟨fun path => path.isEmpty || first path.tail, fun held _ => ?_⟩
      exact hfirst held hbranch
    · refine ⟨fun path => !path.isEmpty && second path.tail, fun held hfound => ?_⟩
      rw [valueTokens, List.mem_append] at hfound
      exact hsecond held (hfound.resolve_left hbranch)
  | container _ ih =>
    obtain ⟨inner, hinner⟩ := ih
    refine ⟨fun path => inner path.tail, fun held hfound => ?_⟩
    rw [valueTokens] at hfound
    exact hinner held hfound
  | identifier name =>
    refine ⟨fun _ => true, fun held hfound => ?_⟩
    simp only [valueTokens, List.not_mem_nil] at hfound

end Extract

namespace SiteNode

/-- A literal token of a class attribute is a word of what the attribute evaluates to, under some
choice of the branches and whatever the identifiers hold. -/
theorem literal_token_mem_words {expression : Expr} (h : expression.IsClassExpr) {span : Span}
    {token : ClassToken}
    (hmem : token ∈
      (SiteNode.mk (.jsxAttribute "className".toList (some expression)) span).tokens)
    (hliteral : token.dynamic = false) (hwhole : ∀ c ∈ token.value, Text.isBlank c = false) :
    ∃ choice : Expr.Choice, ∀ held, token.value ∈ Text.words (expression.value held choice) := by
  obtain ⟨found, hfound, rfl⟩ := List.mem_map.1 hmem
  have hattribute : Extract.jsxAttributes.contains "className".toList = true := by decide
  simp only [Extract.contentTokens, hattribute, if_true, Option.map_some, Option.getD_some]
    at hfound
  obtain ⟨choice, hchoice⟩ := Extract.exists_choice_of_isClassExpr hwhole h
  have hpair : found = (found.1, false) := Prod.ext rfl hliteral
  rw [hpair] at hfound
  exact ⟨choice, fun held => hchoice held hfound⟩

/-- A conditional that stands alone in a template and an identifier that does not. -/
def buttonClasses : Expr :=
  .container (.template (Text.table ["btn ", " w-", "px"])
    [.conditional (.identifier "on".toList) (.string "is-on big".toList) (.string []),
      .identifier "size".toList])

theorem literal_token_mem_words_button :
    buttonClasses.IsClassExpr ∧ ∃ choice : Expr.Choice, ∀ held,
      "big".toList ∈ Text.words (buttonClasses.value held choice) := by
  have hform : buttonClasses.IsClassExpr := by
    refine .container (.template rfl ?_)
    intro part hpart
    rcases List.mem_cons.1 hpart with rfl | hpart
    · exact .conditional (.string _) (.string _)
    · rw [List.mem_singleton.1 hpart]
      exact .identifier _
  have hmem : (⟨"big".toList, false, ⟨.jsxAttribute, {}⟩⟩ : ClassToken) ∈
      (SiteNode.mk (.jsxAttribute "className".toList (some buttonClasses)) {}).tokens := by
    decide +kernel
  exact ⟨hform, literal_token_mem_words hform hmem rfl (by decide)⟩

end SiteNode

end ClassAudit
