import ClassAudit.Proofs.Theme.LexemeDeclarations
import ClassAudit.Proofs.Theme.ViewedRules
/-!
# The theme of a masked sheet

The tokens of a sheet are read off its lexemes, whatever its comments and strings
hold, where these do not disturb the readers of blocks and declarations.  Such a
sheet has the same theme before and after masking.
-/

namespace ClassAudit.Theme

open Css

/-- The tokens that the theme rules among lexemes declare. -/
def lexemeTokens (list : List Lexeme) : List (TokenKind × Text) :=
  (ruleBodies 0 list).flatMap fun body => (splitParts 0 body).filterMap declaredToken?

/-- What stands in comments and strings does not reach the readers of the theme: nothing else
starts one, those of theme rules hold no braces and semicolons, and no comment cuts a declaration's
name or stands for its value. -/
structure Undisturbed (list : List Lexeme) : Prop where
  clear : Clear list
  calm : Calm 0 list
  tidy : ∀ body ∈ ruleBodies 0 list, ∀ part ∈ splitParts 0 body, Tidy part

instance (list : List Lexeme) : Decidable (Undisturbed list) :=
  decidable_of_iff (Clear list ∧ Calm 0 list ∧
      ∀ body ∈ ruleBodies 0 list, ∀ part ∈ splitParts 0 body, Tidy part)
    ⟨fun h => ⟨h.1, h.2.1, h.2.2⟩, fun h => ⟨h.clear, h.calm, h.tidy⟩⟩

namespace Undisturbed

variable {view : Lexeme → Text} {list : List Lexeme}

theorem bodies_view (h : Undisturbed list) (hview : IsView view list) :
    bodies (list.flatMap view) = (ruleBodies 0 list).map (·.flatMap view) :=
  bodiesFrom_view hview h.clear h.calm (by simp)

theorem declaredNames_view (h : Undisturbed list) (hview : IsView view list)
    (hdeclared : IsDeclarationView view list) {body : List Lexeme}
    (hbody : body ∈ ruleBodies 0 list) :
    (declaredNames (body.flatMap view)).filterMap ThemeTokens.tokenOf? =
      (splitParts 0 body).filterMap declaredToken? := by
  obtain ⟨hquiet, hwithin⟩ := h.calm.quiet_of_mem_ruleBodies hbody
  unfold declaredNames
  rw [splitDeclarations_view (hview.of_subset hwithin.subset) hquiet, List.filterMap_filterMap,
    List.filterMap_map]
  apply List.filterMap_congr
  intro part hpart
  have hpartWithin := (infix_of_mem_splitParts hpart).trans hwithin
  exact declaredName?_view (hdeclared.of_subset hpartWithin.subset)
    (h.clear.of_within hpartWithin) (h.tidy body hbody part hpart)

/-- In every view of its lexemes a sheet declares the same tokens. -/
theorem parse_view (h : Undisturbed list) (hview : IsView view list)
    (hdeclared : IsDeclarationView view list) :
    ThemeTokens.parse (list.flatMap view) =
      (lexemeTokens list).foldl (fun tokens token => tokens.insert token.1 token.2) {} := by
  have htokens : ((bodies (list.flatMap view)).flatMap declaredNames).filterMap
      ThemeTokens.tokenOf? = lexemeTokens list := by
    rw [h.bodies_view hview, List.filterMap_flatMap, List.flatMap_map]
    apply List.flatMap_congr
    intro body hbody
    exact h.declaredNames_view hview hdeclared hbody
  unfold ThemeTokens.parse
  rw [htokens]

theorem hasBlock_view (h : Undisturbed list) (hview : IsView view list) :
    hasBlock (list.flatMap view) = !(ruleBodies 0 list).isEmpty := by
  unfold hasBlock
  rw [h.bodies_view hview, List.isEmpty_map]

end Undisturbed

end ClassAudit.Theme

namespace ClassAudit.ThemeTokens

open Css Theme

/-- A sheet whose comments and strings do not disturb the readers of its theme has the theme of its
masked text. -/
theorem parse_maskedText {css shown : Text} (hmask : maskedText css = .ok shown)
    (hcss : Undisturbed (lexemes css)) :
    parse css = parse shown ∧ hasBlock css = hasBlock shown := by
  obtain ⟨hformed, hsource, hshown⟩ := lexemes_spec hmask
  have hparse : parse css = parse shown := by
    rw [hsource, hshown, hcss.parse_view (isView_source hformed) (isDeclarationView_source hformed),
      hcss.parse_view (isView_masked hformed) (isDeclarationView_masked hformed)]
  have hblock : hasBlock css = hasBlock shown := by
    rw [hsource, hshown, hcss.hasBlock_view (isView_source hformed),
      hcss.hasBlock_view (isView_masked hformed)]
  exact ⟨hparse, hblock⟩

/-- A sheet with comments and strings around its theme rule, in its header and in its body. -/
def commentedSheet : Text :=
  ("/*@theme\x7b--color-no:red;*/b::before\x7bcontent:\"\x7d\"\x7d" ++
    "@theme/**/\x7b/*a*/--color-a:red/*b*/;--font-b:\"B c\";\x7d").toList

def maskedSheet : Text :=
  ("                          b::before\x7bcontent:\"_\"\x7d" ++
    "@theme    \x7b     --color-a:red     ;--font-b:\"___\";\x7d").toList

theorem parse_maskedText_commentedSheet :
    maskedText commentedSheet = .ok maskedSheet ∧ Undisturbed (lexemes commentedSheet) ∧
      parse commentedSheet = { colors := .ofList ["a".toList], fonts := .ofList ["b".toList] } ∧
      hasBlock commentedSheet = true := by
  have hmask : maskedText commentedSheet = .ok maskedSheet := by decide +kernel
  have hcss : Undisturbed (lexemes commentedSheet) := by decide +kernel
  have hshown : parse maskedSheet =
      { colors := .ofList ["a".toList], fonts := .ofList ["b".toList] } := by decide +kernel
  have hblock : hasBlock maskedSheet = true := by decide +kernel
  obtain ⟨hparse, hsame⟩ := parse_maskedText hmask hcss
  exact ⟨hmask, hcss, hparse.trans hshown, hsame.trans hblock⟩

/-- A semicolon in a comment starts a declaration there. -/
theorem parse_maskedText_comment_semicolon :
    ¬∀ css shown : Text, maskedText css = .ok shown →
      parse css = parse shown ∧ hasBlock css = hasBlock shown := by
  intro h
  have hmask : maskedText "@theme\x7b/*;--color-b:red;*/\x7d".toList =
      .ok "@theme\x7b                   \x7d".toList := by decide +kernel
  exact absurd (h _ _ hmask).1 (by decide +kernel)

end ClassAudit.ThemeTokens
