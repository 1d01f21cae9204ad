import ClassAudit.Proofs.Utility.VariantStack
/-!
# Marks of importance

A token may be marked as important in front, behind, or in front of its base.  The
marks are dropped twice, around the whole token and around its base, and which of
the two drops finds the mark depends on the modifiers and on whether the base is
empty.  In every case the base that is left is that of the plain token.  A mark
never joins or parts a placeholder, since it stands at an end of the token or
behind a colon.
-/

namespace ClassAudit

/-- A part without a colon lies in one of the variants of a stack or in its token. -/
theorem infix_stack_iff {part : Text} (hcolon : ':' ∉ part) (hpart : part ≠ [])
    (variants : List Text) (token : Text) :
    part <:+: stack variants token ↔
      (∃ variant ∈ variants, part <:+: variant) ∨ part <:+: token := by
  induction variants with
  | nil => simp [stack]
  | cons variant variants ih =>
    rw [stack_cons, Text.infix_mark_iff hcolon hpart, ih]
    simp [or_assoc]

namespace Utility

/-! ## The important forms of a token -/

/-- A token marked as important: in front of it, behind it, or in front of its base. -/
inductive ImportantForm (token : Text) : Text → Prop where
  | front : ImportantForm token ('!' :: token)
  | behind : ImportantForm token (token ++ ['!'])
  | base : ImportantForm token
      (stack (ModifiedToken.split token).modifiers ('!' :: (ModifiedToken.split token).base))

theorem head?_ne_of_not_mem {token : Text} {mark : Char} (h : mark ∉ token) :
    token.head? ≠ some mark :=
  fun hhead => h (List.mem_of_head? hhead)

theorem getLast?_ne_of_not_mem {token : Text} {mark : Char} (h : mark ∉ token) :
    token.getLast? ≠ some mark :=
  fun hlast => h (List.mem_of_getLast? hlast)

theorem dropImportance_plain {token : Text} (h : '!' ∉ token) : dropImportance token = token :=
  dropImportance_of_marked (.front 0 (head?_ne_of_not_mem h) (getLast?_ne_of_not_mem h))

theorem dropImportance_front {token : Text} (h : '!' ∉ token) :
    dropImportance ('!' :: token) = token :=
  dropImportance_of_marked (.front 1 (head?_ne_of_not_mem h) (getLast?_ne_of_not_mem h))

theorem dropImportance_behind {token : Text} (h : '!' ∉ token) :
    dropImportance (token ++ ['!']) = token := by
  cases token with
  | nil => exact dropImportance_front h
  | cons c token =>
    exact dropImportance_of_marked (.both 0 (head?_ne_of_not_mem h) (List.cons_ne_nil c token))

theorem base?_front {token : Text} (h : '!' ∉ token) : base? ('!' :: token) = base? token := by
  unfold base?
  rw [dropImportance_front h, dropImportance_plain h]

theorem base?_behind {token : Text} (h : '!' ∉ token) : base? (token ++ ['!']) = base? token := by
  unfold base?
  rw [dropImportance_behind h, dropImportance_plain h]

/-- Behind a modifier and before a base that is not empty, the first drop leaves the mark to the
second one. -/
theorem base?_marked_base {modifier : Text} {modifiers : List Text} {base : Text}
    (hplain : '!' ∉ stack (modifier :: modifiers) base)
    (hsplit : ModifiedToken.split (stack (modifier :: modifiers) base) =
      ⟨modifier :: modifiers, base⟩) (hbase : base ≠ []) :
    base? (stack (modifier :: modifiers) ('!' :: base)) =
      base? (stack (modifier :: modifiers) base) := by
  obtain ⟨-, hclosed, hhides⟩ := ModifiedToken.split_eq_iff.1 hsplit
  have hmodifier : '!' ∉ modifier := fun hmem => hplain (by simp [stack_cons, hmem])
  have hplainBase : '!' ∉ base := fun hmem => hplain (by simp [stack, hmem])
  have hlast : ('!' :: base).getLast? ≠ some '!' := by
    rw [List.getLast?_cons_of_ne_nil hbase]
    exact getLast?_ne_of_not_mem hplainBase
  have hhead : (stack (modifier :: modifiers) ('!' :: base)).head? ≠ some '!' := by
    rw [stack_cons]
    cases modifier with
    | nil => simp
    | cons c modifier => simpa using head?_ne_of_not_mem hmodifier
  have hdrop : dropImportance (stack (modifier :: modifiers) ('!' :: base)) =
      stack (modifier :: modifiers) ('!' :: base) :=
    dropImportance_of_marked (.front 0 hhead (getLast?_stack (by decide) hlast))
  have hmarked : ModifiedToken.split (stack (modifier :: modifiers) ('!' :: base)) =
      ⟨modifier :: modifiers, '!' :: base⟩ :=
    ModifiedToken.split_render hclosed (hidesFrom_cons.2 ⟨by decide, hhides⟩)
  unfold base?
  rw [hdrop, hmarked, dropImportance_plain hplain, hsplit]
  simp only [dropImportance_front hplainBase, dropImportance_plain hplainBase]

theorem base?_base {modifiers : List Text} {base : Text} (hplain : '!' ∉ stack modifiers base)
    (hsplit : ModifiedToken.split (stack modifiers base) = ⟨modifiers, base⟩) :
    base? (stack modifiers ('!' :: base)) = base? (stack modifiers base) := by
  cases modifiers with
  | nil => exact base?_front hplain
  | cons modifier modifiers =>
    by_cases hbase : base = []
    · -- The mark stands behind the last colon, which is the end of the token.
      subst hbase
      have hend : stack (modifier :: modifiers) ['!'] = stack (modifier :: modifiers) [] ++ ['!'] :=
        stack_append (modifier :: modifiers) [] ['!']
      rw [hend]
      exact base?_behind hplain
    · exact base?_marked_base hplain hsplit hbase

namespace ImportantForm

variable {token form : Text}

/-- A mark of importance changes nothing about the base. -/
theorem base?_eq (h : ImportantForm token form) (hplain : '!' ∉ token) :
    base? form = base? token := by
  cases h with
  | front => exact base?_front hplain
  | behind => exact base?_behind hplain
  | base =>
    have htoken : token =
        stack (ModifiedToken.split token).modifiers (ModifiedToken.split token).base :=
      (ModifiedToken.render_split token).symm
    generalize hsplit : ModifiedToken.split token = parts at htoken ⊢
    subst htoken
    exact base?_base hplain hsplit

theorem infix_iff (h : ImportantForm token form) {part : Text} (hmark : '!' ∉ part)
    (hcolon : ':' ∉ part) (hpart : part ≠ []) : part <:+: form ↔ part <:+: token := by
  have hfront : ∀ base : Text, part <:+: '!' :: base ↔ part <:+: base := by
    intro base
    have hsides := Text.infix_mark_iff hmark hpart [] base
    rwa [List.infix_nil, or_iff_right hpart] at hsides
  cases h with
  | front => exact hfront token
  | behind => rw [Text.infix_mark_iff hmark hpart, List.infix_nil, or_iff_left hpart]
  | base =>
    rw [infix_stack_iff hcolon hpart, hfront, ← infix_stack_iff hcolon hpart]
    exact iff_of_eq (congrArg (part <:+: ·) (ModifiedToken.render_split token))

theorem hasPlaceholder_eq (h : ImportantForm token form) :
    hasPlaceholder form = hasPlaceholder token := by
  have hincludes : ∀ part : Text, '!' ∉ part → ':' ∉ part → part ≠ [] →
      form.includes part = token.includes part := by
    intro part hmark hcolon hpart
    rw [Bool.eq_iff_iff, Text.includes_iff_isInfix, Text.includes_iff_isInfix,
      h.infix_iff hmark hcolon hpart]
  unfold hasPlaceholder
  rw [hincludes _ (by decide) (by decide) (by decide),
    hincludes _ (by decide) (by decide) (by decide)]

end ImportantForm

/-- The three important forms of a token without marks get the answer of the token from every
recogniser. -/
theorem recognized_important {token form : Text} (hplain : '!' ∉ token)
    (h : ImportantForm token form) :
    isUtility form = isUtility token ∧ isDynamic form = isDynamic token ∧
      ∀ classes, Theme.accepts classes form = Theme.accepts classes token := by
  have hbase := h.base?_eq hplain
  refine ⟨?_, ?_, ?_⟩
  · unfold isUtility
    rw [hbase]
  · unfold isDynamic
    rw [hbase, h.hasPlaceholder_eq]
  · intro classes
    unfold Theme.accepts
    rw [hbase]

/-- A mark between a variant and a base that both have a colon in brackets. -/
theorem recognized_important_bracketed :
    '!' ∉ "md:[&:hover]:[color:red]".toList ∧
      ImportantForm "md:[&:hover]:[color:red]".toList "md:[&:hover]:![color:red]".toList ∧
      isUtility "md:[&:hover]:![color:red]".toList = true ∧
      isDynamic "md:[&:hover]:![color:red]".toList = true := by
  have hplain : '!' ∉ "md:[&:hover]:[color:red]".toList := by decide
  have hform : ImportantForm "md:[&:hover]:[color:red]".toList
      "md:[&:hover]:![color:red]".toList := .base
  obtain ⟨hutility, hdynamic, -⟩ := recognized_important hplain hform
  exact ⟨hplain, hform, hutility.trans (by decide +kernel), hdynamic.trans (by decide +kernel)⟩

end Utility

end ClassAudit
