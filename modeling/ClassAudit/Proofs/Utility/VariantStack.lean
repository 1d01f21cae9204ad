import ClassAudit.Proofs.Utility.Derivation
import ClassAudit.Theme.Tokens
/-!
# Stacks of variants

Variants are written in front of a token, each before a colon.  The token may
have modifiers of its own, and the parts of a variant in brackets may hold
colons.  The base of the whole is the base of the token if all variants are
valid, and there is none otherwise.  All recognisers of tokens ask for the base
first, so one law about stacks holds for each of them.
-/

namespace ClassAudit

/-- A token behind variants, each of them before a colon. -/
def stack (variants : List Text) (token : Text) : Text :=
  variants.flatMap (· ++ [':']) ++ token

theorem stack_cons (variant : Text) (variants : List Text) (token : Text) :
    stack (variant :: variants) token = variant ++ ':' :: stack variants token := by
  simp [stack]

theorem stack_append (variants : List Text) (token rest : Text) :
    stack variants (token ++ rest) = stack variants token ++ rest := by
  unfold stack
  rw [List.append_assoc]

/-- The modifiers of a stack are its variants and those of the token. -/
theorem ModifiedToken.split_stack {variants : List Text}
    (h : ∀ variant ∈ variants, ClosedFrom 0 ':' variant) (token : Text) :
    split (stack variants token) = ⟨variants ++ (split token).modifiers, (split token).base⟩ := by
  induction variants with
  | nil => rfl
  | cons variant variants ih =>
    have hlater := ih fun other hother => h other (by simp [hother])
    unfold split at hlater ⊢
    rw [stack_cons, splitFrom_modifier _ (h variant (by simp)), hlater]
    rfl

theorem Text.includes_of_includes_suffix {text part : Text} (front : Text)
    (h : text.includes part = true) : (front ++ text).includes part = true :=
  includes_iff_isInfix.2 ((includes_iff_isInfix.1 h).trans (List.suffix_append front text).isInfix)

namespace Utility

theorem head?_stack {variants : List Text} {token : Text} {mark : Char} (hmark : mark ≠ ':')
    (hfirst : ∀ variant ∈ variants.head?, variant.head? ≠ some mark)
    (htoken : token.head? ≠ some mark) : (stack variants token).head? ≠ some mark := by
  cases variants with
  | nil => exact htoken
  | cons variant variants =>
    have hvariant := hfirst variant rfl
    rw [stack_cons]
    cases variant with
    | nil => simpa using hmark.symm
    | cons c variant => exact hvariant

theorem getLast?_stack {variants : List Text} {token : Text} {mark : Char} (hmark : mark ≠ ':')
    (htoken : token.getLast? ≠ some mark) : (stack variants token).getLast? ≠ some mark := by
  induction variants with
  | nil => exact htoken
  | cons variant variants ih =>
    rw [stack_cons, List.getLast?_append, List.getLast?_cons]
    cases hlast : (stack variants token).getLast? with
    | none => simpa using hmark.symm
    | some c =>
      rw [hlast] at ih
      exact ih

/-- A mark of importance behind a stack is the one behind its token. -/
theorem dropImportance_stack {variants : List Text} {token : Text}
    (hfirst : ∀ variant ∈ variants.head?, variant.head? ≠ some '!')
    (htoken : token.head? ≠ some '!') :
    dropImportance (stack variants token) = stack variants (dropImportance token) := by
  have hmarked := marked_dropImportance token
  have hzero : ∀ {count : Nat} {core : Text},
      token = List.replicate count '!' ++ core → count = 0 := by
    intro count core hsplit
    cases count with
    | zero => rfl
    | succ count =>
      rw [hsplit] at htoken
      exact absurd rfl htoken
  apply dropImportance_of_marked
  generalize dropImportance token = core at hmarked ⊢
  cases hmarked with
  | front count hhead hlast =>
    obtain rfl := hzero rfl
    exact .front 0 (head?_stack (by decide) hfirst hhead) (getLast?_stack (by decide) hlast)
  | both count hhead hcore =>
    rw [List.append_assoc] at htoken hzero
    obtain rfl := hzero rfl
    have hstack : stack variants core ≠ [] := by
      unfold stack
      simp [hcore]
    rw [List.append_assoc, List.replicate_zero, List.nil_append, stack_append]
    exact .both 0 (head?_stack (by decide) hfirst hhead) hstack

theorem base?_stack {variants : List Text} {token : Text}
    (hclosed : ∀ variant ∈ variants, ClosedFrom 0 ':' variant)
    (hfirst : ∀ variant ∈ variants.head?, variant.head? ≠ some '!')
    (htoken : token.head? ≠ some '!') :
    base? (stack variants token) =
      if variants.all Variant.isValid then base? token else none := by
  unfold base?
  rw [dropImportance_stack hfirst htoken, ModifiedToken.split_stack hclosed]
  simp only [List.all_append]
  cases variants.all Variant.isValid <;> rfl

/-- What is asked of the base of a stack is asked of the base of its token. -/
theorem any_base?_stack {variants : List Text} {token : Text}
    (hclosed : ∀ variant ∈ variants, ClosedFrom 0 ':' variant)
    (hfirst : ∀ variant ∈ variants.head?, variant.head? ≠ some '!')
    (htoken : token.head? ≠ some '!') (test : Text → Bool) :
    (base? (stack variants token)).any test = true ↔
      (∀ variant ∈ variants, Variant.isValid variant = true) ∧
        (base? token).any test = true := by
  rw [base?_stack hclosed hfirst htoken, ← List.all_eq_true]
  cases variants.all Variant.isValid <;> simp

theorem hasPlaceholder_of_stack {variants : List Text} {token : Text}
    (h : hasPlaceholder (stack variants token) = false) : hasPlaceholder token = false := by
  unfold hasPlaceholder at h ⊢
  rw [Bool.or_eq_false_iff] at h ⊢
  have hsuffix : ∀ part, Text.includes (stack variants token) part = false →
      token.includes part = false := by
    intro part hpart
    rw [Bool.eq_false_iff] at hpart ⊢
    exact fun htoken => hpart (Text.includes_of_includes_suffix _ htoken)
  exact ⟨hsuffix _ h.1, hsuffix _ h.2⟩

/-- A stack of variants before a token is a utility class, a class of a theme or a token with a
computed value when the variants are valid and the token is one. -/
theorem recognized_stack_iff {variants : List Text} {token : Text}
    (hclosed : ∀ variant ∈ variants, ClosedFrom 0 ':' variant)
    (hfirst : ∀ variant ∈ variants.head?, variant.head? ≠ some '!')
    (htoken : token.head? ≠ some '!') :
    (isUtility (stack variants token) = true ↔
      (∀ variant ∈ variants, Variant.isValid variant = true) ∧ isUtility token = true) ∧
    (∀ classes, Theme.accepts classes (stack variants token) = true ↔
      (∀ variant ∈ variants, Variant.isValid variant = true) ∧
        Theme.accepts classes token = true) ∧
    (hasPlaceholder (stack variants token) = false →
      (isDynamic (stack variants token) = true ↔
        (∀ variant ∈ variants, Variant.isValid variant = true) ∧ isDynamic token = true)) := by
  have hlaw := any_base?_stack hclosed hfirst htoken
  refine ⟨hlaw _, fun classes => hlaw _, fun hplain => ?_⟩
  unfold isDynamic
  rw [hplain, hasPlaceholder_of_stack hplain, Bool.false_or, Bool.false_or]
  exact hlaw _

theorem recognized_stack_bracketed :
    (∀ variant ∈ Text.table ["[&:hover]", "md"], ClosedFrom 0 ':' variant) ∧
      isUtility "[&:hover]:md:focus:[color:red]!".toList = true ∧
      isDynamic "[&:hover]:md:focus:[color:red]!".toList = true := by
  have hclosed : ∀ variant ∈ Text.table ["[&:hover]", "md"], ClosedFrom 0 ':' variant := by decide
  have hvalid : ∀ variant ∈ Text.table ["[&:hover]", "md"], Variant.isValid variant = true := by
    decide +kernel
  have hlaw := @recognized_stack_iff _ "focus:[color:red]!".toList hclosed (by decide) (by decide)
  exact ⟨hclosed, hlaw.1.2 ⟨hvalid, by decide +kernel⟩,
    (hlaw.2.2 (by decide)).2 ⟨hvalid, by decide +kernel⟩⟩

end Utility

end ClassAudit
