import ClassAudit.Utility.Modifier
/-!
# Top-level marks

The scanners of a token count brackets from left to right.  Here the same cuts
are described by the nesting at each mark: a scope starts at the first slash at
nesting zero, and a token is a list of closed modifiers before a base, no part
of which shows a colon at nesting zero.
-/

namespace ClassAudit

/-- The nesting behind a text that starts at the given one. -/
def nestingBehind (nesting : Nat) (text : Text) : Nat :=
  text.foldl nestingAfter nesting

/-- No such mark in the text stands at nesting zero. -/
def HidesFrom (nesting : Nat) (mark : Char) (text : Text) : Prop :=
  ∀ front back, text = front ++ mark :: back → nestingBehind nesting front ≠ 0

/-- A text that ends at nesting zero and has no such mark there before. -/
def ClosedFrom (nesting : Nat) (mark : Char) (text : Text) : Prop :=
  nestingBehind nesting text = 0 ∧ HidesFrom nesting mark text

theorem hidesFrom_nil (nesting : Nat) (mark : Char) : HidesFrom nesting mark [] := by
  intro front back h
  cases front <;> cases h

theorem hidesFrom_cons {nesting : Nat} {mark c : Char} {text : Text} :
    HidesFrom nesting mark (c :: text) ↔
      ¬(c = mark ∧ nesting = 0) ∧ HidesFrom (nestingAfter nesting c) mark text := by
  constructor
  · intro h
    constructor
    · rintro ⟨rfl, hnesting⟩
      exact h [] text rfl hnesting
    · rintro front back rfl
      exact h (c :: front) back rfl
  · rintro ⟨hfirst, hlater⟩ front back h
    cases front with
    | nil =>
      obtain ⟨rfl, rfl⟩ := List.cons.inj h
      exact fun hnesting => hfirst ⟨rfl, hnesting⟩
    | cons d front =>
      obtain ⟨rfl, rfl⟩ := List.cons.inj h
      exact hlater front back rfl

theorem hidesFrom_of_not_mem {nesting : Nat} {mark : Char} {text : Text} (h : mark ∉ text) :
    HidesFrom nesting mark text := by
  rintro front back rfl
  exact absurd (by simp) h

theorem nestingBehind_append (nesting : Nat) (front back : Text) :
    nestingBehind nesting (front ++ back) = nestingBehind (nestingBehind nesting front) back :=
  List.foldl_append

theorem hidesFrom_append {nesting : Nat} {mark : Char} {front back : Text} :
    HidesFrom nesting mark (front ++ back) ↔
      HidesFrom nesting mark front ∧ HidesFrom (nestingBehind nesting front) mark back := by
  induction front generalizing nesting with
  | nil => exact (and_iff_right (hidesFrom_nil nesting mark)).symm
  | cons c front ih =>
    rw [List.cons_append, hidesFrom_cons, ih, hidesFrom_cons, and_assoc]
    rfl

/-- Where a mark stands at nesting zero, there is a first one. -/
theorem exists_closedFrom_of_not_hidesFrom {nesting : Nat} {mark : Char} {text : Text}
    (h : ¬HidesFrom nesting mark text) :
    ∃ front back, text = front ++ mark :: back ∧ ClosedFrom nesting mark front := by
  induction text generalizing nesting with
  | nil => exact absurd (hidesFrom_nil nesting mark) h
  | cons c text ih =>
    by_cases hmark : c = mark ∧ nesting = 0
    · exact ⟨[], text, by rw [hmark.1]; rfl, hmark.2, hidesFrom_nil nesting mark⟩
    · have hlater : ¬HidesFrom (nestingAfter nesting c) mark text := fun hlater =>
        h (hidesFrom_cons.2 ⟨hmark, hlater⟩)
      obtain ⟨front, back, rfl, hnesting, hfront⟩ := ih hlater
      exact ⟨c :: front, back, rfl, hnesting, hidesFrom_cons.2 ⟨hmark, hfront⟩⟩

instance decidableHidesFrom :
    ∀ (nesting : Nat) (mark : Char) (text : Text), Decidable (HidesFrom nesting mark text)
  | nesting, mark, [] => isTrue (hidesFrom_nil nesting mark)
  | nesting, mark, c :: text =>
    have := decidableHidesFrom (nestingAfter nesting c) mark text
    decidable_of_iff _ hidesFrom_cons.symm

instance (nesting : Nat) (mark : Char) (text : Text) : Decidable (ClosedFrom nesting mark text) :=
  inferInstanceAs (Decidable (_ ∧ _))

theorem closedFrom_cons {nesting : Nat} {mark c : Char} {text : Text} :
    ClosedFrom nesting mark (c :: text) ↔
      ¬(c = mark ∧ nesting = 0) ∧ ClosedFrom (nestingAfter nesting c) mark text := by
  unfold ClosedFrom
  rw [hidesFrom_cons]
  exact and_left_comm

/-! ## The scope of a base -/

theorem cutScopeFrom?_eq_some_iff {nesting : Nat} {text head scope : Text} :
    cutScopeFrom? nesting text = some (head, scope) ↔
      text = head ++ '/' :: scope ∧ ClosedFrom nesting '/' head := by
  induction text generalizing nesting head with
  | nil => simp [cutScopeFrom?]
  | cons c rest ih =>
    rw [cutScopeFrom?]
    by_cases hmark : c = '/' ∧ nesting = 0
    · rw [if_pos hmark]
      obtain ⟨rfl, rfl⟩ := hmark
      cases head with
      | nil => simp [ClosedFrom, nestingBehind, hidesFrom_nil]
      | cons d head =>
        rw [closedFrom_cons]
        simp only [Option.some.injEq, Prod.mk.injEq, List.cons_append, List.cons.injEq]
        grind
    · rw [if_neg hmark, Option.map_eq_some_iff]
      cases head with
      | nil =>
        simp only [Prod.mk.injEq, reduceCtorEq, false_and, and_false, exists_false, false_iff]
        rintro ⟨h, hclosed, -⟩
        exact hmark ⟨(List.cons.inj h).1, hclosed⟩
      | cons d head =>
        rw [closedFrom_cons, List.cons_append, List.cons.injEq]
        constructor
        · rintro ⟨⟨front, back⟩, hcut, hparts⟩
          simp only [Prod.mk.injEq, List.cons.injEq] at hparts
          obtain ⟨⟨rfl, rfl⟩, rfl⟩ := hparts
          obtain ⟨hrest, hclosed⟩ := ih.1 hcut
          exact ⟨⟨rfl, hrest⟩, hmark, hclosed⟩
        · rintro ⟨⟨rfl, hrest⟩, -, hclosed⟩
          exact ⟨(head, scope), ih.2 ⟨hrest, hclosed⟩, rfl⟩

/-- A scope starts at the first slash outside brackets. -/
theorem cutScope?_eq_some_iff {text head scope : Text} :
    cutScope? text = some (head, scope) ↔ text = head ++ '/' :: scope ∧ ClosedFrom 0 '/' head :=
  cutScopeFrom?_eq_some_iff

/-! ## The modifiers of a token -/

namespace ModifiedToken

/-- The parts of a token whose first part starts at the given nesting: the modifiers are closed,
and no part shows a colon. -/
def ReadFrom (nesting : Nat) : ModifiedToken → Prop
  | ⟨[], base⟩ => HidesFrom nesting ':' base
  | ⟨modifier :: modifiers, base⟩ =>
    ClosedFrom nesting ':' modifier ∧ (∀ later ∈ modifiers, ClosedFrom 0 ':' later) ∧
      HidesFrom 0 ':' base

theorem readFrom_zero_iff {token : ModifiedToken} :
    token.ReadFrom 0 ↔
      (∀ modifier ∈ token.modifiers, ClosedFrom 0 ':' modifier) ∧ HidesFrom 0 ':' token.base := by
  obtain ⟨modifiers, base⟩ := token
  cases modifiers <;> simp [ReadFrom, and_assoc]

theorem readFrom_push {nesting : Nat} {c : Char} {token : ModifiedToken}
    (hmark : ¬(c = ':' ∧ nesting = 0)) (h : token.ReadFrom (nestingAfter nesting c)) :
    (token.push c).ReadFrom nesting := by
  obtain ⟨modifiers, base⟩ := token
  cases modifiers with
  | nil => exact hidesFrom_cons.2 ⟨hmark, h⟩
  | cons modifier modifiers => exact ⟨closedFrom_cons.2 ⟨hmark, h.1⟩, h.2⟩

theorem readFrom_splitFrom (nesting : Nat) (text : Text) :
    (splitFrom nesting text).ReadFrom nesting := by
  induction text generalizing nesting with
  | nil => exact hidesFrom_nil nesting ':'
  | cons c rest ih =>
    rw [splitFrom]
    by_cases hmark : c = ':' ∧ nesting = 0
    · rw [if_pos hmark]
      refine ⟨⟨hmark.2, hidesFrom_nil nesting ':'⟩, ?_⟩
      exact readFrom_zero_iff.1 (ih 0)
    · rw [if_neg hmark]
      exact readFrom_push hmark (ih _)

theorem splitFrom_base {nesting : Nat} {base : Text} (h : HidesFrom nesting ':' base) :
    splitFrom nesting base = ⟨[], base⟩ := by
  induction base generalizing nesting with
  | nil => rfl
  | cons c rest ih =>
    obtain ⟨hmark, hrest⟩ := hidesFrom_cons.1 h
    rw [splitFrom, if_neg hmark, ih hrest]
    rfl

theorem splitFrom_modifier {nesting : Nat} {modifier : Text} (rest : Text)
    (h : ClosedFrom nesting ':' modifier) :
    splitFrom nesting (modifier ++ ':' :: rest) =
      ⟨modifier :: (splitFrom 0 rest).modifiers, (splitFrom 0 rest).base⟩ := by
  induction modifier generalizing nesting with
  | nil => rw [List.nil_append, splitFrom, if_pos ⟨rfl, h.1⟩]
  | cons c modifier ih =>
    obtain ⟨hmark, hmodifier⟩ := closedFrom_cons.1 h
    rw [List.cons_append, splitFrom, if_neg hmark, ih hmodifier]
    rfl

theorem split_render {modifiers : List Text} {base : Text}
    (hmodifiers : ∀ modifier ∈ modifiers, ClosedFrom 0 ':' modifier)
    (hbase : HidesFrom 0 ':' base) : split (render ⟨modifiers, base⟩) = ⟨modifiers, base⟩ := by
  unfold split
  induction modifiers with
  | nil => exact splitFrom_base hbase
  | cons modifier modifiers ih =>
    have hlater := ih fun later hmem => hmodifiers later (List.mem_cons_of_mem _ hmem)
    rw [render_cons, splitFrom_modifier _ (hmodifiers modifier List.mem_cons_self), hlater]

/-- A token has one reading as closed modifiers and a base, the one that `split` gives. -/
theorem split_eq_iff {text : Text} {token : ModifiedToken} :
    split text = token ↔ text = token.render ∧
      (∀ modifier ∈ token.modifiers, ClosedFrom 0 ':' modifier) ∧ HidesFrom 0 ':' token.base := by
  constructor
  · rintro rfl
    exact ⟨(render_split text).symm, readFrom_zero_iff.1 (readFrom_splitFrom 0 text)⟩
  · rintro ⟨rfl, hmodifiers, hbase⟩
    exact split_render hmodifiers hbase

end ModifiedToken

end ClassAudit
