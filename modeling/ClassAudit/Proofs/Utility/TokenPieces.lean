import ClassAudit.Proofs.Utility.TopLevel
/-!
# The pieces of a token

A token is cut at the colons where the nesting, counted from the start of the
token, is zero.  Each piece can as well be counted on its own: a modifier ends
at nesting zero, so nothing that is open or closed in it reaches the next piece,
and the cut is the only one into such pieces.  A scope is cut off in the same
way, at the first slash.
-/

namespace ClassAudit

namespace ModifiedToken

/-- The modifiers and the base, in the order in which they stand. -/
def pieces (token : ModifiedToken) : List Text :=
  token.modifiers ++ [token.base]

/-- The pieces of a token and, behind a colon, those of another. -/
def join (front back : ModifiedToken) : ModifiedToken :=
  ⟨front.pieces ++ back.modifiers, back.base⟩

/-- The pieces joined by colons are the text.  Counted on its own, no piece has a colon at nesting
zero, and all pieces but the last end there. -/
structure IsReadingOf (token : ModifiedToken) (text : Text) : Prop where
  joined : [':'].intercalate token.pieces = text
  hidden : ∀ piece ∈ token.pieces, HidesFrom 0 ':' piece
  closed : ∀ modifier ∈ token.modifiers, nestingBehind 0 modifier = 0

theorem mem_pieces {token : ModifiedToken} {piece : Text} :
    piece ∈ token.pieces ↔ piece ∈ token.modifiers ∨ piece = token.base := by
  unfold pieces
  rw [List.mem_append, List.mem_singleton]

theorem pieces_ne_nil (token : ModifiedToken) : token.pieces ≠ [] := by
  unfold pieces
  simp

theorem intercalate_pieces (token : ModifiedToken) :
    [':'].intercalate token.pieces = token.render := by
  obtain ⟨modifiers, base⟩ := token
  induction modifiers with
  | nil => simp [pieces, render]
  | cons modifier modifiers ih =>
    obtain ⟨piece, others, hpieces⟩ := List.exists_cons_of_ne_nil (pieces_ne_nil ⟨modifiers, base⟩)
    have hcons : pieces ⟨modifier :: modifiers, base⟩ = modifier :: pieces ⟨modifiers, base⟩ := rfl
    rw [hcons, hpieces, List.intercalate_cons_cons, ← hpieces, ih, render_cons, List.append_assoc]
    rfl

theorem pieces_join (front back : ModifiedToken) :
    (front.join back).pieces = front.pieces ++ back.pieces := by
  unfold join pieces
  rw [List.append_assoc]

theorem render_join (front back : ModifiedToken) :
    (front.join back).render = front.render ++ ':' :: back.render := by
  simp [join, pieces, render]

/-- The pieces that a token is cut into are its only reading. -/
theorem isReadingOf_iff {token : ModifiedToken} {text : Text} :
    token.IsReadingOf text ↔ token = split text := by
  rw [eq_comm, split_eq_iff]
  constructor
  · rintro ⟨hjoined, hhidden, hclosed⟩
    rw [intercalate_pieces] at hjoined
    refine ⟨hjoined.symm, fun modifier hmem => ⟨hclosed modifier hmem, ?_⟩, ?_⟩
    · exact hhidden modifier (mem_pieces.2 (.inl hmem))
    · exact hhidden token.base (mem_pieces.2 (.inr rfl))
  · rintro ⟨rfl, hclosed, hbase⟩
    refine ⟨intercalate_pieces token, ?_, fun modifier hmem => (hclosed modifier hmem).1⟩
    intro piece hpiece
    rcases mem_pieces.1 hpiece with hmem | rfl
    · exact (hclosed piece hmem).2
    · exact hbase

theorem isReadingOf_split (text : Text) : (split text).IsReadingOf text :=
  isReadingOf_iff.2 rfl

/-! ## Counting through the whole token -/

theorem nestingBehind_render {token : ModifiedToken}
    (h : ∀ modifier ∈ token.modifiers, nestingBehind 0 modifier = 0) :
    nestingBehind 0 token.render = nestingBehind 0 token.base := by
  obtain ⟨modifiers, base⟩ := token
  induction modifiers with
  | nil => rfl
  | cons modifier modifiers ih =>
    obtain ⟨hfirst, hlater⟩ := List.forall_mem_cons.1 h
    rw [render_cons, nestingBehind_append, hfirst]
    exact ih hlater

/-- The count through a token ends as the count of its base does. -/
theorem IsReadingOf.nestingBehind_base {token : ModifiedToken} {text : Text}
    (h : token.IsReadingOf text) : nestingBehind 0 token.base = nestingBehind 0 text := by
  rw [← h.joined, intercalate_pieces, nestingBehind_render h.closed]

theorem IsReadingOf.join {front back : ModifiedToken} {text behind : Text}
    (hfront : front.IsReadingOf text) (hback : back.IsReadingOf behind)
    (hnesting : nestingBehind 0 text = 0) :
    (front.join back).IsReadingOf (text ++ ':' :: behind) := by
  -- The base in front becomes a modifier, so it has to be closed.
  have hbase : nestingBehind 0 front.base = 0 := hfront.nestingBehind_base.trans hnesting
  refine ⟨?_, ?_, ?_⟩
  · rw [intercalate_pieces, render_join, ← intercalate_pieces, ← intercalate_pieces,
      hfront.joined, hback.joined]
  · rw [pieces_join]
    intro piece hpiece
    exact (List.mem_append.1 hpiece).elim (hfront.hidden piece) (hback.hidden piece)
  · intro modifier hmem
    rcases List.mem_append.1 hmem with hpiece | hmem
    · rcases mem_pieces.1 hpiece with hmem | rfl
      · exact hfront.closed modifier hmem
      · exact hbase
    · exact hback.closed modifier hmem

/-- A colon is a cut when the nesting from the start of the token is zero there, and then both
sides are cut as if each stood alone. -/
theorem split_colon_iff {front back : Text} :
    split (front ++ ':' :: back) = (split front).join (split back) ↔
      nestingBehind 0 front = 0 := by
  constructor
  · intro hsplit
    have hclosed := (isReadingOf_split (front ++ ':' :: back)).closed
    rw [hsplit] at hclosed
    rw [← (isReadingOf_split front).nestingBehind_base]
    exact hclosed _ (List.mem_append_left _ (mem_pieces.2 (.inr rfl)))
  · intro hnesting
    have hreading := (isReadingOf_split front).join (isReadingOf_split back) hnesting
    exact (isReadingOf_iff.1 hreading).symm

end ModifiedToken

/-! ## The scope -/

theorem cutScope?_eq_none_iff {text : Text} : cutScope? text = none ↔ HidesFrom 0 '/' text := by
  constructor
  · intro hnone
    refine Decidable.byContradiction fun hshown => ?_
    obtain ⟨head, scope, hcut⟩ := exists_closedFrom_of_not_hidesFrom hshown
    rw [cutScope?_eq_some_iff.2 hcut] at hnone
    cases hnone
  · intro hhides
    refine Option.eq_none_iff_forall_ne_some.2 fun ⟨head, scope⟩ hsome => ?_
    obtain ⟨htext, hclosed⟩ := cutScope?_eq_some_iff.1 hsome
    exact hhides head scope htext hclosed.1

/-- A text without a slash at nesting zero is its own head; any other one is cut at the first. -/
theorem scope_cases (text : Text) :
    (scopeName? text = none ∧ scopeHead text = text ∧ HidesFrom 0 '/' text) ∨
      ∃ scope, scopeName? text = some scope ∧ scopeHead text ++ '/' :: scope = text ∧
        ClosedFrom 0 '/' (scopeHead text) := by
  unfold scopeName? scopeHead
  cases hcut : cutScope? text with
  | none => exact .inl ⟨rfl, rfl, cutScope?_eq_none_iff.1 hcut⟩
  | some parts =>
    obtain ⟨htext, hclosed⟩ := cutScope?_eq_some_iff.1 hcut
    exact .inr ⟨parts.2, rfl, htext.symm, hclosed⟩

namespace ModifiedToken

/-- The modifiers and the base are the only pieces without a colon at nesting zero, all but the
last of them closed, that joined by colons give the text.  They are not cut further, and they are
cut where the count through the whole text is zero.  The scope of the text is cut off likewise. -/
theorem split_only_reading (text : Text) :
    ((split text).IsReadingOf text ∧ ∀ token, IsReadingOf token text → token = split text) ∧
    (∀ piece ∈ (split text).pieces, split piece = ⟨[], piece⟩) ∧
    (∀ front back, text = front ++ ':' :: back →
      (split text = (split front).join (split back) ↔ nestingBehind 0 front = 0)) ∧
    ((scopeName? text = none ∧ scopeHead text = text ∧ HidesFrom 0 '/' text) ∨
      ∃ scope, scopeName? text = some scope ∧ scopeHead text ++ '/' :: scope = text ∧
        ClosedFrom 0 '/' (scopeHead text)) := by
  refine ⟨⟨isReadingOf_split text, fun token => isReadingOf_iff.1⟩, ?_, ?_, scope_cases text⟩
  · intro piece hpiece
    exact splitFrom_base ((isReadingOf_split text).hidden piece hpiece)
  · rintro front back rfl
    exact split_colon_iff

example : split "[a:b):c]:(d:e".toList = ⟨Text.table ["[a:b)", "c]"], "(d:e".toList⟩ := by
  decide

end ModifiedToken

end ClassAudit
