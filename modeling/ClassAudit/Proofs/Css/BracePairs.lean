import ClassAudit.Proofs.Css.RuleSlices
/-!
# Braces that belong together

In a text whose braces pair up, every opening brace has one closing brace: the
first one with balanced text between the two, which is also the one that is found
by counting.  A rule splits such a text into what stands before it, its block and
the rest, and no pair of braces crosses from one part to another.
-/

namespace ClassAudit.Css

open Text (byteSize)

/-! ## Balanced texts -/

theorem Balanced.of_map {α β : Type} {shown : α → Char} {f : β → α} {word : List β}
    (h : Balanced shown (word.map f)) : Balanced (fun b => shown (f b)) word := by
  generalize hsymbols : word.map f = symbols at h
  induction h generalizing word with
  | nil =>
    obtain rfl := List.map_eq_nil_iff.1 hsymbols
    exact .nil
  | other hopen hclose _ ih =>
    obtain ⟨b, rest, rfl, rfl, hrest⟩ := List.map_eq_cons_iff.1 hsymbols
    exact .other hopen hclose (ih hrest)
  | block hopen hclose _ _ ihbody ihrest =>
    obtain ⟨front, back, rfl, hfront, hback⟩ := List.map_eq_append_iff.1 hsymbols
    obtain ⟨b, body, rfl, rfl, hbody⟩ := List.map_eq_cons_iff.1 hfront
    obtain ⟨c, rest, rfl, rfl, hrest⟩ := List.map_eq_cons_iff.1 hback
    exact .block hopen hclose (ihbody hbody) (ihrest hrest)

/-- Cells are balanced if the text that they show is. -/
theorem balanced_render_iff {cells : List Cell} :
    Balanced id (render cells) ↔ Balanced Cell.shown cells := by
  rw [render_eq_shown, ← @matchBraces_eq_ok_iff 0 cells, ← matchBraces_cleared,
    matchBraces_eq_ok_iff]
  exact ⟨.of_map, fun h => .map (f := Cell.shown) h⟩

theorem sized_plainCells (text : Text) : ∀ cell ∈ plainCells text, cell.Sized := by
  intro cell hcell
  obtain ⟨c, -, rfl⟩ := mem_plainCells.1 hcell
  exact MaskMode.sized_cell .sheet c

theorem sourceSize_plainCells (text : Text) : sourceSize (plainCells text) = text.byteSize := by
  rw [← byteSize_sourceOf, sourceOf_plainCells]

/-- Balanced text leaves the braces that are open as they are. -/
theorem closingFrom?_balanced {body : Text} (h : Balanced id body) (depth offset : Nat)
    (rest : Text) :
    closingFrom? (depth + 1) offset (body ++ rest) =
      closingFrom? (depth + 1) (offset + body.byteSize) rest := by
  induction h generalizing depth offset rest with
  | nil => rfl
  | @other c tail hopen hclose _ ih =>
    have hopen : c ≠ '{' := hopen
    have hclose : c ≠ '}' := hclose
    rw [List.cons_append, closingFrom?, if_neg hopen, if_neg hclose, ih, byteSize, Nat.add_assoc]
  | @block opening closing body tail hopen hclose _ _ ihbody ihtail =>
    obtain rfl : opening = '{' := hopen
    obtain rfl : closing = '}' := hclose
    rw [List.append_assoc, List.cons_append, List.cons_append, closingFrom?, if_pos rfl, ihbody,
      closingFrom?, if_neg (by decide), if_pos rfl, if_neg (by omega), Nat.add_sub_cancel, ihtail]
    simp only [byteSize, Text.byteSize_append, Nat.add_assoc]

theorem closingFrom?_block {body : Text} (h : Balanced id body) (offset : Nat) (later : Text) :
    closingFrom? 0 offset ('{' :: (body ++ '}' :: later)) = some (offset + 1 + body.byteSize) := by
  have hopen : closingFrom? 0 offset ('{' :: (body ++ '}' :: later)) =
      closingFrom? 1 (offset + 1) (body ++ '}' :: later) := rfl
  rw [hopen, closingFrom?_balanced h]
  rfl

/-! ## Pairs -/

/-- A pair of braces in a text, with balanced text between them. -/
structure BlockAt (text front body back : Text) : Prop where
  split : text = front ++ '{' :: (body ++ '}' :: back)
  balanced : Balanced id body

/-- Whether the braces at two offsets belong together. -/
def Pairs (text : Text) (opening closing : Nat) : Prop :=
  ∃ front body back, BlockAt text front body back ∧ opening = front.byteSize ∧
    closing = opening + 1 + body.byteSize

theorem exists_blockAt_of_cells {tail : Text} {cells rest : List Cell} {closing : Cell}
    (hsplit : plainCells tail = cells ++ closing :: rest) (hcells : Balanced Cell.shown cells)
    (hclose : closing.shown = '}') (front : Text) :
    ∃ body back, BlockAt (front ++ '{' :: tail) front body back ∧ cells = plainCells body := by
  obtain ⟨body, behind, rfl, rfl, hbehind⟩ := List.map_eq_append_iff.1 hsplit
  obtain ⟨c, back, rfl, rfl, -⟩ := List.map_eq_cons_iff.1 hbehind
  obtain rfl : c = '}' := hclose
  have hbody := balanced_render_iff.2 hcells
  exact ⟨body, back, ⟨rfl, by rwa [← render_plainCells body]⟩, rfl⟩

/-- The brace that is found by counting is the one that belongs to the opening brace. -/
theorem closingFrom?_eq_some_iff {front tail : Text} {closing : Nat} :
    closingFrom? 0 front.byteSize ('{' :: tail) = some closing ↔
      Pairs (front ++ '{' :: tail) front.byteSize closing := by
  constructor
  · intro h
    have hfound : closingFrom? 1 (front.byteSize + 1) (render (plainCells tail)) =
        some closing := by
      rwa [render_plainCells]
    obtain ⟨cells, brace, rest, hsplit, hcells, hbrace, rfl⟩ :=
      exists_of_closingFrom? (sized_plainCells tail) hfound
    obtain ⟨body, back, hblock, rfl⟩ := exists_blockAt_of_cells hsplit hcells hbrace front
    refine ⟨front, body, back, hblock, rfl, ?_⟩
    rw [sourceSize_plainCells]
  · rintro ⟨before, body, back, ⟨hsplit, hbody⟩, hsize, rfl⟩
    obtain ⟨rfl, htail⟩ := Text.append_inj_of_byteSize hsplit hsize
    rw [(List.cons.inj htail).2]
    exact closingFrom?_block hbody _ back

/-- Two blocks that start together are one block. -/
theorem BlockAt.unique {text front body back body' back' : Text}
    (h : BlockAt text front body back) (h' : BlockAt text front body' back') :
    body = body' ∧ back = back' := by
  have hclosing := closingFrom?_block h.balanced 0 back
  have htail : body ++ '}' :: back = body' ++ '}' :: back' :=
    (List.cons.inj (List.append_cancel_left (h.split.symm.trans h'.split))).2
  rw [htail, closingFrom?_block h'.balanced, Option.some.injEq] at hclosing
  obtain ⟨rfl, hback⟩ := Text.append_inj_of_byteSize htail (by omega)
  exact ⟨rfl, (List.cons.inj hback).2⟩

theorem exists_matchBraces_behind {opened : List Nat} {offset : Nat} {front rest : List Cell}
    (h : matchBraces opened offset (front ++ rest) = .ok ()) :
    ∃ opened offset, matchBraces opened offset rest = .ok () := by
  induction front generalizing opened offset with
  | nil => exact ⟨opened, offset, h⟩
  | cons cell front ih =>
    rw [List.cons_append, matchBraces_cons] at h
    split at h
    · exact ih h
    · split at h
      · cases opened with
        | nil => cases h
        | cons innermost outer => exact ih h
      · exact ih h

/-- Every opening brace of a balanced text has its closing brace. -/
theorem Balanced.exists_blockAt {front tail : Text} (h : Balanced id (front ++ '{' :: tail)) :
    ∃ body back, BlockAt (front ++ '{' :: tail) front body back := by
  have hmatch := matchBraces_balanced (balanced_plainCells h)
  rw [plainCells_append] at hmatch
  obtain ⟨opened, offset, hmatch⟩ := exists_matchBraces_behind hmatch
  rw [plainCells_cons, matchBraces_cons, if_pos (show (Cell.plain '{').shown = '{' from rfl)]
    at hmatch
  obtain ⟨cells, closing, rest, hsplit, hcells, hclose, -⟩ := closes_of_matchBraces hmatch
  obtain ⟨body, back, hblock, -⟩ := exists_blockAt_of_cells hsplit hcells hclose front
  exact ⟨body, back, hblock⟩

/-! ## Parts of a rule -/

theorem split_append {front back left right : Text} {c : Char}
    (h : left ++ right = front ++ c :: back) :
    (∃ middle, left = front ++ c :: middle ∧ back = middle ++ right) ∨
      ∃ middle, front = left ++ middle ∧ right = middle ++ c :: back := by
  rcases List.append_eq_append_iff.1 h with ⟨middle, hfront, hright⟩ | ⟨middle, hleft, hback⟩
  · exact .inr ⟨middle, hfront, hright⟩
  · cases middle with
    | nil => exact .inr ⟨[], by simpa using hleft.symm, hback.symm⟩
    | cons d middle =>
      obtain ⟨rfl, hrest⟩ := List.cons.inj hback
      exact .inl ⟨middle, hleft, hrest⟩

/-- An opening brace of a rule and what follows it opens the block, or stands in it or behind. -/
theorem opening_cases {lead body later front back : Text} (hlead : '{' ∉ lead)
    (h : lead ++ '{' :: (body ++ '}' :: later) = front ++ '{' :: back) :
    (front = lead ∧ back = body ++ '}' :: later) ∨
    (∃ before middle : Text, front = lead ++ '{' :: before ∧ body = before ++ '{' :: middle ∧
      back = middle ++ '}' :: later) ∨
    ∃ before : Text, front = lead ++ '{' :: (body ++ '}' :: before) ∧
      later = before ++ '{' :: back := by
  obtain ⟨middle, rfl, -⟩ | ⟨middle, rfl, hblock⟩ := split_append h
  · exact absurd (by simp) hlead
  · cases middle with
    | nil => exact .inl ⟨List.append_nil lead, (List.cons.inj hblock).2.symm⟩
    | cons c before =>
      obtain ⟨rfl, hbody⟩ := List.cons.inj hblock
      obtain ⟨middle, rfl, rfl⟩ | ⟨middle, rfl, hbehind⟩ := split_append hbody
      · exact .inr (.inl ⟨before, middle, rfl, rfl, rfl⟩)
      · cases middle with
        | nil => exact absurd (List.cons.inj hbehind).1 (by decide)
        | cons c before =>
          obtain ⟨rfl, hlater⟩ := List.cons.inj hbehind
          exact .inr (.inr ⟨before, rfl, hlater⟩)

/-- No block reaches from one part of a rule into another. -/
theorem blockAt_cases {lead body later front inner back : Text} (hlead : '{' ∉ lead)
    (hbody : Balanced id body)
    (h : BlockAt (lead ++ '{' :: (body ++ '}' :: later)) front inner back) :
    (front = lead ∧ inner = body) ∨
    (∃ before behind, front = lead ++ '{' :: before ∧ BlockAt body before inner behind) ∨
    ∃ before, front = lead ++ '{' :: (body ++ '}' :: before) ∧ BlockAt later before inner back := by
  obtain ⟨rfl, hback⟩ | ⟨before, middle, rfl, rfl, hback⟩ | ⟨before, rfl, rfl⟩ :=
    opening_cases hlead h.split
  · have hwhole : BlockAt (front ++ '{' :: (body ++ '}' :: later)) front body later := ⟨rfl, hbody⟩
    exact .inl ⟨rfl, (h.unique hwhole).1⟩
  · -- The brace has its partner inside the body, and that is the only one.
    obtain ⟨own, behind, hown⟩ := hbody.exists_blockAt
    have hmiddle : middle = own ++ '}' :: behind :=
      (List.cons.inj (List.append_cancel_left hown.split)).2
    have hwhole : BlockAt (lead ++ '{' :: (before ++ '{' :: middle ++ '}' :: later))
        (lead ++ '{' :: before) own (behind ++ '}' :: later) := by
      refine ⟨?_, hown.balanced⟩
      rw [hmiddle]
      simp
    obtain ⟨rfl, -⟩ := h.unique hwhole
    exact .inr (.inl ⟨before, behind, rfl, hown⟩)
  · exact .inr (.inr ⟨before, rfl, rfl, h.balanced⟩)

/-! ## Braces inside keyframes rules -/

/-- What stands behind the last brace or semicolon of a text. -/
def headerBehind (front : Text) : Text :=
  (front.reverse.takeWhile fun c => !blockMarks.contains c).reverse

/-- Whether a brace behind a text opens a keyframes rule. -/
def opensKeyframes (front : Text) : Bool :=
  Header.keyframesWords.contains (Header.firstWord (Text.trim (headerBehind front)))

/-- Whether an offset lies between the braces of a keyframes rule. -/
def InKeyframes (text : Text) (offset : Nat) : Prop :=
  ∃ front body back, BlockAt text front body back ∧ opensKeyframes front = true ∧
    front.byteSize < offset ∧ offset < front.byteSize + 1 + body.byteSize

/-- Whether an opening brace stands at an offset. -/
def Opens (text : Text) (offset : Nat) : Prop :=
  ∃ back, text.StandsAt offset ('{' :: back)

/-- Whether an opening brace stands at an offset, outside of keyframes rules. -/
def OpensFreely (text : Text) (offset : Nat) : Prop :=
  Opens text offset ∧ ¬InKeyframes text offset

theorem headerBehind_append_mark (front : Text) {mark : Char} (h : mark ∈ blockMarks)
    (rest : Text) : headerBehind (front ++ mark :: rest) = headerBehind rest := by
  unfold headerBehind
  rw [List.reverse_append, List.reverse_cons, List.append_assoc, List.takeWhile_append]
  split
  · rename_i hall
    rw [List.singleton_append, List.takeWhile_cons_of_neg (by simpa using h), List.append_nil,
      (List.takeWhile_prefix _).eq_of_length hall]
  · rfl

theorem Opens.lt {text : Text} {offset : Nat} (h : Opens text offset) : offset < text.byteSize := by
  obtain ⟨back, front, rfl, rfl⟩ := h
  have hbrace : '{'.utf8Size = 1 := rfl
  rw [Text.byteSize_append, byteSize]
  omega

theorem InKeyframes.lt {text : Text} {offset : Nat} (h : InKeyframes text offset) :
    offset < text.byteSize := by
  obtain ⟨front, body, back, ⟨rfl, -⟩, -, -, hoffset⟩ := h
  have hbrace : '{'.utf8Size = 1 := rfl
  simp only [Text.byteSize_append, byteSize]
  omega

theorem not_opens {text : Text} (h : '{' ∉ text) (offset : Nat) : ¬Opens text offset := by
  rintro ⟨back, front, rfl, -⟩
  exact h (by simp)

section Rule

variable {lead body later : Text}

/-- The size of what stands before the block of a rule. -/
theorem byteSize_open (lead before : Text) :
    byteSize (lead ++ '{' :: before) = lead.byteSize + 1 + before.byteSize := by
  rw [Text.byteSize_append, byteSize, ← Nat.add_assoc]
  rfl

/-- The size of a rule with something behind it. -/
theorem byteSize_close (lead body before : Text) :
    byteSize (lead ++ '{' :: (body ++ '}' :: before)) =
      lead.byteSize + 1 + body.byteSize + 1 + before.byteSize := by
  rw [byteSize_open, Text.byteSize_append, byteSize, ← Nat.add_assoc, ← Nat.add_assoc]
  rfl

theorem opens_rule_iff (hlead : '{' ∉ lead) {offset : Nat} :
    Opens (lead ++ '{' :: (body ++ '}' :: later)) offset ↔
      offset = lead.byteSize ∨ (∃ inner, Opens body inner ∧ offset = lead.byteSize + 1 + inner) ∨
      ∃ behind, Opens later behind ∧
        offset = lead.byteSize + 1 + body.byteSize + 1 + behind := by
  constructor
  · rintro ⟨back, front, hsplit, rfl⟩
    obtain ⟨rfl, -⟩ | ⟨before, middle, rfl, rfl, -⟩ | ⟨before, rfl, rfl⟩ :=
      opening_cases hlead hsplit
    · exact .inl rfl
    · exact .inr (.inl ⟨before.byteSize, ⟨middle, before, rfl, rfl⟩, byteSize_open lead before⟩)
    · exact .inr (.inr ⟨before.byteSize, ⟨back, before, rfl, rfl⟩, byteSize_close lead body before⟩)
  · rintro (rfl | ⟨_, ⟨middle, before, rfl, rfl⟩, rfl⟩ | ⟨_, ⟨back, before, rfl, rfl⟩, rfl⟩)
    · exact ⟨_, lead, rfl, rfl⟩
    · exact ⟨middle ++ '}' :: later, lead ++ '{' :: before, by simp, byteSize_open lead before⟩
    · exact ⟨back, lead ++ '{' :: (body ++ '}' :: before), by simp, byteSize_close lead body before⟩

theorem inKeyframes_rule_iff (hlead : '{' ∉ lead) (hbody : Balanced id body) {offset : Nat} :
    InKeyframes (lead ++ '{' :: (body ++ '}' :: later)) offset ↔
      (opensKeyframes lead = true ∧ lead.byteSize < offset ∧
        offset < lead.byteSize + 1 + body.byteSize) ∨
      (∃ inner, InKeyframes body inner ∧ offset = lead.byteSize + 1 + inner) ∨
      ∃ behind, InKeyframes later behind ∧
        offset = lead.byteSize + 1 + body.byteSize + 1 + behind := by
  have hopens (before : Text) : opensKeyframes (lead ++ '{' :: before) = opensKeyframes before := by
    unfold opensKeyframes
    rw [headerBehind_append_mark _ (by decide)]
  have hbehind (before : Text) :
      opensKeyframes (lead ++ '{' :: (body ++ '}' :: before)) = opensKeyframes before := by
    rw [hopens]
    unfold opensKeyframes
    rw [headerBehind_append_mark _ (by decide)]
  constructor
  · rintro ⟨front, own, back, hblock, hkeyframes, hafter, hbefore⟩
    obtain ⟨rfl, rfl⟩ | ⟨before, rest, rfl, hinner⟩ | ⟨before, rfl, hlater⟩ :=
      blockAt_cases hlead hbody hblock
    · exact .inl ⟨hkeyframes, hafter, hbefore⟩
    · rw [hopens] at hkeyframes
      rw [byteSize_open] at hafter hbefore
      exact .inr (.inl ⟨offset - (lead.byteSize + 1),
        ⟨before, own, rest, hinner, hkeyframes, by omega, by omega⟩, by omega⟩)
    · rw [hbehind] at hkeyframes
      rw [byteSize_close] at hafter hbefore
      exact .inr (.inr ⟨offset - (lead.byteSize + 1 + body.byteSize + 1),
        ⟨before, own, back, hlater, hkeyframes, by omega, by omega⟩, by omega⟩)
  · rintro (⟨hkeyframes, hafter, hbefore⟩ |
      ⟨inner, ⟨before, own, back, hblock, hkeyframes, hafter, hbefore⟩, rfl⟩ |
      ⟨behind, ⟨before, own, back, hblock, hkeyframes, hafter, hbefore⟩, rfl⟩)
    · exact ⟨lead, body, later, ⟨rfl, hbody⟩, hkeyframes, hafter, hbefore⟩
    · refine ⟨lead ++ '{' :: before, own, back ++ '}' :: later, ⟨?_, hblock.balanced⟩,
        by rwa [hopens], ?_, ?_⟩
      · rw [hblock.split]
        simp
      all_goals rw [byteSize_open]; omega
    · refine ⟨lead ++ '{' :: (body ++ '}' :: before), own, back, ⟨?_, hblock.balanced⟩,
        by rwa [hbehind], ?_, ?_⟩
      · rw [hblock.split]
        simp
      all_goals rw [byteSize_close]; omega

/-- The free braces of a rule and what follows it: its own, those of its block if it is no
keyframes rule, and those behind it. -/
theorem opensFreely_rule_iff (hlead : '{' ∉ lead) (hbody : Balanced id body) {offset : Nat} :
    OpensFreely (lead ++ '{' :: (body ++ '}' :: later)) offset ↔
      offset = lead.byteSize ∨
      (opensKeyframes lead = false ∧
        ∃ inner, OpensFreely body inner ∧ offset = lead.byteSize + 1 + inner) ∨
      ∃ behind, OpensFreely later behind ∧
        offset = lead.byteSize + 1 + body.byteSize + 1 + behind := by
  unfold OpensFreely
  rw [opens_rule_iff hlead, inKeyframes_rule_iff hlead hbody]
  constructor
  · rintro ⟨rfl | ⟨inner, hopens, rfl⟩ | ⟨behind, hopens, rfl⟩, hfree⟩
    · exact .inl rfl
    · have hlt := hopens.lt
      have hlead : opensKeyframes lead = false :=
        Bool.eq_false_iff.2 fun hkeyframes => hfree (.inl ⟨hkeyframes, by omega, by omega⟩)
      exact .inr (.inl ⟨hlead, inner,
        ⟨hopens, fun hin => hfree (.inr (.inl ⟨inner, hin, rfl⟩))⟩, rfl⟩)
    · exact .inr (.inr ⟨behind,
        ⟨hopens, fun hin => hfree (.inr (.inr ⟨behind, hin, rfl⟩))⟩, rfl⟩)
  · rintro (rfl | ⟨hlead, inner, ⟨hopens, hfree⟩, rfl⟩ | ⟨behind, ⟨hopens, hfree⟩, rfl⟩)
    · refine ⟨.inl rfl, ?_⟩
      rintro (⟨-, hafter, -⟩ | ⟨inner, -, heq⟩ | ⟨behind, -, heq⟩) <;> omega
    · have hlt := hopens.lt
      refine ⟨.inr (.inl ⟨inner, hopens, rfl⟩), ?_⟩
      rintro (⟨hkeyframes, -⟩ | ⟨other, hin, heq⟩ | ⟨behind, -, heq⟩)
      · rw [hlead] at hkeyframes
        cases hkeyframes
      · obtain rfl : inner = other := by omega
        exact hfree hin
      · omega
    · refine ⟨.inr (.inr ⟨behind, hopens, rfl⟩), ?_⟩
      rintro (⟨-, -, hbefore⟩ | ⟨inner, hin, heq⟩ | ⟨other, hin, heq⟩)
      · omega
      · have hlt := hin.lt
        omega
      · obtain rfl : behind = other := by omega
        exact hfree hin

end Rule

end ClassAudit.Css
