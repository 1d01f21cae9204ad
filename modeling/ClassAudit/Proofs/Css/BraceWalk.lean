import ClassAudit.Proofs.Css.BracePairs
/-!
# The walk along the braces

The rules of a masked text are found by a walk: from a cursor on it looks for the
next opening brace, counts to the brace that closes it, walks along the block and
goes on behind it.  Where the braces of the text pair up, every part that is
searched is balanced, so the walk never meets a closing brace first and never
misses a partner, and it opens every brace outside of keyframes rules once.
-/

namespace ClassAudit.Css

open Text (byteSize)

/-- Where the rule of a visit opens in the whole text. -/
def Visit.opening? (visit : Visit) : Option Nat :=
  visit.rule.map fun found => visit.base + found.1.opening

/-! ## What a visit finds -/

/-- A visit of a balanced text: its part is cut out of the whole text and is balanced, and so is
what stands behind the cursor.  No rule is found only if no brace opens there.  Otherwise no brace
stands before the rule, its block is balanced, and the brace that is found by counting is the one
that belongs to its opening brace. -/
structure Visit.Sound (text : Text) (visit : Visit) : Prop where
  within : text.slice? visit.base (visit.base + visit.part.byteSize) = some visit.part
  balanced : Balanced id visit.part
  searches : ∃ rest, visit.part.slice? visit.cursor visit.part.byteSize = some rest ∧
    Balanced id rest ∧ (visit.rule = none → '{' ∉ rest) ∧
    ∀ span header, visit.rule = some (span, header) →
      ∃ lead body later : Text, rest = lead ++ '{' :: (body ++ '}' :: later) ∧
        (∀ c ∈ lead, c ≠ '{' ∧ c ≠ '}') ∧ Balanced id body ∧ Balanced id later ∧
        span.opening = visit.cursor + lead.byteSize ∧
        closingFrom? 0 span.opening ('{' :: (body ++ '}' :: later)) = some span.closing ∧
        span.closing = span.opening + 1 + body.byteSize ∧
        Pairs text (visit.base + span.opening) (visit.base + span.closing)

/-- The visits of a balanced text from an offset on: they open the braces outside of keyframes
rules, from left to right, and are not many more. -/
structure Covers (start : Nat) (rest : Text) (visits : List Visit) : Prop where
  bounded : visits.length ≤ 2 * rest.count '{' + 1
  sorted : (visits.filterMap Visit.opening?).Pairwise (· < ·)
  openings : ∀ offset, offset ∈ visits.filterMap Visit.opening? ↔
    ∃ within, OpensFreely rest within ∧ offset = start + within

theorem Covers.done {start : Nat} {rest : Text} (h : '{' ∉ rest) {visit : Visit}
    (hvisit : visit.rule = none) : Covers start rest [visit] := by
  have hopening : visit.opening? = none := by
    unfold Visit.opening?
    rw [hvisit]
    rfl
  refine ⟨by simp, ?_, fun offset => ?_⟩
  · rw [List.filterMap_cons_none hopening]
    exact .nil
  · rw [List.filterMap_cons_none hopening]
    refine iff_of_false List.not_mem_nil ?_
    rintro ⟨within, hfree, -⟩
    exact not_opens h within hfree.1

/-- The visits of the block of a rule. -/
theorem Covers.entered {start : Nat} {body : Text} {inside : List Visit}
    (h : Covers start body inside) (keyframes : Bool) :
    (if keyframes then [] else inside).length ≤ 2 * body.count '{' + 1 ∧
      ((if keyframes then [] else inside).filterMap Visit.opening?).Pairwise (· < ·) ∧
      ∀ offset, offset ∈ (if keyframes then [] else inside).filterMap Visit.opening? ↔
        keyframes = false ∧ ∃ within, OpensFreely body within ∧ offset = start + within := by
  cases keyframes with
  | true => exact ⟨Nat.zero_le _, .nil, fun offset => iff_of_false List.not_mem_nil (by simp)⟩
  | false =>
    refine ⟨h.bounded, h.sorted, fun offset => ?_⟩
    rw [eq_self, true_and]
    exact h.openings offset

/-- The visits of a rule, of its block and of what follows. -/
theorem Covers.rule {start : Nat} {lead body later : Text} {visit : Visit}
    {inside behind : List Visit} (hlead : '{' ∉ lead) (hbody : Balanced id body)
    (hopening : visit.opening? = some (start + lead.byteSize))
    (hinside : Covers (start + lead.byteSize + 1) body inside)
    (hbehind : Covers (start + lead.byteSize + 1 + body.byteSize + 1) later behind) :
    Covers start (lead ++ '{' :: (body ++ '}' :: later))
      (visit :: ((if opensKeyframes lead then [] else inside) ++ behind)) := by
  obtain ⟨hlength, hsorted, hopenings⟩ := hinside.entered (opensKeyframes lead)
  generalize (if opensKeyframes lead then [] else inside) = entered at hlength hsorted hopenings ⊢
  have hbound := hbehind.bounded
  refine ⟨?_, ?_, fun offset => ?_⟩
  · have hcount : (lead ++ '{' :: (body ++ '}' :: later)).count '{' =
        body.count '{' + later.count '{' + 1 := by
      rw [List.count_append, List.count_cons_self, List.count_append,
        List.count_cons_of_ne (by decide), List.count_eq_zero.2 hlead, Nat.zero_add]
    rw [hcount, List.length_cons, List.length_append]
    omega
  · rw [List.filterMap_cons_some hopening, List.filterMap_append, List.pairwise_cons,
      List.pairwise_append]
    refine ⟨fun offset hoffset => ?_, hsorted, hbehind.sorted,
      fun offset hoffset other hother => ?_⟩
    · rcases List.mem_append.1 hoffset with hoffset | hoffset
      · obtain ⟨-, within, -, rfl⟩ := (hopenings offset).1 hoffset
        omega
      · obtain ⟨within, -, rfl⟩ := (hbehind.openings offset).1 hoffset
        omega
    · obtain ⟨-, within, hfree, rfl⟩ := (hopenings offset).1 hoffset
      obtain ⟨later, -, rfl⟩ := (hbehind.openings other).1 hother
      have hlt := hfree.1.lt
      omega
  · rw [List.filterMap_cons_some hopening, List.filterMap_append, List.mem_cons, List.mem_append,
      hopenings, hbehind.openings]
    simp only [opensFreely_rule_iff hlead hbody]
    constructor
    · rintro (rfl | ⟨hfront, within, hfree, rfl⟩ | ⟨within, hfree, rfl⟩)
      · exact ⟨lead.byteSize, .inl rfl, rfl⟩
      · exact ⟨lead.byteSize + 1 + within, .inr (.inl ⟨hfront, within, hfree, rfl⟩), by omega⟩
      · exact ⟨_, .inr (.inr ⟨within, hfree, rfl⟩), by omega⟩
    · rintro ⟨_, rfl | ⟨hfront, within, hfree, rfl⟩ | ⟨within, hfree, rfl⟩, rfl⟩
      · exact .inl rfl
      · exact .inr (.inl ⟨hfront, within, hfree, by omega⟩)
      · exact .inr (.inr ⟨within, hfree, by omega⟩)

/-! ## Rules and their headers -/

theorem headerBehind_of_unmarked {front : Text} (h : ∀ c ∈ front, c ∉ blockMarks) :
    headerBehind front = front := by
  unfold headerBehind
  rw [List.takeWhile_eq_self_iff.2, List.reverse_reverse]
  intro c hc
  simpa using h c (List.mem_reverse.1 hc)

theorem headerBehind_render {before header : List Cell}
    (hlead : ∀ cell ∈ before ++ header, cell.shown ≠ '{' ∧ cell.shown ≠ '}')
    (hheader : ∀ cell ∈ header, endsItem cell.shown = false)
    (hbefore : ∀ last ∈ before.getLast?, endsItem last.shown = true) :
    headerBehind (render (before ++ header)) = render header := by
  have hunmarked : ∀ c ∈ render header, c ∉ blockMarks := by
    intro c hc
    obtain ⟨cell, hcell, rfl⟩ := mem_render hc
    have hbraces := hlead cell (List.mem_append_right _ hcell)
    have hends := hheader cell hcell
    simp only [endsItem, Bool.or_eq_false_iff, beq_eq_false_iff_ne] at hends
    simp [blockMarks, hbraces, hends]
  rw [render_append]
  rcases List.eq_nil_or_concat before with rfl | ⟨front, last, rfl⟩
  · exact headerBehind_of_unmarked hunmarked
  · rw [List.concat_eq_append] at hlead hbefore ⊢
    have hmark : last.shown ∈ blockMarks := by
      rcases Bool.or_eq_true_iff.1 (hbefore last (by simp)) with hshown | hshown
      all_goals rw [eq_of_beq hshown]; decide
    have hrender : render [last] = [last.shown] := by
      rw [render_cons, render_of_mark hmark]
      rfl
    rw [render_append, hrender, List.append_assoc, List.singleton_append,
      headerBehind_append_mark _ hmark, headerBehind_of_unmarked hunmarked]

/-- A header starts a keyframes rule if the text before its brace says so. -/
theorem isKeyframes_ofFront {before header : List Cell}
    (hlead : ∀ cell ∈ before ++ header, cell.shown ≠ '{' ∧ cell.shown ≠ '}')
    (hheader : ∀ cell ∈ header, endsItem cell.shown = false)
    (hbefore : ∀ last ∈ before.getLast?, endsItem last.shown = true) :
    (Header.ofFront header).isKeyframes = opensKeyframes (render (before ++ header)) := by
  have hunbroken : ∀ cell ∈ header, cell.shown ≠ ';' :=
    fun cell hcell hsemicolon => by simpa [endsItem, hsemicolon] using hheader cell hcell
  have hword : Header.firstWord (Text.trim (render header)) =
      (Header.wordCells header).map Cell.shown := by
    rw [Header.firstWord_trim, Text.trimStart, dropWhile_render,
      ← Header.cellsOf_of_unbroken hunbroken, (Header.render_wordCells header).1]
  have hwords : ∀ word ∈ Header.keyframesWords, word.head? = some '@' := by decide
  unfold opensKeyframes
  rw [headerBehind_render hlead hheader hbefore, hword, Header.ofFront_eq]
  simp only
  split
  · split
    · rename_i hkeyframes
      exact hkeyframes.symm
    · rename_i hkeyframes
      exact (Bool.eq_false_iff.2 hkeyframes).symm
  · rename_i hplain
    refine (Bool.eq_false_iff.2 fun hkeyframes => hplain ?_).symm
    exact hwords _ (List.contains_iff_mem.1 hkeyframes)

/-! ## Rules as cells -/

/-- Balanced cells that start with a rule: what stands before it, its block and what follows. -/
structure RuleCells (cells lead body later : List Cell) (opening closing : Cell) : Prop where
  split : cells = lead ++ opening :: (body ++ closing :: later)
  flat : ∀ cell ∈ lead, cell.shown ≠ '{' ∧ cell.shown ≠ '}'
  opens : opening.shown = '{'
  closes : closing.shown = '}'
  body : Balanced Cell.shown body
  later : Balanced Cell.shown later

/-- Balanced cells start with a rule if they open a brace. -/
theorem Balanced.rule_cases {cells : List Cell} (h : Balanced Cell.shown cells) :
    (∀ cell ∈ cells, cell.shown ≠ '{') ∨
      ∃ lead body later opening closing, RuleCells cells lead body later opening closing := by
  cases hfind : cells.find? (fun cell => cell.shown == '{') with
  | none => exact .inl (by simpa using List.find?_eq_none.1 hfind)
  | some opening =>
    obtain ⟨hopen, lead, tail, rfl, hlead⟩ := List.find?_eq_some_iff_append.1 hfind
    have hopen : opening.shown = '{' := by simpa using hopen
    have hlead : ∀ cell ∈ lead, cell.shown ≠ '{' := by simpa using hlead
    obtain ⟨hflat, hblock⟩ := h.unclosed hlead
    have hmatch := (@matchBraces_eq_ok_iff 0 _).2 hblock
    rw [matchBraces_cons, if_pos hopen] at hmatch
    obtain ⟨body, closing, later, rfl, hbody, hclose, hlater⟩ := closes_of_matchBraces hmatch
    exact .inr ⟨lead, body, later, opening, closing, rfl, hflat, hopen, hclose, hbody, hlater⟩

theorem not_mem_render {cells : List Cell} (h : ∀ cell ∈ cells, cell.shown ≠ '{') :
    '{' ∉ render cells := by
  intro hmem
  obtain ⟨cell, hcell, hshown⟩ := mem_render hmem
  exact h cell hcell hshown

namespace RuleCells

variable {done rest lead body later : List Cell} {opening closing : Cell}

theorem render_eq (h : RuleCells rest lead body later opening closing) :
    render rest = render lead ++ '{' :: (render body ++ '}' :: render later) := by
  rw [h.split, render_append, render_cons, render_of_mark (by rw [h.opens]; decide), h.opens,
    render_append, render_cons, render_of_mark (by rw [h.closes]; decide), h.closes]
  rfl

theorem byteSize_eq (h : RuleCells rest lead body later opening closing)
    (hsized : ∀ cell ∈ done ++ rest, cell.Sized) :
    (render (done ++ lead)).byteSize = sourceSize (done ++ lead) ∧
      (render lead).byteSize = sourceSize lead ∧ (render body).byteSize = sourceSize body := by
  rw [h.split] at hsized
  refine ⟨byteSize_render fun cell hcell => hsized cell ?_,
    byteSize_render fun cell hcell => hsized cell (by simp [hcell]),
    byteSize_render fun cell hcell => hsized cell (by simp [hcell])⟩
  rw [← List.append_assoc]
  exact List.mem_append_left _ hcell

/-- The visit of the rule, of what is visited in its block and of what is visited behind it. -/
theorem visitsFrom?_eq {base : Nat} {before header : List Cell} {inside behind : List Visit}
    (h : RuleCells rest (before ++ header) body later opening closing)
    (hsized : ∀ cell ∈ done ++ rest, cell.Sized)
    (hheader : ∀ cell ∈ header, endsItem cell.shown = false)
    (hbefore : ∀ last ∈ before.getLast?, endsItem last.shown = true)
    (hinside : visitsFrom? (base + sourceSize (done ++ (before ++ header)) + 1) (render body)
      (sourceOf body) 0 = some inside)
    (hbehind : visitsFrom? base (render (done ++ rest)) (sourceOf (done ++ rest))
      (sourceSize (done ++ (before ++ header)) + 1 + sourceSize body + 1) = some behind) :
    visitsFrom? base (render (done ++ rest)) (sourceOf (done ++ rest)) (sourceSize done) =
      some (⟨base, render (done ++ rest), sourceSize done,
        some (⟨sourceSize (done ++ before), sourceSize (done ++ (before ++ header)),
          sourceSize (done ++ (before ++ header)) + 1 + sourceSize body⟩,
          Header.ofFront header)⟩ ::
        ((if opensKeyframes (render (before ++ header)) then [] else inside) ++ behind)) := by
  have hcells : done ++ rest =
      done ++ (before ++ header) ++ opening :: (body ++ closing :: later) := by
    rw [h.split, ← List.append_assoc done]
  have hspan := nextSpan?_of_opened (by rwa [← hcells])
    (fun cell hcell => (h.flat cell hcell).1) h.opens hheader hbefore
  have hclosing : closingFrom? 1 (sourceSize (done ++ (before ++ header)) + 1)
      (render (body ++ closing :: later)) =
        some (sourceSize (done ++ (before ++ header)) + 1 + sourceSize body) := by
    have hfound := closingFrom?_block (balanced_render_iff.2 h.body)
      (sourceSize (done ++ (before ++ header))) (render later)
    rw [(h.byteSize_eq hsized).2.2] at hfound
    rw [render_append, render_cons, render_of_mark (by rw [h.closes]; decide), h.closes]
    exact hfound
  rw [← hcells, hclosing] at hspan
  rw [visitsFrom?_of_block hcells hsized h.opens hheader hspan hinside hbehind,
    isKeyframes_ofFront h.flat hheader hbefore]

/-- The visit of the rule is sound. -/
theorem sound {text ahead behind : Text} (h : RuleCells rest lead body later opening closing)
    (hsized : ∀ cell ∈ done ++ rest, cell.Sized)
    (htext : text = ahead ++ render (done ++ rest) ++ behind)
    (hpart : Balanced Cell.shown (done ++ rest)) (hrest : Balanced Cell.shown rest) (start : Nat)
    (header : Header) :
    Visit.Sound text ⟨ahead.byteSize, render (done ++ rest), sourceSize done,
      some (⟨start, sourceSize (done ++ lead), sourceSize (done ++ lead) + 1 + sourceSize body⟩,
        header)⟩ := by
  obtain ⟨hdone, hlead, hbody⟩ := h.byteSize_eq hsized
  have hflat : ∀ c ∈ render lead, c ≠ '{' ∧ c ≠ '}' := by
    intro c hc
    obtain ⟨cell, hcell, rfl⟩ := mem_render hc
    exact h.flat cell hcell
  have hbodyText := balanced_render_iff.2 h.body
  refine ⟨Text.slice?_eq_some_iff.2 ⟨ahead, behind, htext, rfl, Text.byteSize_append _ _⟩,
    balanced_render_iff.2 hpart, _, slice?_rest hsized, balanced_render_iff.2 hrest,
    by rintro ⟨⟩, ?_⟩
  rintro _ _ ⟨⟩
  refine ⟨render lead, render body, render later, h.render_eq, hflat, hbodyText,
    balanced_render_iff.2 h.later, ?_, ?_, ?_, ahead ++ render (done ++ lead), render body,
    render later ++ behind, ⟨?_, hbodyText⟩, ?_, ?_⟩
  · rw [hlead, sourceSize_append]
  · rw [closingFrom?_block hbodyText, hbody]
  · rw [hbody]
  · rw [htext, render_append done, h.render_eq, render_append done lead]
    simp
  · rw [Text.byteSize_append, hdone]
  · rw [hbody]
    simp only [Nat.add_assoc]

/-- What is visited covers the cells, given that it covers the block and what follows. -/
theorem covers {base : Nat} {visit : Visit} {inside behind : List Visit}
    (h : RuleCells rest lead body later opening closing)
    (hsized : ∀ cell ∈ done ++ rest, cell.Sized)
    (hopening : visit.opening? = some (base + sourceSize (done ++ lead)))
    (hinside : Covers (base + sourceSize (done ++ lead) + 1) (render body) inside)
    (hbehind : Covers (base + (sourceSize (done ++ lead) + 1 + sourceSize body + 1))
      (render later) behind) :
    Covers (base + sourceSize done) (render rest)
      (visit :: ((if opensKeyframes (render lead) then [] else inside) ++ behind)) := by
  obtain ⟨-, hlead, hbody⟩ := h.byteSize_eq hsized
  have hstart : base + sourceSize done + (render lead).byteSize =
      base + sourceSize (done ++ lead) := by
    rw [hlead, sourceSize_append, Nat.add_assoc]
  rw [h.render_eq]
  refine .rule (not_mem_render fun cell hcell => (h.flat cell hcell).1)
    (balanced_render_iff.2 h.body) ?_ ?_ ?_
  · rwa [hstart]
  · rwa [hstart]
  · rw [hstart, hbody]
    simpa only [Nat.add_assoc] using hbehind

end RuleCells

/-! ## The whole walk -/

/-- From any cell of a balanced part on, the walk ends with sound visits that cover what follows. -/
theorem exists_visits {text ahead behind : Text} {done rest : List Cell}
    (hsized : ∀ cell ∈ done ++ rest, cell.Sized)
    (htext : text = ahead ++ render (done ++ rest) ++ behind)
    (hpart : Balanced Cell.shown (done ++ rest)) (hrest : Balanced Cell.shown rest) :
    ∃ visits, visitsFrom? ahead.byteSize (render (done ++ rest)) (sourceOf (done ++ rest))
        (sourceSize done) = some visits ∧ (∀ visit ∈ visits, visit.Sound text) ∧
      Covers (ahead.byteSize + sourceSize done) (render rest) visits := by
  induction hlength : rest.length using Nat.strongRecOn
    generalizing ahead behind done rest with
  | ind length ih =>
    obtain hunopened | ⟨lead, body, later, opening, closing, hrule⟩ := hrest.rule_cases
    · have hnone := not_mem_render hunopened
      refine ⟨_, visitsFrom?_done fun _ => nextSpan?_of_unopened hsized hunopened, ?_,
        .done hnone rfl⟩
      rw [List.forall_mem_singleton]
      refine ⟨Text.slice?_eq_some_iff.2 ⟨ahead, behind, htext, rfl, Text.byteSize_append _ _⟩,
        balanced_render_iff.2 hpart, render rest, slice?_rest hsized,
        balanced_render_iff.2 hrest, fun _ => hnone, ?_⟩
      rintro span header ⟨⟩
    · obtain ⟨before, header, rfl, hheader, hbefore⟩ := exists_header lead
      have hcells : done ++ rest =
          done ++ (before ++ header) ++ [opening] ++ body ++ [closing] ++ later := by
        rw [hrule.split]
        simp
      have hsizedRest : opening.Sized ∧ closing.Sized ∧ ∀ cell ∈ body, cell.Sized := by
        rw [hcells] at hsized
        exact ⟨hsized _ (by simp), hsized _ (by simp), fun cell hcell => hsized _ (by simp [hcell])⟩
      have hshorter : body.length < length ∧ later.length < length := by
        rw [← hlength, hrule.split]
        simp only [List.length_append, List.length_cons]
        omega
      have hclosed := sourceSize_block (done ++ (before ++ header)) body hsizedRest.1
        hsizedRest.2.1 hrule.opens hrule.closes
      have hopened : byteSize (ahead ++ render (done ++ (before ++ header)) ++ ['{']) =
          ahead.byteSize + sourceSize (done ++ (before ++ header)) + 1 := by
        rw [Text.byteSize_append, Text.byteSize_append, (hrule.byteSize_eq hsized).1]
        rfl
      -- The block starts behind the opening brace, wherever the part stands in the text.
      obtain ⟨inside, hinside, hsoundInside, hcoversInside⟩ := @ih body.length hshorter.1
        (ahead ++ render (done ++ (before ++ header)) ++ ['{']) ('}' :: (render later ++ behind))
        [] body hsizedRest.2.2 (by
          rw [htext, render_append done, hrule.render_eq, render_append done]
          simp) hrule.body hrule.body rfl
      obtain ⟨visits, hvisits, hsoundLater, hcoversLater⟩ := @ih later.length hshorter.2 ahead
        behind (done ++ (before ++ header) ++ [opening] ++ body ++ [closing]) later
        (by rwa [← hcells]) (by rwa [← hcells]) (by rwa [← hcells]) hrule.later rfl
      rw [hopened] at hinside hcoversInside
      rw [← hcells, hclosed] at hvisits
      rw [hclosed] at hcoversLater
      refine ⟨_, hrule.visitsFrom?_eq hsized hheader hbefore hinside hvisits, ?_,
        hrule.covers hsized rfl hcoversInside hcoversLater⟩
      refine List.forall_mem_cons.2 ⟨hrule.sound hsized htext hpart hrest _ _, ?_⟩
      intro visit hvisit
      rcases List.mem_append.1 hvisit with hvisit | hvisit
      · split at hvisit
        · cases hvisit
        · exact hsoundInside visit hvisit
      · exact hsoundLater visit hvisit

/-- The check accepts the texts whose braces pair up, and counting finds the brace that belongs to
an opening brace.  On a masked sheet that is accepted the walk ends, with two passes for each
opening brace and one more at most.  Every pass is sound: its part is balanced, no closing brace
comes first, and no partner is missed.  The rules that are found open the braces outside of
keyframes rules, each of them once, and hold what the sheet holds. -/
theorem walk_opens_braces :
    (∀ cells, matchBraces [] 0 cells = .ok () ↔ Balanced id (render cells)) ∧
    (∀ (front tail : Text) closing, closingFrom? 0 front.byteSize ('{' :: tail) = some closing ↔
      Pairs (front ++ '{' :: tail) front.byteSize closing) ∧
    (∀ shown source, findings? shown source =
      (visits? shown source).map (List.flatMap Visit.findings)) ∧
    ∀ css cells, mask css = .ok cells → matchBraces [] 0 cells = .ok () →
      ∃ visits, visits? (render cells) css = some visits ∧
        (∀ visit ∈ visits, visit.Sound (render cells)) ∧
        visits.length ≤ 2 * (render cells).count '{' + 1 ∧
        (visits.filterMap Visit.opening?).Pairwise (· < ·) ∧
        (∀ offset, offset ∈ visits.filterMap Visit.opening? ↔
          OpensFreely (render cells) offset) ∧
        Stylesheet.parse css = .ok (.ofFindings (visits.flatMap Visit.findings)) := by
  refine ⟨fun cells => ?_, fun front tail closing => closingFrom?_eq_some_iff,
    fun _ _ => rfl, fun css cells hcells hmatch => ?_⟩
  · rw [matchBraces_eq_ok_iff, balanced_render_iff]
  have hbalanced := matchBraces_eq_ok_iff.1 hmatch
  have htext : render cells = [] ++ render ([] ++ cells) ++ [] := by simp
  obtain ⟨visits, hvisits, hsound, hcovers⟩ :=
    exists_visits (sized_of_mask hcells) htext hbalanced hbalanced
  rw [List.nil_append, sourceOf_of_maskFrom hcells] at hvisits
  refine ⟨visits, hvisits, hsound, hcovers.bounded, hcovers.sorted, fun offset => ?_, ?_⟩
  · rw [hcovers.openings]
    simp [sourceSize, byteSize]
  · obtain ⟨found, hfound, hfindings⟩ := exists_findings?_cells (sized_of_mask hcells)
    rw [sourceOf_of_maskFrom hcells] at hfound
    obtain rfl : visits.flatMap Visit.findings = found :=
      Option.some.inj ((congrArg (Option.map _) hvisits).symm.trans hfound)
    rw [Stylesheet.parse_of_mask hcells, hmatch, hfindings hbalanced]
    rfl

/-- A sheet with a nested rule, a keyframes rule and a rule behind it. -/
def walkedSample : Text :=
  "a\x7bb\x7b\x7d\x7d@keyframes k\x7bto\x7b\x7d\x7dc\x7b\x7d".toList

theorem walk_opens_braces_nested :
    mask walkedSample = .ok (plainCells walkedSample) ∧
    matchBraces [] 0 (plainCells walkedSample) = .ok () ∧
    (∃ visits, visits? walkedSample walkedSample = some visits ∧
      (∀ visit ∈ visits, visit.Sound walkedSample) ∧
      visits.filterMap Visit.opening? = [1, 3, 18, 25] ∧ visits.length = 8) ∧
    OpensFreely walkedSample 25 ∧ Opens walkedSample 21 ∧ ¬OpensFreely walkedSample 21 := by
  have hmask : mask walkedSample = .ok (plainCells walkedSample) := by decide +kernel
  have hmatch : matchBraces [] 0 (plainCells walkedSample) = .ok () := by decide +kernel
  have hrun : (visits? walkedSample walkedSample).map
      (fun visits => (visits.filterMap Visit.opening?, visits.length)) =
        some ([1, 3, 18, 25], 8) := by decide +kernel
  obtain ⟨visits, hvisits, hsound, -, -, hopenings, -⟩ :=
    walk_opens_braces.2.2.2 walkedSample _ hmask hmatch
  rw [render_plainCells] at hvisits hsound hopenings
  rw [hvisits, Option.map_some, Option.some.injEq, Prod.mk.injEq] at hrun
  rw [hrun.1] at hopenings
  exact ⟨hmask, hmatch, ⟨visits, hvisits, hsound, hrun⟩, (hopenings 25).1 (by decide),
    ⟨_, walkedSample.take 21, rfl, rfl⟩, fun hfree => absurd ((hopenings 21).2 hfree) (by decide)⟩

end ClassAudit.Css
