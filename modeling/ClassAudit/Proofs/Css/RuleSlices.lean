import ClassAudit.Proofs.Css.RuleOffsets
/-!
# Cuts at the offsets of rules

The braces that are found by their offsets are cells, so no cut that a rule asks
for falls inside a character, however deep the rules are nested.  Where the
braces pair up, what is found are the findings of the tree of blocks.
-/

namespace ClassAudit.Css

/-! ## Braces by their offsets -/

theorem render_of_mark {cell : Cell} (h : cell.shown ∈ blockMarks) :
    cell.render = [cell.shown] := by
  refine if_neg fun hblank => ?_
  rw [hblank] at h
  exact absurd h (by decide)

theorem size_of_mark {cell : Cell} (hsized : cell.Sized) (h : cell.shown ∈ blockMarks) :
    cell.source.utf8Size = 1 := by
  have hsize : ∀ c ∈ blockMarks, c.utf8Size = 1 := by decide
  rw [← hsized, render_of_mark h]
  exact hsize _ h

theorem sourceSize_concat (cells : List Cell) {cell : Cell} (hsized : cell.Sized)
    (h : cell.shown ∈ blockMarks) : sourceSize (cells ++ [cell]) = sourceSize cells + 1 := by
  rw [sourceSize_append, sourceSize, size_of_mark hsized h]
  rfl

theorem sourceSize_block (front body : List Cell) {opening closing : Cell}
    (hopening : opening.Sized) (hclosing : closing.Sized) (hopen : opening.shown = '{')
    (hclose : closing.shown = '}') :
    sourceSize (front ++ [opening] ++ body ++ [closing]) =
      sourceSize front + 1 + sourceSize body + 1 := by
  rw [sourceSize_concat _ hclosing (by rw [hclose]; decide), sourceSize_append _ body,
    sourceSize_concat _ hopening (by rw [hopen]; decide)]

theorem closingFrom?_braceless {front : Text} (h : ∀ c ∈ front, c ≠ '{' ∧ c ≠ '}')
    (depth offset : Nat) (rest : Text) :
    closingFrom? depth offset (front ++ rest) =
      closingFrom? depth (offset + front.byteSize) rest := by
  induction front generalizing offset with
  | nil => rfl
  | cons c front ih =>
    obtain ⟨hc, hfront⟩ := List.forall_mem_cons.1 h
    rw [List.cons_append, closingFrom?, if_neg hc.1, if_neg hc.2, ih hfront, Text.byteSize,
      Nat.add_assoc]

theorem closingFrom?_cons {cell : Cell} (h : cell.Sized) (depth offset : Nat)
    (cells : List Cell) :
    closingFrom? depth offset (render (cell :: cells)) =
      if cell.shown = '{' then
        closingFrom? (depth + 1) (offset + cell.source.utf8Size) (render cells)
      else if cell.shown = '}' then
        if depth - 1 = 0 then some offset
        else closingFrom? (depth - 1) (offset + cell.source.utf8Size) (render cells)
      else closingFrom? depth (offset + cell.source.utf8Size) (render cells) := by
  rw [render_cons, ← h]
  -- A brace is shown as it is, and a blanked cell shows no brace, however many blanks it shows.
  by_cases hbrace : cell.shown = '{' ∨ cell.shown = '}'
  · have hmark : cell.shown ∈ blockMarks := by
      rcases hbrace with hshown | hshown
      all_goals rw [hshown]; decide
    rw [render_of_mark hmark]
    rfl
  · obtain ⟨hopen, hclose⟩ := not_or.1 hbrace
    rw [if_neg hopen, if_neg hclose]
    apply closingFrom?_braceless
    intro c hc
    obtain ⟨other, hother, rfl⟩ := mem_render (show c ∈ render [cell] by simpa [render] using hc)
    rw [List.mem_singleton.1 hother]
    exact ⟨hopen, hclose⟩

theorem Closes.opening {cell : Cell} (hopen : cell.shown = '{') {count : Nat} {word : List Cell}
    (h : Closes (count + 1) word) : Closes count (cell :: word) := by
  obtain ⟨body, closing, rest, rfl, hbody, hclose, hrest⟩ := h
  have hblock : Balanced Cell.shown (cell :: body ++ closing :: []) :=
    .block hopen hclose hbody .nil
  have hall := hrest.balanced_append hblock
  rwa [List.append_assoc, List.cons_append, List.singleton_append] at hall

/-- The brace that is found is the first that closes one more than the braces open before it. -/
theorem exists_of_closingFrom? {cells : List Cell} (hsized : ∀ cell ∈ cells, cell.Sized)
    {depth offset closing : Nat}
    (h : closingFrom? (depth + 1) offset (render cells) = some closing) :
    ∃ body brace rest, cells = body ++ brace :: rest ∧ Closes depth body ∧ brace.shown = '}' ∧
      closing = offset + sourceSize body := by
  induction cells generalizing depth offset with
  | nil => cases h
  | cons cell cells ih =>
    obtain ⟨hcell, hcells⟩ := List.forall_mem_cons.1 hsized
    -- Whatever the cell does to the depth, the brace is found behind it.
    have hlater : ∀ count,
        closingFrom? (count + 1) (offset + cell.source.utf8Size) (render cells) = some closing →
        (∀ body, Closes count body → Closes depth (cell :: body)) →
        ∃ body brace rest, cell :: cells = body ++ brace :: rest ∧ Closes depth body ∧
          brace.shown = '}' ∧ closing = offset + sourceSize body := by
      intro count hfound hstep
      obtain ⟨body, brace, rest, rfl, hbody, hbrace, rfl⟩ := ih hcells hfound
      refine ⟨cell :: body, brace, rest, rfl, hstep body hbody, hbrace, ?_⟩
      rw [sourceSize, Nat.add_assoc]
    rw [closingFrom?_cons hcell] at h
    by_cases hopen : cell.shown = '{'
    · rw [if_pos hopen] at h
      exact hlater (depth + 1) h fun body hbody => hbody.opening hopen
    · rw [if_neg hopen] at h
      by_cases hclose : cell.shown = '}'
      · rw [if_pos hclose] at h
        cases depth with
        | zero =>
          obtain rfl : offset = closing := Option.some.inj h
          exact ⟨[], cell, cells, rfl, .nil, hclose, rfl⟩
        | succ depth =>
          exact hlater depth h fun body hbody => ⟨[], cell, body, rfl, .nil, hclose, hbody⟩
      · rw [if_neg hclose] at h
        have hother : Balanced Cell.shown [cell] := .other hopen hclose .nil
        exact hlater depth h fun body hbody => hbody.balanced_append hother

theorem closingFrom?_ne_none {cells : List Cell} (hsized : ∀ cell ∈ cells, cell.Sized)
    {innermost : Nat} {outer : List Nat} {place offset : Nat}
    (h : matchBraces (innermost :: outer) place cells = .ok ()) :
    closingFrom? (outer.length + 1) offset (render cells) ≠ none := by
  induction cells generalizing innermost outer place offset with
  | nil => cases h
  | cons cell cells ih =>
    obtain ⟨hcell, hcells⟩ := List.forall_mem_cons.1 hsized
    rw [matchBraces_cons] at h
    rw [closingFrom?_cons hcell]
    by_cases hopen : cell.shown = '{'
    · rw [if_pos hopen] at h ⊢
      exact ih hcells h
    · rw [if_neg hopen] at h ⊢
      by_cases hclose : cell.shown = '}'
      · rw [if_pos hclose] at h ⊢
        cases outer with
        | nil => simp
        | cons next outer => exact ih hcells h
      · rw [if_neg hclose] at h ⊢
        exact ih hcells h

/-! ## The next rule -/

/-- What stands before a brace is a header and what ends before it. -/
theorem exists_header (lead : List Cell) :
    ∃ before header, lead = before ++ header ∧ (∀ cell ∈ header, endsItem cell.shown = false) ∧
      ∀ last ∈ before.getLast?, endsItem last.shown = true := by
  let unended := fun cell : Cell => !endsItem cell.shown
  refine ⟨(lead.reverse.dropWhile unended).reverse, (lead.reverse.takeWhile unended).reverse,
    ?_, ?_, ?_⟩
  · rw [← List.reverse_append, List.takeWhile_append_dropWhile, List.reverse_reverse]
  · intro cell hcell
    have hmem := List.mem_takeWhile_imp (List.mem_reverse.1 hcell)
    simpa [unended] using hmem
  · intro last hlast
    rw [List.getLast?_reverse] at hlast
    have hhead := List.head?_dropWhile_not unended lead.reverse
    rw [hlast] at hhead
    simpa [unended] using hhead

theorem headerStart_cells {before header : List Cell}
    (hsized : ∀ cell ∈ before, cell.Sized)
    (hheader : ∀ cell ∈ header, endsItem cell.shown = false)
    (hbefore : ∀ last ∈ before.getLast?, endsItem last.shown = true) (cursor : Nat) :
    headerStart cursor (render (before ++ header)) = cursor + sourceSize before := by
  have hrender : ∀ c ∈ render header, endsItem c = false := by
    intro c hc
    obtain ⟨cell, hcell, rfl⟩ := mem_render hc
    exact hheader cell hcell
  unfold headerStart
  rcases List.eq_nil_or_concat before with rfl | ⟨front, last, rfl⟩
  · rw [List.nil_append, Text.lastOffsetOf?_eq_none hrender]
    rfl
  · rw [List.concat_eq_append] at hsized hbefore ⊢
    have hlast : endsItem last.shown = true := hbefore last (by simp)
    have hmark : last.shown ∈ blockMarks := by
      rcases Bool.or_eq_true_iff.1 hlast with hshown | hshown
      all_goals rw [eq_of_beq hshown]; decide
    have hsize := size_of_mark (hsized last (by simp)) hmark
    rw [List.append_assoc, List.singleton_append, render_append, render_cons,
      render_of_mark hmark, List.singleton_append, Text.lastOffsetOf?_append _ hlast hrender,
      byteSize_render fun cell hcell => hsized cell (List.mem_append_left _ hcell),
      sourceSize_append]
    simp only [sourceSize, hsize]
    omega

theorem nextSpan?_of_unopened {done rest : List Cell}
    (hsized : ∀ cell ∈ done ++ rest, cell.Sized) (h : ∀ cell ∈ rest, cell.shown ≠ '{') :
    nextSpan? (render (done ++ rest)) (sourceSize done) = some none := by
  have hnone : Text.offsetOf? (· == '{') (render rest) = none := by
    apply Text.offsetOf?_eq_none
    intro c hc
    obtain ⟨cell, hcell, rfl⟩ := mem_render hc
    simpa using h cell hcell
  unfold nextSpan?
  rw [slice?_rest hsized]
  simp only [Option.bind_eq_bind, Option.bind_some, hnone]
  rfl

theorem nextSpan?_of_opened {done before header tail : List Cell} {opening : Cell}
    (hsized : ∀ cell ∈ done ++ (before ++ header) ++ opening :: tail, cell.Sized)
    (hlead : ∀ cell ∈ before ++ header, cell.shown ≠ '{') (hopen : opening.shown = '{')
    (hheader : ∀ cell ∈ header, endsItem cell.shown = false)
    (hbefore : ∀ last ∈ before.getLast?, endsItem last.shown = true) :
    nextSpan? (render (done ++ (before ++ header) ++ opening :: tail)) (sourceSize done) =
      some ((closingFrom? 1 (sourceSize (done ++ (before ++ header)) + 1) (render tail)).map
        fun closing => ⟨sourceSize (done ++ before), sourceSize (done ++ (before ++ header)),
          closing⟩) := by
  have hmark : opening.shown ∈ blockMarks := by rw [hopen]; decide
  have hsizedLead : ∀ cell ∈ before ++ header, cell.Sized :=
    fun cell hcell => hsized cell (List.mem_append_left _ (List.mem_append_right _ hcell))
  have hopening : opening.Sized := hsized opening (by simp)
  have hoffset : Text.offsetOf? (· == '{') (render (before ++ header ++ opening :: tail)) =
      some (sourceSize (before ++ header)) := by
    rw [render_append, render_cons, render_of_mark hmark, List.singleton_append,
      Text.offsetOf?_append _ (by rw [hopen]; rfl), byteSize_render hsizedLead]
    intro c hc
    obtain ⟨cell, hcell, rfl⟩ := mem_render hc
    simpa using hlead cell hcell
  have hrest : (render (done ++ (before ++ header) ++ opening :: tail)).slice? (sourceSize done)
      (render (done ++ (before ++ header) ++ opening :: tail)).byteSize =
        some (render (before ++ header ++ opening :: tail)) := by
    rw [List.append_assoc] at hsized ⊢
    exact slice?_rest hsized
  unfold nextSpan?
  rw [hrest]
  simp only [Option.bind_eq_bind, Option.bind_some, hoffset]
  rw [← sourceSize_append, slice?_rest hsized]
  simp only [Option.bind_some]
  rw [closingFrom?_cons hopening, if_pos hopen, size_of_mark hopening hmark, Nat.zero_add]
  cases closingFrom? 1 (sourceSize (done ++ (before ++ header)) + 1) (render tail) with
  | none => rfl
  | some closing =>
    simp only
    rw [(slice?_cells hsized).1]
    simp only [Option.bind_some]
    rw [headerStart_cells (fun cell hcell => hsizedLead cell (List.mem_append_left _ hcell))
      hheader hbefore, ← sourceSize_append]
    rfl

/-! ## Balanced rules -/

/-- Before its first opening brace a balanced word has no closing one. -/
theorem Balanced.unclosed {lead rest : List Cell} (h : Balanced Cell.shown (lead ++ rest))
    (hlead : ∀ cell ∈ lead, cell.shown ≠ '{') :
    (∀ cell ∈ lead, cell.shown ≠ '{' ∧ cell.shown ≠ '}') ∧ Balanced Cell.shown rest := by
  induction lead with
  | nil => exact ⟨List.forall_mem_nil _, h⟩
  | cons cell lead ih =>
    obtain ⟨hopen, hlead⟩ := List.forall_mem_cons.1 hlead
    have hmatch := (@matchBraces_eq_ok_iff 0 _).2 h
    rw [List.cons_append, matchBraces_cons, if_neg hopen] at hmatch
    have hclose : cell.shown ≠ '}' := by
      intro hclose
      rw [if_pos hclose] at hmatch
      cases hmatch
    rw [if_neg hclose] at hmatch
    obtain ⟨hall, hrest⟩ := ih (matchBraces_eq_ok_iff.1 hmatch) hlead
    exact ⟨List.forall_mem_cons.2 ⟨⟨hopen, hclose⟩, hall⟩, hrest⟩

theorem Balanced.behind_block {opening closing : Cell} {body rest : List Cell}
    (hopen : opening.shown = '{') (hclose : closing.shown = '}')
    (hbody : Balanced Cell.shown body)
    (h : Balanced Cell.shown (opening :: (body ++ closing :: rest))) :
    Balanced Cell.shown rest := by
  have hblock : Balanced Cell.shown (opening :: body ++ closing :: []) :=
    .block hopen hclose hbody .nil
  have hmatch := (@matchBraces_eq_ok_iff 0 _).2 h
  have hsplit : opening :: (body ++ closing :: rest) =
      (opening :: body ++ closing :: []) ++ rest := by
    simp
  rw [hsplit, matchBraces_balanced_append hblock] at hmatch
  exact matchBraces_eq_ok_iff.1 hmatch

theorem Block.findings_of_braceless {cells : List Cell}
    (h : ∀ cell ∈ cells, cell.shown ≠ '{' ∧ cell.shown ≠ '}') : (ofCells cells).findings = [] := by
  have hcells := ofCells_braceless_append h []
  rw [List.append_nil] at hcells
  rw [hcells]
  exact congrArg Block.findings (prepend_done cells [])

theorem Block.findings_of_block {lead body rest : List Cell} {opening closing : Cell}
    (hlead : ∀ cell ∈ lead, cell.shown ≠ '{' ∧ cell.shown ≠ '}') (hopen : opening.shown = '{')
    (hclose : closing.shown = '}') (hbody : Balanced Cell.shown body) :
    (ofCells (lead ++ opening :: (body ++ closing :: rest))).findings =
      (Header.ofFront lead).findings ++
        (if (Header.ofFront lead).isKeyframes then [] else (ofCells body).findings) ++
          (ofCells rest).findings := by
  rw [ofCells_braceless_append hlead, ← List.cons_append, ofCells_block hopen hclose hbody,
    prepend_rule, List.append_nil, findings_rule]

theorem Header.ofFront_header {before header : List Cell}
    (hlead : ∀ cell ∈ before ++ header, cell.shown ≠ '}')
    (hbefore : ∀ last ∈ before.getLast?, endsItem last.shown = true) :
    ofFront (before ++ header) = ofFront header := by
  rcases List.eq_nil_or_concat before with rfl | ⟨front, last, rfl⟩
  · rfl
  · rw [List.concat_eq_append] at hlead hbefore ⊢
    have hlast : last.shown = ';' := by
      have hends := hbefore last (by simp)
      have hclose := hlead last (by simp)
      simpa [endsItem, hclose] using hends
    rw [List.append_assoc]
    exact ofFront_append_semicolon front header hlast

/-! ## All rules -/

/-- Every cut that the span of a rule asks for succeeds. -/
theorem cuts_of_block {done before header body rest : List Cell} {opening closing : Cell}
    {cells : List Cell}
    (hcells : cells = done ++ (before ++ header) ++ opening :: (body ++ closing :: rest))
    (hsized : ∀ cell ∈ cells, cell.Sized) (hopen : opening.shown = '{')
    (hheader : ∀ cell ∈ header, endsItem cell.shown = false) :
    sourceSize done < (render cells).byteSize ∧
    Header.read? (render cells) (sourceOf cells)
      ⟨sourceSize (done ++ before), sourceSize (done ++ (before ++ header)),
        sourceSize (done ++ (before ++ header)) + 1 + sourceSize body⟩ =
      some (Header.ofFront header) ∧
    (render cells).slice? (sourceSize (done ++ (before ++ header)) + 1)
      (sourceSize (done ++ (before ++ header)) + 1 + sourceSize body) = some (render body) ∧
    (sourceOf cells).slice? (sourceSize (done ++ (before ++ header)) + 1)
      (sourceSize (done ++ (before ++ header)) + 1 + sourceSize body) = some (sourceOf body) := by
  have hcursor : sourceSize done < (render cells).byteSize := by
    have hpos := opening.source.utf8Size_pos
    rw [byteSize_render hsized, hcells]
    simp only [sourceSize_append, sourceSize]
    omega
  have hopened : sourceSize (done ++ (before ++ header) ++ [opening]) =
      sourceSize (done ++ (before ++ header)) + 1 :=
    sourceSize_concat _ (hsized opening (by simp [hcells])) (by rw [hopen]; decide)
  have hclosed : sourceSize (done ++ (before ++ header) ++ [opening] ++ body) =
      sourceSize (done ++ (before ++ header)) + 1 + sourceSize body := by
    rw [sourceSize_append _ body, hopened]
  have hbody : cells = done ++ (before ++ header) ++ [opening] ++ body ++ closing :: rest := by
    rw [hcells]
    simp
  have hslices := @slice?_cells (done ++ (before ++ header) ++ [opening]) body (closing :: rest)
    (by rwa [← hbody])
  have hread := @Header.read?_cells (done ++ before) header (opening :: (body ++ closing :: rest))
    (by rwa [List.append_assoc done, ← hcells])
    (fun cell hcell hsemicolon => by simpa [endsItem, hsemicolon] using hheader cell hcell)
    (sourceSize (done ++ (before ++ header)) + 1 + sourceSize body)
  rw [← hbody, hopened, hclosed] at hslices
  rw [List.append_assoc done, ← hcells] at hread
  exact ⟨hcursor, hread, hslices⟩

/-- One rule: every cut that its span asks for succeeds, given those in its block and behind it. -/
theorem visitsFrom?_of_block {base : Nat} {done before header body rest : List Cell}
    {opening closing : Cell} {inside later : List Visit} {cells : List Cell}
    (hcells : cells = done ++ (before ++ header) ++ opening :: (body ++ closing :: rest))
    (hsized : ∀ cell ∈ cells, cell.Sized) (hopen : opening.shown = '{')
    (hheader : ∀ cell ∈ header, endsItem cell.shown = false)
    (hspan : nextSpan? (render cells) (sourceSize done) = some (some
      ⟨sourceSize (done ++ before), sourceSize (done ++ (before ++ header)),
        sourceSize (done ++ (before ++ header)) + 1 + sourceSize body⟩))
    (hinside : visitsFrom? (base + sourceSize (done ++ (before ++ header)) + 1) (render body)
      (sourceOf body) 0 = some inside)
    (hlater : visitsFrom? base (render cells) (sourceOf cells)
      (sourceSize (done ++ (before ++ header)) + 1 + sourceSize body + 1) = some later) :
    visitsFrom? base (render cells) (sourceOf cells) (sourceSize done) =
      some (⟨base, render cells, sourceSize done,
        some (⟨sourceSize (done ++ before), sourceSize (done ++ (before ++ header)),
          sourceSize (done ++ (before ++ header)) + 1 + sourceSize body⟩,
          Header.ofFront header)⟩ ::
        ((if (Header.ofFront header).isKeyframes then [] else inside) ++ later)) := by
  obtain ⟨hcursor, hread, hinner, hsource⟩ := cuts_of_block hcells hsized hopen hheader
  exact visitsFrom?_rule hcursor hspan hread hinner hsource hinside hlater

/-- From any cell on every cut succeeds, and if the braces from there on pair up, what is found
are the findings of the blocks. -/
theorem exists_visitsFrom?_cells {done rest : List Cell}
    (hsized : ∀ cell ∈ done ++ rest, cell.Sized) (base : Nat) :
    ∃ visits, visitsFrom? base (render (done ++ rest)) (sourceOf (done ++ rest))
        (sourceSize done) = some visits ∧
      (Balanced Cell.shown rest →
        visits.flatMap Visit.findings = (Block.ofCells rest).findings) := by
  induction hlength : rest.length using Nat.strongRecOn generalizing base done rest with
  | ind length ih =>
    -- The rest opens no brace, or its first opening brace is not closed, or it starts with a rule.
    -- The body of that rule is balanced in any case: the brace found is the first to close it.
    cases hfind : rest.find? (fun cell => cell.shown == '{') with
    | none =>
      have hnone : ∀ cell ∈ rest, cell.shown ≠ '{' := by
        simpa using List.find?_eq_none.1 hfind
      refine ⟨_, visitsFrom?_done fun _ => nextSpan?_of_unopened hsized hnone, ?_⟩
      intro hbalanced
      rw [← List.append_nil rest] at hbalanced
      exact (Block.findings_of_braceless (hbalanced.unclosed hnone).1).symm
    | some opening =>
      obtain ⟨hopen, lead, tail, rfl, hlead⟩ := List.find?_eq_some_iff_append.1 hfind
      have hopen : opening.shown = '{' := by simpa using hopen
      have hlead : ∀ cell ∈ lead, cell.shown ≠ '{' := by simpa using hlead
      obtain ⟨before, header, rfl, hheader, hbefore⟩ := exists_header lead
      rw [← List.append_assoc] at hsized ⊢
      have hspan := nextSpan?_of_opened hsized hlead hopen hheader hbefore
      have htail : ∀ cell ∈ tail, cell.Sized := fun cell hcell => hsized cell (by simp [hcell])
      cases hclosing :
          closingFrom? 1 (sourceSize (done ++ (before ++ header)) + 1) (render tail) with
      | none =>
        rw [hclosing] at hspan
        refine ⟨_, visitsFrom?_done fun _ => hspan, fun hbalanced => ?_⟩
        have hmatch := (@matchBraces_eq_ok_iff 0 _).2 (hbalanced.unclosed hlead).2
        rw [matchBraces_cons, if_pos hopen] at hmatch
        exact absurd hclosing (closingFrom?_ne_none htail hmatch)
      | some close =>
        rw [hclosing] at hspan
        obtain ⟨body, closing, rest, rfl, hbody, hclose, rfl⟩ :=
          exists_of_closingFrom? htail hclosing
        have hbody : Balanced Cell.shown body := hbody
        have hshorter : body.length < length ∧ rest.length < length := by
          rw [← hlength]
          simp only [List.length_append, List.length_cons]
          omega
        obtain ⟨inside, hinside, hfindings⟩ := @ih body.length hshorter.1 [] body
          (fun cell hcell => htail cell (List.mem_append_left _ hcell))
          (base + sourceSize (done ++ (before ++ header)) + 1) rfl
        have hbehind : done ++ (before ++ header) ++ opening :: (body ++ closing :: rest) =
            done ++ (before ++ header) ++ [opening] ++ body ++ [closing] ++ rest := by simp
        obtain ⟨later, hlater, hnext⟩ := @ih rest.length hshorter.2
          (done ++ (before ++ header) ++ [opening] ++ body ++ [closing]) rest
          (by rwa [← hbehind]) base rfl
        have hcursor := sourceSize_block (done ++ (before ++ header)) body
          (hsized opening (by simp)) (htail closing (by simp)) hopen hclose
        rw [← hbehind, hcursor] at hlater
        refine ⟨_, visitsFrom?_of_block rfl hsized hopen hheader hspan hinside hlater, ?_⟩
        intro hbalanced
        obtain ⟨hflat, hblock⟩ := hbalanced.unclosed hlead
        rw [Block.findings_of_block hflat hopen hclose hbody,
          Header.ofFront_header (fun cell hcell => (hflat cell hcell).2) hbefore,
          ← hfindings hbody, ← hnext (.behind_block hopen hclose hbody hblock),
          List.flatMap_cons, List.flatMap_append, ← List.append_assoc]
        split <;> rfl

theorem exists_findings?_cells {cells : List Cell} (hsized : ∀ cell ∈ cells, cell.Sized) :
    ∃ found, findings? (render cells) (sourceOf cells) = some found ∧
      (Balanced Cell.shown cells → found = (Block.ofCells cells).findings) := by
  obtain ⟨visits, hvisits, hfindings⟩ := @exists_visitsFrom?_cells [] cells hsized 0
  exact ⟨_, congrArg (Option.map _) hvisits, hfindings⟩

/-- A sheet that is read holds what is found in its masked text. -/
theorem exists_findings?_of_parse {css : Text} {sheet : Stylesheet}
    (h : Stylesheet.parse css = .ok sheet) :
    ∃ shown found, maskedText css = .ok shown ∧ findings? shown css = some found ∧
      sheet = .ofFindings found := by
  cases hcells : mask css with
  | error fault =>
    unfold Stylesheet.parse at h
    rw [hcells] at h
    cases h
  | ok cells =>
    rw [Stylesheet.parse_of_mask hcells] at h
    obtain ⟨_, hbraces, rfl⟩ := exists_of_map_eq_ok h
    obtain ⟨found, hfound, hfindings⟩ := exists_findings?_cells (sized_of_mask hcells)
    rw [sourceOf_of_maskFrom hcells] at hfound
    refine ⟨render cells, found, ?_, hfound, ?_⟩
    · rw [maskedText, hcells]
      rfl
    · rw [hfindings (matchBraces_eq_ok_iff.1 hbraces)]

/-- Masking keeps every offset of a sheet: the masked text has its bytes and its boundaries, and
is its own masked text; bytes are masked to the same text, which they always encode; a fault is
where its string or comment starts.  So the rules of any masked sheet can be found by their
offsets: every cut is between boundaries, and what is found is what a sheet that is read holds. -/
theorem mask_keeps_offsets (css : Text) :
    (∀ shown, maskedText css = .ok shown →
      shown.byteSize = css.byteSize ∧
      (∀ offset, css.IsBoundary offset → shown.IsBoundary offset) ∧
      maskedText shown = .ok shown ∧
      ∃ found, findings? shown css = some found ∧
        ∀ sheet, Stylesheet.parse css = .ok sheet → sheet = .ofFindings found) ∧
    (∀ start, maskedText css = .error (.unterminatedString start) →
      css.bytes[start]? = some '"'.toUInt8 ∨ css.bytes[start]? = some '\''.toUInt8) ∧
    (∀ start, maskedText css = .error (.unterminatedComment start) →
      css.bytes[start]? = some '/'.toUInt8 ∧ css.bytes[start + 1]? = some '*'.toUInt8) ∧
    ((∀ shown, maskBytesFrom .sheet 0 css.bytes = .ok shown → (Text.ofBytes? shown).isSome) ∧
      maskBytes css.bytes = maskedText css) ∧
    ∀ text start stop, (Text.slice? text start stop).isSome ↔
      text.IsBoundary start ∧ text.IsBoundary stop ∧ start ≤ stop := by
  refine ⟨?_, ?_, ?_, ⟨?_, maskBytes_bytes css⟩, fun _ _ _ => Text.isSome_slice?_iff⟩
  · intro shown hshown
    obtain ⟨cells, hcells, rfl⟩ := exists_of_map_eq_ok hshown
    have hsized := sized_of_mask hcells
    have hsource : sourceOf cells = css := sourceOf_of_maskFrom hcells
    refine ⟨?_, ?_, maskedText_of_maskedText hshown, ?_⟩
    · rw [byteSize_render hsized, ← byteSize_sourceOf, hsource]
    · intro offset hoffset
      rw [← hsource] at hoffset
      exact isBoundary_render hsized hoffset
    · obtain ⟨found, hfound, hfindings⟩ := exists_findings?_cells hsized
      rw [hsource] at hfound
      refine ⟨found, hfound, fun sheet hsheet => ?_⟩
      rw [Stylesheet.parse_of_mask hcells] at hsheet
      obtain ⟨_, hbraces, rfl⟩ := exists_of_map_eq_ok hsheet
      rw [hfindings (matchBraces_eq_ok_iff.1 hbraces)]
  · intro start hfault
    obtain ⟨quote, rest, hat, hquote⟩ := startsIn_of_maskedText hfault
    have hbyte := hat.getElem?_bytes 0
    rcases hquote with rfl | rfl
    · exact .inl hbyte
    · exact .inr hbyte
  · intro start hfault
    obtain ⟨rest, hat⟩ := startsIn_of_maskedText hfault
    exact ⟨hat.getElem?_bytes 0, hat.getElem?_bytes 1⟩
  · intro shown hshown
    rw [maskBytesFrom_sheet] at hshown
    obtain ⟨text, -, rfl⟩ := exists_of_map_eq_ok hshown
    rw [Text.ofBytes?_bytes]
    rfl

/-- A sheet with a character of two bytes in a comment, in a string and in a name. -/
def wideSample : Text :=
  "/*é*/@keyframes \"é\"\x7bto\x7b\x7d\x7d.é\x7b.b\x7b\x7d\x7d".toList

def wideSampleShown : Text :=
  "      @keyframes \"é\"\x7bto\x7b\x7d\x7d.é\x7b.b\x7b\x7d\x7d".toList

theorem mask_keeps_offsets_wide :
    maskedText wideSample = .ok wideSampleShown ∧
      wideSampleShown.byteSize = wideSample.byteSize ∧
      (wideSample.IsBoundary 4 ∧ wideSampleShown.IsBoundary 4) ∧
      maskedText wideSampleShown = .ok wideSampleShown ∧
      (∃ found, findings? wideSampleShown wideSample = some found ∧
        ∃ sheet, Stylesheet.parse wideSample = .ok sheet ∧ sheet = .ofFindings found) ∧
      (maskedText ['é', '\''] = .error (.unterminatedString 2) ∧
        (Text.bytes ['é', '\''])[2]? = some '\''.toUInt8) ∧
      (maskedText ['é', '/', '*'] = .error (.unterminatedComment 2) ∧
        (Text.bytes ['é', '/', '*'])[2]? = some '/'.toUInt8) := by
  have hmask : maskedText wideSample = .ok wideSampleShown := by decide +kernel
  have hparse : ∃ sheet, Stylesheet.parse wideSample = .ok sheet :=
    ⟨.ofFindings [.keyframes ['é'], .className ['é'], .className ['b']], by decide +kernel⟩
  have hboundary : wideSample.IsBoundary 4 :=
    Text.isBoundary_iff.2 ⟨wideSample.take 3, wideSample.drop 3, rfl, rfl⟩
  have hstring : maskedText ['é', '\''] = .error (.unterminatedString 2) := by decide +kernel
  have hcomment : maskedText ['é', '/', '*'] = .error (.unterminatedComment 2) := by decide +kernel
  obtain ⟨hsize, hbounds, hagain, found, hfound, hsheet⟩ :=
    (mask_keeps_offsets wideSample).1 _ hmask
  obtain ⟨sheet, hparsed⟩ := hparse
  refine ⟨hmask, hsize, ⟨hboundary, hbounds 4 hboundary⟩, hagain,
    ⟨found, hfound, sheet, hparsed, hsheet sheet hparsed⟩, ⟨hstring, ?_⟩, hcomment, ?_⟩
  · rcases (mask_keeps_offsets ['é', '\'']).2.1 2 hstring with hdouble | hsingle
    · exact absurd hdouble (by decide)
    · exact hsingle
  · exact ((mask_keeps_offsets ['é', '/', '*']).2.2.1 2 hcomment).1

end ClassAudit.Css
