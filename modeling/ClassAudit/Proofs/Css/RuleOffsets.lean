import ClassAudit.Proofs.Css.MaskedOffsets
import ClassAudit.Proofs.Css.UncommentedSheet
/-!
# Rules by their offsets

The rules of a sheet are found by a walk along byte offsets: the braces are
looked for in the masked text, and what stands between two offsets is cut out of
the masked text and of the source alike.  The walk tells what it visits, and what
a sheet holds is read off its visits.  A cut fails inside a character.  Between
cells it does not, and the header of a rule is read from its cells, wherever they
stand.
-/

namespace ClassAudit.Css

open Text (byteSize)

/-- Where a rule stands in a masked text: the start of its header and its two braces. -/
structure RuleSpan where
  start : Nat
  opening : Nat
  closing : Nat

/-- The offset of the brace that closes the first block of a text, given the braces open. -/
def closingFrom? : (depth offset : Nat) → Text → Option Nat
  | _, _, [] => none
  | depth, offset, c :: rest =>
    let next := offset + c.utf8Size
    if c = '{' then closingFrom? (depth + 1) next rest
    else if c = '}' then
      if depth - 1 = 0 then some offset else closingFrom? (depth - 1) next rest
    else closingFrom? depth next rest

/-- Whether a character ends what stands before a header. -/
def endsItem (c : Char) : Bool :=
  c == ';' || c == '}'

/-- Where the header of a rule starts, given the cursor and what stands between it and the brace. -/
def headerStart (cursor : Nat) (front : Text) : Nat :=
  match Text.lastOffsetOf? endsItem front with
  | some last => cursor + last + 1
  | none => cursor

/-- The next rule of a masked text from a cursor on, if there is one; none at all if a cut fails. -/
def nextSpan? (shown : Text) (cursor : Nat) : Option (Option RuleSpan) := do
  let rest ← shown.slice? cursor shown.byteSize
  match Text.offsetOf? (· == '{') rest with
  | none => return none
  | some lead =>
    let opening := cursor + lead
    let block ← shown.slice? opening shown.byteSize
    match closingFrom? 0 opening block with
    | none => return none
    | some closing =>
      let front ← shown.slice? cursor opening
      return some ⟨headerStart cursor front, opening, closing⟩

/-- The header of a rule. The name of a keyframes rule is cut out of the source. -/
def Header.read? (shown source : Text) (span : RuleSpan) : Option Header := do
  let raw ← shown.slice? span.start span.opening
  let header := Text.trim raw
  let offset := span.start + (raw.byteSize - (Text.trimStart raw).byteSize)
  if header.head? = some '@' then
    let word := firstWord header
    if keyframesWords.contains word then
      let name ← source.slice? (offset + word.byteSize) span.opening
      return .keyframes (keyframesName name)
    else return .grouping
  else return .selectors header

theorem le_of_closingFrom? {depth offset closing : Nat} {text : Text}
    (h : closingFrom? depth offset text = some closing) : offset ≤ closing := by
  induction text generalizing depth offset with
  | nil => cases h
  | cons c rest ih =>
    rw [closingFrom?] at h
    split at h
    · exact Nat.le_of_add_right_le (ih h)
    · split at h
      · split at h
        · exact Nat.le_of_eq (Option.some.inj h)
        · exact Nat.le_of_add_right_le (ih h)
      · exact Nat.le_of_add_right_le (ih h)

theorem le_of_nextSpan? {shown : Text} {cursor : Nat} {span : RuleSpan}
    (h : nextSpan? shown cursor = some (some span)) :
    cursor ≤ span.opening ∧ span.opening ≤ span.closing := by
  obtain ⟨rest, -, h⟩ := Option.bind_eq_some_iff.1 h
  split at h
  · cases h
  · rename_i lead _
    obtain ⟨block, -, h⟩ := Option.bind_eq_some_iff.1 h
    split at h
    · cases h
    · rename_i closing hclosing
      obtain ⟨front, -, h⟩ := Option.bind_eq_some_iff.1 h
      cases h
      exact ⟨Nat.le_add_right _ _, le_of_closingFrom? hclosing⟩

theorem byteSize_of_slice? {text part : Text} {start stop : Nat}
    (h : text.slice? start stop = some part) :
    start + part.byteSize = stop ∧ stop ≤ text.byteSize := by
  obtain ⟨front, back, rfl, rfl, rfl⟩ := Text.slice?_eq_some_iff.1 h
  refine ⟨(Text.byteSize_append _ _).symm, ?_⟩
  rw [Text.byteSize_append (front ++ part)]
  exact Nat.le_add_right _ _

/-- Whether the block of a rule is not read. -/
def Header.isKeyframes : Header → Bool
  | keyframes _ => true
  | _ => false

/-- What the header of a rule holds. -/
def Header.findings : Header → List Finding
  | keyframes name => if name.isEmpty then [] else [.keyframes name]
  | grouping => []
  | selectors list => listFindings list

/-- One pass of the walk: the part that is searched, where it starts in the whole text, the cursor
in the part, and the rule that is found behind the cursor. -/
structure Visit where
  base : Nat
  part : Text
  cursor : Nat
  rule : Option (RuleSpan × Header)

/-- What the header of the rule holds. -/
def Visit.findings (visit : Visit) : List Finding :=
  match visit.rule with
  | none => []
  | some (_, header) => header.findings

/-- The visits of a masked text from a cursor on; none if a cut fails. -/
def visitsFrom? (base : Nat) (shown source : Text) (cursor : Nat) : Option (List Visit) :=
  if _hcursor : cursor < shown.byteSize then
    match _hspan : nextSpan? shown cursor with
    | none => none
    | some none => some [⟨base, shown, cursor, none⟩]
    | some (some span) => do
      let header ← Header.read? shown source span
      let body :=
        match _hinner : shown.slice? (span.opening + 1) span.closing with
        | none => none
        | some inner => do
          let innerSource ← source.slice? (span.opening + 1) span.closing
          visitsFrom? (base + span.opening + 1) inner innerSource 0
      -- The block of a keyframes rule is not entered.
      let inside ← if header.isKeyframes then some [] else body
      let later ← visitsFrom? base shown source (span.closing + 1)
      return ⟨base, shown, cursor, some (span, header)⟩ :: (inside ++ later)
  else some [⟨base, shown, cursor, none⟩]
termination_by shown.byteSize - cursor
decreasing_by
  · have hspan := le_of_nextSpan? _hspan
    have hinner := byteSize_of_slice? _hinner
    omega
  · have hspan := le_of_nextSpan? _hspan
    omega

/-- The visits of a masked text. -/
def visits? (shown source : Text) : Option (List Visit) :=
  visitsFrom? 0 shown source 0

/-- What the rules of a masked text hold; none if a cut of the text or of its source falls inside
a character. -/
def findings? (shown source : Text) : Option (List Finding) :=
  (visits? shown source).map (List.flatMap Visit.findings)

/-- The visits of the block of a rule; that of a keyframes rule is not entered. -/
def RuleSpan.visits? (span : RuleSpan) (header : Header) (base : Nat) (shown source : Text) :
    Option (List Visit) :=
  if header.isKeyframes then some []
  else
    (shown.slice? (span.opening + 1) span.closing).bind fun inner =>
      (source.slice? (span.opening + 1) span.closing).bind fun innerSource =>
        visitsFrom? (base + span.opening + 1) inner innerSource 0

/-- The visits from a cursor on, by the rule that comes next. -/
theorem visitsFrom?_eq (base : Nat) (shown source : Text) (cursor : Nat) :
    visitsFrom? base shown source cursor =
      if cursor < shown.byteSize then
        (nextSpan? shown cursor).bind fun
          | none => some [⟨base, shown, cursor, none⟩]
          | some span => (Header.read? shown source span).bind fun header =>
            (span.visits? header base shown source).bind fun inside =>
            (visitsFrom? base shown source (span.closing + 1)).bind fun later =>
              some (⟨base, shown, cursor, some (span, header)⟩ :: (inside ++ later))
      else some [⟨base, shown, cursor, none⟩] := by
  rw [visitsFrom?]
  split
  · split
    · rename_i hspan
      rw [hspan]
      rfl
    · rename_i hspan
      rw [hspan]
      rfl
    · rename_i span hspan
      rw [hspan]
      refine congrArg (Option.bind _) (funext fun header => ?_)
      unfold RuleSpan.visits?
      cases header.isKeyframes with
      | true => rfl
      | false => cases shown.slice? (span.opening + 1) span.closing <;> rfl
  · rfl

theorem visitsFrom?_done {base : Nat} {shown source : Text} {cursor : Nat}
    (h : cursor < shown.byteSize → nextSpan? shown cursor = some none) :
    visitsFrom? base shown source cursor = some [⟨base, shown, cursor, none⟩] := by
  rw [visitsFrom?_eq]
  split
  · rename_i hcursor
    rw [h hcursor]
    rfl
  · rfl

theorem visitsFrom?_rule {base : Nat} {shown source inner innerSource : Text} {cursor : Nat}
    {span : RuleSpan} {header : Header} {inside later : List Visit}
    (hcursor : cursor < shown.byteSize) (hspan : nextSpan? shown cursor = some (some span))
    (hheader : Header.read? shown source span = some header)
    (hinner : shown.slice? (span.opening + 1) span.closing = some inner)
    (hsource : source.slice? (span.opening + 1) span.closing = some innerSource)
    (hinside : visitsFrom? (base + span.opening + 1) inner innerSource 0 = some inside)
    (hlater : visitsFrom? base shown source (span.closing + 1) = some later) :
    visitsFrom? base shown source cursor = some (⟨base, shown, cursor, some (span, header)⟩ ::
      ((if header.isKeyframes then [] else inside) ++ later)) := by
  have hblock : span.visits? header base shown source =
      some (if header.isKeyframes then [] else inside) := by
    unfold RuleSpan.visits?
    rw [hinner, hsource]
    split
    · rfl
    · exact hinside
  rw [visitsFrom?_eq, if_pos hcursor, hspan]
  simp only [Option.bind_some, hheader, hblock, hlater]

/-- The visits from a cursor on: one that finds no rule, or that of a rule, those of its block and
those behind it. -/
theorem exists_of_visitsFrom? {base : Nat} {shown source : Text} {cursor : Nat}
    {visits : List Visit} (h : visitsFrom? base shown source cursor = some visits) :
    visits = [⟨base, shown, cursor, none⟩] ∨ ∃ span header inside later,
      cursor < shown.byteSize ∧ nextSpan? shown cursor = some (some span) ∧
      Header.read? shown source span = some header ∧
      visitsFrom? base shown source (span.closing + 1) = some later ∧
      visits = ⟨base, shown, cursor, some (span, header)⟩ :: (inside ++ later) ∧
      (inside = [] ∨ ∃ inner innerSource,
        shown.slice? (span.opening + 1) span.closing = some inner ∧
          visitsFrom? (base + span.opening + 1) inner innerSource 0 = some inside) := by
  rw [visitsFrom?_eq] at h
  split at h
  · rename_i hcursor
    obtain ⟨_ | span, hspan, h⟩ := Option.bind_eq_some_iff.1 h
    · exact .inl (Option.some.inj h).symm
    obtain ⟨header, hheader, h⟩ := Option.bind_eq_some_iff.1 h
    obtain ⟨inside, hblock, h⟩ := Option.bind_eq_some_iff.1 h
    obtain ⟨later, hlater, h⟩ := Option.bind_eq_some_iff.1 h
    refine .inr ⟨span, header, inside, later, hcursor, hspan, hheader, hlater,
      (Option.some.inj h).symm, ?_⟩
    unfold RuleSpan.visits? at hblock
    split at hblock
    · exact .inl (Option.some.inj hblock).symm
    · obtain ⟨inner, hinner, hblock⟩ := Option.bind_eq_some_iff.1 hblock
      obtain ⟨innerSource, -, hinside⟩ := Option.bind_eq_some_iff.1 hblock
      exact .inr ⟨inner, innerSource, hinner, hinside⟩
  · exact .inl (Option.some.inj h).symm

theorem Block.findings_rule (front : List Cell) (body next : Block) :
    (rule front body next).findings = (Header.ofFront front).findings ++
      (if (Header.ofFront front).isKeyframes then [] else body.findings) ++ next.findings := by
  rw [Block.findings]
  cases Header.ofFront front with
  | keyframes name => simp [Header.findings, Header.isKeyframes]
  | grouping | selectors => rfl

/-! ## Cutting cells -/

theorem mem_render {cells : List Cell} {c : Char} (h : c ∈ render cells) :
    ∃ cell ∈ cells, cell.shown = c := by
  obtain ⟨cell, hcell, hc⟩ := List.mem_flatMap.1 h
  refine ⟨cell, hcell, ?_⟩
  unfold Cell.render at hc
  split at hc
  · rename_i hblank
    rw [hblank, List.eq_of_mem_replicate hc]
  · exact (List.mem_singleton.1 hc).symm

theorem render_eq_shown (cells : List Cell) : render cells = (cleared cells).map Cell.shown := by
  induction cells with
  | nil => rfl
  | cons cell cells ih =>
    have hcell : cell.render = cell.cleared.map Cell.shown := by
      unfold Cell.render Cell.cleared
      split
      · rw [List.map_replicate]
        rfl
      · rfl
    rw [render_cons, cleared_cons, List.map_append, ih, hcell]

theorem takeWhile_render (p : Char → Bool) (cells : List Cell) :
    (render cells).takeWhile p = render (cells.takeWhile fun cell => p cell.shown) := by
  rw [render_eq_shown, render_eq_shown, List.takeWhile_map, ← takeWhile_cleared]
  rfl

theorem dropWhile_render (p : Char → Bool) (cells : List Cell) :
    (render cells).dropWhile p = render (cells.dropWhile fun cell => p cell.shown) := by
  rw [render_eq_shown, render_eq_shown, List.dropWhile_map, ← dropWhile_cleared]
  rfl

theorem render_of_unblank {cells : List Cell} (h : ∀ cell ∈ cells, cell.shown ≠ ' ') :
    render cells = cells.map Cell.shown := by
  induction cells with
  | nil => rfl
  | cons cell cells ih =>
    obtain ⟨hcell, hcells⟩ := List.forall_mem_cons.1 h
    rw [render_cons, ih hcells, Cell.render, if_neg hcell]
    rfl

/-- What lies between two cells is cut out of the masked text and of the source at one place. -/
theorem slice?_cells {front part back : List Cell}
    (h : ∀ cell ∈ front ++ part ++ back, cell.Sized) :
    (render (front ++ part ++ back)).slice? (sourceSize front) (sourceSize (front ++ part)) =
        some (render part) ∧
      (sourceOf (front ++ part ++ back)).slice? (sourceSize front) (sourceSize (front ++ part)) =
        some (sourceOf part) := by
  have hfront : ∀ cell ∈ front ++ part, cell.Sized :=
    fun cell hcell => h cell (List.mem_append_left back hcell)
  constructor
  · refine Text.slice?_eq_some_iff.2 ⟨render front, render back, ?_, ?_, ?_⟩
    · rw [render_append, render_append]
    · exact byteSize_render fun cell hcell => hfront cell (List.mem_append_left part hcell)
    · rw [← render_append, byteSize_render hfront]
  · refine Text.slice?_eq_some_iff.2 ⟨sourceOf front, sourceOf back, ?_, ?_, ?_⟩
    · rw [sourceOf_append, sourceOf_append]
    · exact byteSize_sourceOf front
    · rw [← sourceOf_append, byteSize_sourceOf]

theorem slice?_rest {front rest : List Cell} (h : ∀ cell ∈ front ++ rest, cell.Sized) :
    (render (front ++ rest)).slice? (sourceSize front) (render (front ++ rest)).byteSize =
      some (render rest) := by
  have hslice := (@slice?_cells front rest [] (by rwa [List.append_nil])).1
  rw [List.append_nil] at hslice
  rwa [byteSize_render h]

/-! ## Headers by their offsets -/

namespace Header

theorem firstWord_trim (text : Text) :
    firstWord (Text.trim text) = firstWord (Text.trimStart text) := by
  obtain ⟨visible, blanks, hsplit, hblanks, hend⟩ :=
    Text.exists_blanks_behind (Text.trimStart text)
  have htrim : Text.trim text = visible := by
    unfold Text.trim
    rw [hsplit]
    exact Text.dropEndWhile_append hblanks ((Option.any_eq_false _ _).1 hend)
  rw [htrim, hsplit, firstWord_append_blanks _ hblanks]

theorem render_wordCells (front : List Cell) :
    firstWord (render (cellsOf front)) = (wordCells front).map Cell.shown ∧
      render (wordCells front) = (wordCells front).map Cell.shown := by
  have hword := render_of_unblank fun cell => @shown_of_mem_wordCells front cell
  refine ⟨?_, hword⟩
  unfold firstWord
  rw [takeWhile_render, ← hword]
  rfl

theorem slice?_nameCells {front header back : List Cell}
    (hsized : ∀ cell ∈ front ++ header ++ back, cell.Sized) :
    (sourceOf (front ++ header ++ back)).slice?
      (sourceSize front + ((render header).byteSize - (render (cellsOf header)).byteSize) +
        byteSize ((wordCells header).map Cell.shown)) (sourceSize (front ++ header)) =
      some (sourceOf (nameCells header)) := by
  -- The blanks in front of a header and its first word are as long in the source as they are shown.
  obtain ⟨lead, hlead⟩ := cellsOf_suffix header
  have hsplit : front ++ lead ++ wordCells header ++ nameCells header = front ++ header := by
    rw [List.append_assoc (front ++ lead), wordCells_append_nameCells, List.append_assoc, hlead]
  have hsizedHeader : ∀ cell ∈ header, cell.Sized :=
    fun cell hcell => hsized cell (by simp [hcell])
  have hsizedCells : ∀ cell ∈ cellsOf header, cell.Sized :=
    fun cell hcell => hsizedHeader cell ((cellsOf_suffix header).subset hcell)
  have hword : byteSize ((wordCells header).map Cell.shown) = sourceSize (wordCells header) := by
    rw [← (render_wordCells header).2]
    refine byteSize_render fun cell hcell => hsizedCells cell ?_
    exact (List.takeWhile_prefix _).subset hcell
  have hoffset : sourceSize front +
      ((render header).byteSize - (render (cellsOf header)).byteSize) +
      byteSize ((wordCells header).map Cell.shown) =
        sourceSize (front ++ lead ++ wordCells header) := by
    have hsize := sourceSize_append lead (cellsOf header)
    rw [hlead] at hsize
    rw [byteSize_render hsizedHeader, byteSize_render hsizedCells, hword, hsize,
      Nat.add_sub_cancel, sourceSize_append, sourceSize_append]
  rw [← hsplit] at hsized ⊢
  rw [hoffset]
  exact (slice?_cells hsized).2

/-- A header is read from its cells, wherever they stand. -/
theorem read?_cells {front header back : List Cell}
    (hsized : ∀ cell ∈ front ++ header ++ back, cell.Sized)
    (hheader : ∀ cell ∈ header, cell.shown ≠ ';') {closing : Nat} :
    read? (render (front ++ header ++ back)) (sourceOf (front ++ header ++ back))
      ⟨sourceSize front, sourceSize (front ++ header), closing⟩ = some (ofFront header) := by
  have htrim : Text.trimStart (render header) = render (cellsOf header) := by
    unfold Text.trimStart
    rw [dropWhile_render, cellsOf_of_unbroken hheader]
  have hword : firstWord (Text.trim (render header)) = (wordCells header).map Cell.shown := by
    rw [firstWord_trim, htrim, (render_wordCells header).1]
  have hhead : (Text.trim (render header)).head? = some '@' ↔
      ((wordCells header).map Cell.shown).head? = some '@' := by
    rw [← hword, head?_firstWord_iff]
  unfold read?
  simp only [(slice?_cells hsized).1, htrim, hword, slice?_nameCells hsized,
    Option.bind_eq_bind, Option.bind_some]
  rw [ofFront_eq]
  by_cases hrule : ((wordCells header).map Cell.shown).head? = some '@'
  · simp only [hhead.2 hrule, hrule, if_true]
    split <;> rfl
  · simp only [hhead, hrule, if_false]
    rw [← htrim, Text.trim_trimStart]
    rfl

end Header

end ClassAudit.Css
