import ClassAudit.Proofs.Css.ClearedCells
/-!
# Sheets without their comments

A sheet whose comments are overwritten with blanks has the same masked text, so
its braces, its selectors and its faults are the same.  The name of a keyframes
rule is the one thing that is read from the source: it is the same if no
comment stands in it.
-/

namespace ClassAudit.Css

/-! ## Braces and headers without comments -/

theorem sourceSize_blanks (count : Nat) :
    sourceSize (List.replicate count (.plain ' ')) = count := by
  induction count with
  | zero => rfl
  | succ count ih =>
    rw [List.replicate_succ, sourceSize, ih]
    exact Nat.add_comm 1 count

theorem braceless_cleared {cell : Cell} (h : cell.shown = ' ') :
    ∀ other ∈ cell.cleared, other.shown ≠ '{' ∧ other.shown ≠ '}' := by
  intro other hother
  rw [Cell.shown_of_mem_cleared hother, h]
  decide

theorem matchBraces_cleared (opened : List Nat) (offset : Nat) (cells : List Cell) :
    matchBraces opened offset (cleared cells) = matchBraces opened offset cells := by
  induction cells generalizing opened offset with
  | nil => rfl
  | cons cell cells ih =>
    rw [cleared_cons]
    by_cases hshown : cell.shown = ' '
    · rw [matchBraces_balanced_append (.of_braceless (braceless_cleared hshown)), ih,
        Cell.cleared_of_eq hshown, sourceSize_blanks, matchBraces_cons, if_neg (by simp [hshown]),
        if_neg (by simp [hshown])]
    · rw [Cell.cleared_of_ne hshown, List.singleton_append, matchBraces_cons, matchBraces_cons]
      simp only [ih]

namespace Block

protected def cleared : Block → Block
  | done tail => done (Css.cleared tail)
  | rule front body next => rule (Css.cleared front) body.cleared next.cleared

protected def Suffix.cleared (suffix : Suffix) : Suffix :=
  ⟨suffix.block.cleared, suffix.outer.map Block.cleared⟩

theorem cleared_push (cell : Cell) (block : Block) :
    (block.push cell).cleared = block.cleared.prepend cell.cleared := by
  cases block with
  | done tail =>
    rw [Block.cleared, prepend_done]
    rfl
  | rule front body next =>
    rw [Block.cleared, prepend_rule]
    rfl

theorem foldr_push_cleared (cell : Cell) (suffix : Suffix) :
    cell.cleared.foldr Suffix.push suffix.cleared = (suffix.push cell).cleared := by
  by_cases hshown : cell.shown = ' '
  · rw [foldr_push_braceless (braceless_cleared hshown)]
    unfold Suffix.push
    rw [if_neg (by simp [hshown]), if_neg (by simp [hshown])]
    show _ = Suffix.mk (suffix.block.push cell).cleared _
    rw [cleared_push]
    rfl
  · have hpush : ∀ block : Block, (block.push cell).cleared = block.cleared.push cell := by
      intro block
      rw [cleared_push, Cell.cleared_of_ne hshown]
      rfl
    obtain ⟨block, outer⟩ := suffix
    rw [Cell.cleared_of_ne hshown]
    show Suffix.push cell (Suffix.mk block.cleared (outer.map Block.cleared)) = _
    unfold Suffix.push
    split
    · rfl
    · split
      · cases outer <;> rfl
      · show Suffix.mk (block.cleared.push cell) _ = Suffix.mk (block.push cell).cleared _
        rw [hpush]

theorem ofCells_cleared (cells : List Cell) :
    ofCells (Css.cleared cells) = (ofCells cells).cleared := by
  have hfold : ∀ cells : List Cell, (Css.cleared cells).foldr Suffix.push ⟨done [], []⟩ =
      (cells.foldr Suffix.push ⟨done [], []⟩).cleared := by
    intro cells
    induction cells with
    | nil => rfl
    | cons cell cells ih => rw [cleared_cons, List.foldr_append, ih, foldr_push_cleared]; rfl
  exact congrArg Suffix.block (hfold cells)

end Block

namespace Header

/-- The cells of the first word of a header. -/
def wordCells (front : List Cell) : List Cell :=
  (cellsOf front).takeWhile fun cell => !endsWord cell.shown

/-- The cells of a header behind its first word. -/
def nameCells (front : List Cell) : List Cell :=
  (cellsOf front).dropWhile fun cell => !endsWord cell.shown

theorem wordCells_append_nameCells (front : List Cell) :
    wordCells front ++ nameCells front = cellsOf front :=
  List.takeWhile_append_dropWhile

theorem shown_of_mem_wordCells {front : List Cell} {cell : Cell} (h : cell ∈ wordCells front) :
    cell.shown ≠ ' ' := by
  intro hblank
  have hends := List.mem_takeWhile_imp h
  rw [hblank] at hends
  exact absurd hends (by decide)

theorem cellsOf_cleared (front : List Cell) :
    cellsOf (cleared front) = cleared (cellsOf front) := by
  unfold cellsOf
  rw [reverse_cleared, takeWhile_cleared fun c => c ≠ ';', reverse_cleared,
    dropWhile_cleared Text.isBlank]

theorem nameCells_cleared (front : List Cell) :
    nameCells (cleared front) = cleared (nameCells front) := by
  unfold nameCells
  rw [cellsOf_cleared, dropWhile_cleared fun c => !endsWord c]

/-- The first word of a header has no blank in it, so it is not touched. -/
theorem wordCells_cleared (front : List Cell) : wordCells (cleared front) = wordCells front := by
  have hcleared : wordCells (cleared front) = cleared (wordCells front) := by
    unfold wordCells
    rw [cellsOf_cleared, takeWhile_cleared fun c => !endsWord c]
  rw [hcleared]
  apply cleared_eq_self
  intro cell hcell
  simp [Cell.isCommented, shown_of_mem_wordCells hcell]

/-- A header by its first word and the cells behind it. -/
theorem ofFront_eq (front : List Cell) :
    ofFront front =
      let word := (wordCells front).map Cell.shown
      if word.head? = some '@' then
        if keyframesWords.contains word then .keyframes (keyframesName (sourceOf (nameCells front)))
        else .grouping
      else .selectors (Text.trim (render (cellsOf front))) := by
  have hword : ((cellsOf front).map Cell.shown).takeWhile (fun c => !endsWord c) =
      (wordCells front).map Cell.shown := List.takeWhile_map
  have hdrop : (cellsOf front).drop (wordCells front).length = nameCells front := by
    rw [← wordCells_append_nameCells, List.drop_left]
  unfold ofFront
  simp only [hword, List.length_map, hdrop]

theorem eq_keyframesName {front : List Cell} {name : Text} (h : ofFront front = .keyframes name) :
    name = keyframesName (sourceOf (nameCells front)) := by
  rw [ofFront_eq] at h
  simp only at h
  split at h
  · split at h
    · exact (Header.keyframes.inj h).symm
    · cases h
  · cases h

/-- A header without its comments: the name of a keyframes rule is read without them. -/
theorem ofFront_cleared (front : List Cell) :
    ofFront (cleared front) =
      match ofFront front with
      | .keyframes _ => .keyframes (keyframesName (sourceOf (cleared (nameCells front))))
      | header => header := by
  rw [ofFront_eq (cleared front), ofFront_eq front, wordCells_cleared, nameCells_cleared,
    cellsOf_cleared, render_cleared]
  simp only
  split
  · split <;> rfl
  · rfl

end Header

/-! ## Names with comments -/

theorem count_cleared_le (cells : List Cell) :
    (sourceOf (cleared cells)).count '/' ≤ (sourceOf cells).count '/' := by
  induction cells with
  | nil => exact Nat.le_refl 0
  | cons cell cells ih =>
    have hcell : (sourceOf cell.cleared).count '/' ≤ [cell.source].count '/' := by
      unfold Cell.cleared
      split
      · simp [sourceOf, List.count_replicate, Cell.plain]
      · exact Nat.le_refl _
    rw [cleared_cons, sourceOf_append, List.count_append]
    show _ ≤ ([cell.source] ++ sourceOf cells).count '/'
    rw [List.count_append]
    exact Nat.add_le_add hcell ih

/-- A comment takes its slash along. -/
theorem count_cleared_lt {cells : List Cell} (h : OpensFirst cells) {cell : Cell}
    (hmem : cell ∈ cells) (hcell : cell.isCommented = true) :
    (sourceOf (cleared cells)).count '/' < (sourceOf cells).count '/' := by
  obtain ⟨slash, hslash, hcommented, hsource⟩ := h.exists_slash hmem hcell
  obtain ⟨front, back, rfl⟩ := List.append_of_mem hslash
  have hnone : (sourceOf slash.cleared).count '/' = 0 := by
    rw [Cell.cleared_of_eq (by simpa [Cell.isCommented, hsource] using hcommented)]
    simp [sourceOf, List.count_replicate, Cell.plain]
  have hsplit : sourceOf (front ++ slash :: back) = sourceOf front ++ '/' :: sourceOf back := by
    rw [sourceOf_append, ← hsource]
    rfl
  have hfront := count_cleared_le front
  have hback := count_cleared_le back
  rw [cleared_append, cleared_cons, sourceOf_append, sourceOf_append, hsplit, List.count_append,
    List.count_append, List.count_append, hnone, List.count_cons_self]
  omega

theorem count_dropWhile {drop : Char → Bool} {c : Char} (hc : drop c = false) (text : Text) :
    (text.dropWhile drop).count c = text.count c := by
  have hnone : (text.takeWhile drop).count c = 0 := by
    rw [List.count_eq_zero]
    intro hmem
    rw [List.mem_takeWhile_imp hmem] at hc
    exact absurd hc (by decide)
  have hsplit := congrArg (List.count c) (@List.takeWhile_append_dropWhile _ drop text)
  rw [List.count_append, hnone, Nat.zero_add] at hsplit
  exact hsplit

namespace Header

/-- The ends of a name are cut at blanks and quotes only. -/
theorem count_keyframesName (source : Text) :
    (keyframesName source).count '/' = source.count '/' := by
  unfold keyframesName Text.trim Text.trimStart Text.dropEndWhile
  simp only [List.count_reverse]
  rw [count_dropWhile (by decide), List.count_reverse, count_dropWhile (by decide),
    List.count_reverse, count_dropWhile (by decide), List.count_reverse,
    count_dropWhile (by decide)]

theorem cellsOf_suffix (front : List Cell) : cellsOf front <:+ front := by
  have hlast := (List.reverse_suffix.2
    (front.reverse.takeWhile_prefix fun cell => cell.shown ≠ ';'))
  rw [List.reverse_reverse] at hlast
  exact (List.dropWhile_suffix _).trans hlast

theorem opensFirst_nameCells {front : List Cell} (h : OpensComments front) {name : Text}
    (hheader : ofFront front = .keyframes name) : OpensFirst (nameCells front) := by
  rcases List.eq_nil_or_concat (wordCells front) with hword | ⟨init, last, hword⟩
  · rw [ofFront_eq, hword] at hheader
    cases hheader
  · have hlast : last.shown ≠ ' ' := shown_of_mem_wordCells (by rw [hword]; simp)
    have hcells := h.of_part (cellsOf_suffix front).isInfix
    rw [← wordCells_append_nameCells, hword, List.concat_eq_append, List.append_assoc] at hcells
    exact hcells.first_behind hlast

/-- Without its comments a name is read differently if there are any. -/
theorem keyframesName_cleared_iff {front : List Cell} (h : OpensComments front) {name : Text}
    (hheader : ofFront front = .keyframes name) :
    keyframesName (sourceOf (cleared (nameCells front))) =
        keyframesName (sourceOf (nameCells front)) ↔
      ∀ cell ∈ nameCells front, cell.isCommented = false := by
  constructor
  · intro hname cell hcell
    cases hcommented : cell.isCommented with
    | false => rfl
    | true =>
      -- The slash of the comment is counted in the name and is gone without it.
      have hless := count_cleared_lt (opensFirst_nameCells h hheader) hcell hcommented
      rw [← count_keyframesName, hname, count_keyframesName] at hless
      exact absurd hless (Nat.lt_irrefl _)
  · intro hnone
    rw [cleared_eq_self hnone]

end Header

namespace Block

/-- The cells of the names of the keyframes rules that are read. -/
def nameCells : Block → List (List Cell)
  | done _ => []
  | rule front body next =>
    (match Header.ofFront front with
      | .keyframes _ => [Header.nameCells front]
      | _ => body.nameCells) ++ next.nameCells

/-- What stands before the first brace. -/
def lead : Block → List Cell
  | done tail => tail
  | rule front _ _ => front

/-- Whatever stands before a brace of the block is a part of the cells. -/
def FrontsIn (cells : List Cell) : Block → Prop
  | done _ => True
  | rule front body next => front <:+: cells ∧ body.FrontsIn cells ∧ next.FrontsIn cells

theorem FrontsIn.cons {cells : List Cell} {block : Block} (h : block.FrontsIn cells)
    (cell : Cell) : block.FrontsIn (cell :: cells) := by
  induction block with
  | done tail => trivial
  | rule front body next ihbody ihnext =>
    exact ⟨h.1.trans (List.suffix_cons cell cells).isInfix, ihbody h.2.1, ihnext h.2.2⟩

/-- The blocks read so far come from the cells. -/
structure Suffix.From (cells : List Cell) (suffix : Suffix) : Prop where
  lead : suffix.block.lead <+: cells
  block : suffix.block.FrontsIn cells
  outer : ∀ block ∈ suffix.outer, block.FrontsIn cells

theorem Suffix.From.push {cells : List Cell} {suffix : Suffix} (h : suffix.From cells)
    (cell : Cell) : (suffix.push cell).From (cell :: cells) := by
  obtain ⟨block, outer⟩ := suffix
  have hblock := h.block.cons cell
  have houter : ∀ other ∈ outer, other.FrontsIn (cell :: cells) :=
    fun other hother => (h.outer other hother).cons cell
  unfold Suffix.push
  split
  · exact ⟨List.nil_prefix, trivial, List.forall_mem_cons.2 ⟨hblock, houter⟩⟩
  · split
    · cases outer with
      | nil => exact ⟨List.nil_prefix, ⟨List.nil_infix, hblock, trivial⟩, houter⟩
      | cons next outer =>
        obtain ⟨hnext, houter⟩ := List.forall_mem_cons.1 houter
        exact ⟨List.nil_prefix, ⟨List.nil_infix, hblock, hnext⟩, houter⟩
    · have hlead := (List.prefix_cons_inj cell).2 h.lead
      cases block with
      | done tail => exact ⟨hlead, trivial, houter⟩
      | rule front body next =>
        exact ⟨hlead, ⟨hlead.isInfix, hblock.2⟩, houter⟩

theorem frontsIn_ofCells (cells : List Cell) : (ofCells cells).FrontsIn cells := by
  have hfold : ∀ cells : List Cell, (cells.foldr Suffix.push ⟨done [], []⟩).From cells := by
    intro cells
    induction cells with
    | nil => exact ⟨List.nil_prefix, trivial, List.forall_mem_nil _⟩
    | cons cell cells ih => exact ih.push cell
  exact (hfold cells).block

theorem exists_front_of_mem_nameCells {cells : List Cell} {block : Block}
    (h : block.FrontsIn cells) {name : List Cell} (hname : name ∈ block.nameCells) :
    ∃ front, front <:+: cells ∧ name = Header.nameCells front ∧
      ∃ text, Header.ofFront front = .keyframes text := by
  induction block with
  | done tail => cases hname
  | rule front body next ihbody ihnext =>
    rw [nameCells] at hname
    rcases List.mem_append.1 hname with hname | hname
    · cases hheader : Header.ofFront front with
      | keyframes text =>
        rw [hheader] at hname
        exact ⟨front, h.1, List.mem_singleton.1 hname, text, hheader⟩
      | grouping =>
        rw [hheader] at hname
        exact ihbody h.2.1 hname
      | selectors list =>
        rw [hheader] at hname
        exact ihbody h.2.1 hname
    · exact ihnext h.2.2 hname

end Block

/-! ## What a sheet holds without its comments -/

def Finding.isKeyframes : Finding → Bool
  | keyframes _ => true
  | _ => false

namespace Block

/-- Comments change the names of keyframes at most. -/
theorem filter_findings_cleared (block : Block) :
    block.cleared.findings.filter (fun finding => !finding.isKeyframes) =
      block.findings.filter fun finding => !finding.isKeyframes := by
  induction block with
  | done tail => rfl
  | rule front body next ihbody ihnext =>
    rw [Block.cleared, findings, findings, List.filter_append, List.filter_append, ihnext,
      Header.ofFront_cleared]
    have hnames : ∀ name : Text, (if name.isEmpty then [] else [Finding.keyframes name]).filter
        (fun finding => !finding.isKeyframes) = [] := by
      intro name
      split <;> rfl
    cases hheader : Header.ofFront front with
    | keyframes name =>
      simp only
      rw [hnames, hnames]
    | grouping =>
      simp only
      rw [ihbody]
    | selectors list =>
      simp only
      rw [List.filter_append, List.filter_append, ihbody]

theorem findings_cleared {block : Block}
    (h : ∀ name ∈ block.nameCells, ∀ cell ∈ name, cell.isCommented = false) :
    block.cleared.findings = block.findings := by
  induction block with
  | done tail => rfl
  | rule front body next ihbody ihnext =>
    rw [nameCells] at h
    obtain ⟨hfront, hnext⟩ := List.forall_mem_append.1 h
    rw [Block.cleared, findings, findings, ihnext hnext, Header.ofFront_cleared]
    cases hheader : Header.ofFront front with
    | keyframes name =>
      rw [hheader] at hfront
      simp only
      rw [cleared_eq_self (hfront _ List.mem_cons_self), Header.eq_keyframesName hheader]
    | grouping =>
      rw [hheader] at hfront
      simp only
      rw [ihbody hfront]
    | selectors list =>
      rw [hheader] at hfront
      simp only
      rw [ihbody hfront]

end Block

namespace Stylesheet

theorem ofFindings_congr {findings others : List Finding}
    (h : findings.filter (fun finding => !finding.isKeyframes) =
      others.filter fun finding => !finding.isKeyframes) :
    (ofFindings findings).classes = (ofFindings others).classes ∧
      (ofFindings findings).skipped = (ofFindings others).skipped := by
  have hread : ∀ {α : Type} (read : Finding → Option α), (∀ name, read (.keyframes name) = none) →
      findings.filterMap read = others.filterMap read := by
    intro α read hread
    have hfilter : ∀ list : List Finding,
        (list.filter fun finding => !finding.isKeyframes).filterMap read = list.filterMap read := by
      intro list
      rw [List.filterMap_filter]
      congr 1
      funext finding
      cases finding with
      | className name => rfl
      | keyframes name => exact (hread name).symm
      | skipped fault => rfl
    rw [← hfilter findings, h, hfilter]
  exact ⟨congrArg NameSet.ofList (hread _ fun _ => rfl), hread _ fun _ => rfl⟩

/-- Without its comments a sheet has the same fault, or defines the same classes and skips the same
selectors.  The name of a keyframes rule is the same if no comment stands in it, and only then: a
sheet without such comments is read as if it had none. -/
theorem parse_uncommented {css : Text} {cells : List Cell} (h : mask css = .ok cells) :
    ((parse (uncommented css)).map fun sheet => (sheet.classes, sheet.skipped)) =
        (parse css).map (fun sheet => (sheet.classes, sheet.skipped)) ∧
      (∀ name ∈ (Block.ofCells cells).nameCells,
        Header.keyframesName (sourceOf (cleared name)) = Header.keyframesName (sourceOf name) ↔
          ∀ cell ∈ name, cell.isCommented = false) ∧
      ((∀ name ∈ (Block.ofCells cells).nameCells, ∀ cell ∈ name, cell.isCommented = false) →
        parse (uncommented css) = parse css) := by
  have hbare : parse (uncommented css) = (matchBraces [] 0 cells).map
      fun _ => ofFindings (Block.ofCells cells).cleared.findings := by
    rw [parse_of_mask (mask_uncommented h), matchBraces_cleared, Block.ofCells_cleared]
  rw [hbare, parse_of_mask h]
  refine ⟨?_, ?_, ?_⟩
  · obtain ⟨hclasses, hskipped⟩ :=
      ofFindings_congr (Block.filter_findings_cleared (Block.ofCells cells))
    cases matchBraces [] 0 cells with
    | error fault => rfl
    | ok _ => exact congrArg Except.ok (Prod.ext hclasses hskipped)
  · intro name hname
    obtain ⟨front, hfront, rfl, text, hheader⟩ :=
      Block.exists_front_of_mem_nameCells (Block.frontsIn_ofCells cells) hname
    exact Header.keyframesName_cleared_iff ((opensComments_of_mask h).of_part hfront) hheader
  · intro hnone
    rw [Block.findings_cleared hnone]

/-- A sheet with comments around every part of a rule but the name of its keyframes. -/
def remarkedSheet : Text :=
  "/*\x7b*/.a/*.b*/,.c\x7b/*é*/\x7d@keyframes '/**/'\x7b\x7d".toList

theorem parse_uncommented_remarkedSheet :
    mask remarkedSheet = .ok ((lexemes remarkedSheet).flatMap Lexeme.cells) ∧
      parse (uncommented remarkedSheet) = parse remarkedSheet ∧
      (parse remarkedSheet).map (fun sheet => (sheet.classes.toList, sheet.keyframes.toList)) =
        .ok ([['a'], ['c']], ["/**/".toList]) := by
  have hmask : mask remarkedSheet =
      .ok ((lexemes remarkedSheet).flatMap Lexeme.cells) := by decide +kernel
  refine ⟨hmask, (parse_uncommented hmask).2.2 ?_, ?_⟩
  · decide +kernel
  · decide +kernel

/-- A comment in front of the name of keyframes becomes a part of the name. -/
theorem parse_commented_keyframes :
    let css := "@keyframes /* c */ spin\x7b\x7d".toList
    mask css = .ok ((lexemes css).flatMap Lexeme.cells) ∧
      (parse css).map (·.keyframes.toList) = .ok ["/* c */ spin".toList] ∧
      (parse (uncommented css)).map (·.keyframes.toList) = .ok ["spin".toList] := by
  decide +kernel

end Stylesheet

end ClassAudit.Css
