import ClassAudit.Proofs.Css.EscapedNames
import ClassAudit.Proofs.Css.Lexemes
import ClassAudit.Proofs.Css.RuleTree
/-!
# Sheets put together

A sheet behind another one, and a sheet as the body of a rule.  The masker, the
check of braces and the reader of blocks are each back at their start where one
text ends and the next begins, so what the whole holds is what its parts hold.
This needs no restriction on the texts beside that they are read on their own:
they may hold comments, strings and escapes, and even end in a backslash.
-/

namespace ClassAudit.Css

open Text (byteSize)

/-! ## Masking across a seam -/

/-- Nothing that is open at the end of a text changes how the next one starts: a backslash takes
only a character that would start nothing, and no comment opens. -/
def Seamless (front rest : Text) : Prop :=
  ∀ c ∈ front.getLast?, ∀ d ∈ rest.head?, (c = '\\' → d ∉ maskedStarts) ∧ (c = '/' → d ≠ '*')

theorem Seamless.behind {read front rest : Text} (h : Seamless (read ++ front) rest) :
    Seamless front rest := by
  intro c hc
  apply h c
  rw [List.getLast?_append, hc]
  rfl

theorem seamless_of_first {front rest : Text} {d : Char} (hmask : d ∉ maskedStarts)
    (hstar : d ≠ '*') : Seamless front (d :: rest) := by
  rintro c - e ⟨⟩
  exact ⟨fun _ => hmask, fun _ => hstar⟩

theorem seamless_of_last {front rest : Text} {c : Char} (hlast : front.getLast? = some c)
    (hescape : c ≠ '\\') (hslash : c ≠ '/') : Seamless front rest := by
  intro d hd e _
  obtain rfl : c = d := Option.some.inj (hlast.symm.trans hd)
  exact ⟨fun h => absurd h hescape, fun h => absurd h hslash⟩

/-- The same place in a sheet, for a comment or string that starts at another byte. -/
def MaskMode.startingAt (start : Nat) : MaskMode → MaskMode
  | sheet => sheet
  | comment _ => comment start
  | string _ quote => string start quote

/-- The last character of a text is masked as it would be alone, also a backslash or a slash. -/
theorem maskFrom_last {c : Char} {rest : Text} {later : List Cell}
    (hquote : ¬(c = '"' ∨ c = '\'')) (hseam : Seamless [c] rest)
    (hrest : ∀ start, maskFrom .sheet start rest = .ok later) (start : Nat) :
    maskFrom .sheet start (c :: rest) = .ok (.plain c :: later) := by
  by_cases hescape : c = '\\' → rest = []
  · have hcomment : c = '/' → rest.head? ≠ some '*' := by
      intro hc hhead
      exact (hseam c rfl '*' hhead).2 hc rfl
    have hstep : MaskStep .sheet start [c] rest [.plain c] .sheet :=
      .plain c hquote hescape hcomment
    have hread := hstep.maskFrom_eq
    rw [hrest] at hread
    exact hread
  · obtain ⟨rfl, hne⟩ := Classical.not_imp.1 hescape
    obtain ⟨d, rest, rfl⟩ := List.exists_cons_of_ne_nil hne
    have hd := (hseam '\\' rfl d rfl).1 rfl
    simp only [maskedStarts, List.mem_cons, not_or] at hd
    -- The backslash takes the next character, which would have been masked alike without it.
    have hplain : MaskStep .sheet (start + 1) [d] rest [.plain d] .sheet :=
      .plain d (by simp [hd]) (fun h => absurd h hd.2.2.1) fun h => absurd h hd.2.2.2.1
    have hlater := hplain.maskFrom_eq.symm.trans (hrest (start + 1))
    have hread : maskFrom .sheet start ('\\' :: d :: rest) =
        (maskFrom .sheet (start + (1 + byteSize [d])) rest).map
          ([.plain '\\', .plain d] ++ ·) := (MaskStep.escape d).maskFrom_eq
    obtain ⟨masked, hmasked, rfl⟩ := exists_of_map_eq_ok hlater
    rw [Nat.add_assoc] at hmasked
    rw [hread, hmasked]
    rfl

/-- A step that reads a text alone is taken when something follows the seam, too. -/
theorem MaskStep.maskFrom_append {mode next : MaskMode} {offset : Nat} {read front rest : Text}
    {cells masked later : List Cell} (h : MaskStep mode offset read front cells next)
    (hmode : mode.Quoted) (hmasked : Masks next (offset + byteSize read) front masked)
    (hrest : ∀ start, maskFrom .sheet start rest = .ok later)
    (hseam : Seamless (read ++ front) rest) (byte start : Nat) :
    ∃ opened, maskFrom (mode.startingAt byte) start (read ++ (front ++ rest)) =
      (maskFrom (next.startingAt opened) (start + byteSize read) (front ++ rest)).map
        (cells ++ ·) := by
  cases h with
  | escape c => exact ⟨byte, (MaskStep.escape c).maskFrom_eq⟩
  | openComment => exact ⟨start, MaskStep.openComment.maskFrom_eq⟩
  | openString quote hquote => exact ⟨start, (MaskStep.openString quote hquote).maskFrom_eq⟩
  | plain c hquote hescape hcomment =>
    refine ⟨byte, ?_⟩
    cases front with
    | nil =>
      refine (maskFrom_last hquote hseam hrest start).trans ?_
      show _ = (maskFrom .sheet _ rest).map _
      rw [hrest]
      rfl
    | cons d front =>
      have hnext : c = '\\' → d :: front ++ rest = [] := fun hc => absurd (hescape hc) (by simp)
      exact (MaskStep.plain c hquote hnext hcomment).maskFrom_eq
  | closeComment => exact ⟨byte, MaskStep.closeComment.maskFrom_eq⟩
  | comment c hend =>
    obtain ⟨d, front, rfl⟩ := List.exists_cons_of_ne_nil (hmasked.text_ne_nil (by rintro ⟨⟩))
    have hnext : c = '*' → (d :: front ++ rest).head? ≠ some '/' := hend
    exact ⟨byte, (MaskStep.comment c hnext).maskFrom_eq⟩
  | escapeInString c => exact ⟨byte, (MaskStep.escapeInString c).maskFrom_eq⟩
  | closeString quote hescape hbreak =>
    have hplain : quote ≠ '\\' := by
      rcases hmode _ quote rfl with rfl | rfl
      all_goals decide
    exact ⟨byte, (MaskStep.closeString quote (fun hc => absurd hc hplain) hbreak).maskFrom_eq⟩
  | string c hescape hbreak hquote =>
    have hnext : c ≠ '\\' := fun hc => hmasked.text_ne_nil (by rintro ⟨⟩) (hescape hc)
    exact ⟨byte, (MaskStep.string c (fun hc => absurd hc hnext) hbreak hquote).maskFrom_eq⟩

/-- A text is masked as it would be alone, whatever its offset and whatever follows the seam. -/
theorem Masks.maskFrom_append {mode : MaskMode} {offset : Nat} {front rest : Text}
    {cells later : List Cell} (h : Masks mode offset front cells) (hmode : mode.Quoted)
    (hrest : ∀ start, maskFrom .sheet start rest = .ok later) (hseam : Seamless front rest)
    (byte start : Nat) :
    maskFrom (mode.startingAt byte) start (front ++ rest) = .ok (cells ++ later) := by
  induction h generalizing byte start with
  | done => exact hrest start
  | step hstep hmasked ih =>
    obtain ⟨opened, hread⟩ := hstep.maskFrom_append hmode hmasked hrest hseam byte start
    rw [List.append_assoc, hread, ih (hstep.quoted hmode) hseam.behind, List.append_assoc]
    rfl

theorem maskFrom_append {offset : Nat} {front rest : Text} {cells later : List Cell}
    (h : maskFrom .sheet offset front = .ok cells)
    (hrest : ∀ start, maskFrom .sheet start rest = .ok later) (hseam : Seamless front rest)
    (start : Nat) : maskFrom .sheet start (front ++ rest) = .ok (cells ++ later) :=
  (masks_iff.2 h).maskFrom_append MaskMode.quoted_sheet hrest hseam 0 start

/-- How the text of a sheet is masked, wherever it stands in a larger one. -/
structure MaskedAs (css : Text) (cells : List Cell) : Prop where
  masked : ∀ start, maskFrom .sheet start css = .ok cells
  balanced : Balanced Cell.shown cells

namespace MaskedAs

variable {front rest : Text} {cells later : List Cell}

theorem of_mask (h : mask front = .ok cells) (hbalanced : Balanced Cell.shown cells) :
    MaskedAs front cells where
  masked := by
    intro start
    have hseam : Seamless front [] := by rintro c - d ⟨⟩
    have hall := maskFrom_append h (fun _ => masks_iff.1 (.done _)) hseam start
    rwa [List.append_nil, List.append_nil] at hall
  balanced := hbalanced

theorem append (hfront : MaskedAs front cells) (hrest : MaskedAs rest later)
    (hseam : Seamless front rest) : MaskedAs (front ++ rest) (cells ++ later) where
  masked := maskFrom_append (hfront.masked 0) hrest.masked hseam
  balanced := hfront.balanced.append hrest.balanced

/-- A sheet in braces behind a plain header. -/
theorem headed {header : Text} (hheader : IsInline header) (hrest : MaskedAs rest later) :
    MaskedAs (header ++ '{' :: (rest ++ ['}']))
      (plainCells header ++ .plain '{' :: (later ++ [.plain '}'])) where
  masked := by
    intro start
    have hopening : Plain (header ++ ['{']) :=
      hheader.plain.append (by decide) (by decide)
    have hclosed : ∀ start, maskFrom .sheet start (rest ++ ['}']) = .ok (later ++ [.plain '}']) :=
      maskFrom_append (hrest.masked 0) (maskFrom_plain (by decide))
        (seamless_of_first (by decide) (by decide))
    have hall := maskFrom_append (maskFrom_plain hopening 0) hclosed
      (seamless_of_last List.getLast?_concat (by decide) (by decide)) start
    rwa [List.append_assoc, plainCells_append, List.append_assoc] at hall
  balanced := by
    have hcells : Balanced Cell.shown (plainCells header) :=
      balanced_plainCells (.of_braceless fun c hc =>
        ⟨(hheader.flat c hc).1, (hheader.flat c hc).2.1⟩)
    exact hcells.append (.block rfl rfl hrest.balanced .nil)

end MaskedAs

namespace Stylesheet

theorem parse_eq_ok_iff {css : Text} {sheet : Stylesheet} :
    parse css = .ok sheet ↔
      ∃ cells, MaskedAs css cells ∧ ofFindings (Block.ofCells cells).findings = sheet := by
  constructor
  · intro h
    cases hmask : mask css with
    | error fault =>
      unfold parse at h
      rw [hmask] at h
      cases h
    | ok cells =>
      rw [parse_of_mask hmask] at h
      obtain ⟨_, hbraces, hsheet⟩ := exists_of_map_eq_ok h
      exact ⟨cells, .of_mask hmask (matchBraces_eq_ok_iff.1 hbraces), hsheet⟩
  · rintro ⟨cells, hcells, rfl⟩
    rw [parse_of_mask (hcells.masked 0), matchBraces_balanced hcells.balanced]
    rfl

end Stylesheet

/-! ## Blocks across a seam -/

/-- A closing brace at the end of a sheet stands neither in a comment nor in a string. -/
theorem getLast?_of_mask {css : Text} {cells : List Cell} (h : mask css = .ok cells)
    (hlast : css.getLast? = some '}') : cells.getLast? = some (.plain '}') := by
  obtain ⟨hformed, hsource, -⟩ := lexemes_spec (congrArg (Except.map render) h)
  rw [cells_of_mask h]
  rw [hsource] at hlast
  rcases List.eq_nil_or_concat (lexemes css) with hnil | ⟨front, lexeme, hfront⟩
  · rw [hnil] at hlast
    cases hlast
  · rw [hfront, List.concat_eq_append] at hformed hlast ⊢
    rw [List.flatMap_append, List.flatMap_singleton] at hlast ⊢
    cases lexeme with
    | char c =>
      obtain rfl : c = '}' := by simpa [Lexeme.source] using hlast
      exact List.getLast?_concat
    | comment content => simp [Lexeme.source, List.getLast?_cons] at hlast
    | string quote content =>
      obtain ⟨hquote, -⟩ := hformed (.string quote content) (by simp)
      obtain rfl : quote = '}' := by simpa [Lexeme.source, List.getLast?_cons] using hlast
      exact absurd hquote (by decide)

namespace Block

theorem prepend_ofCells_cons {cell : Cell} (hopen : cell.shown ≠ '{') (hclose : cell.shown ≠ '}')
    (lead cells : List Cell) :
    (ofCells (cell :: cells)).prepend lead = (ofCells cells).prepend (lead ++ [cell]) := by
  have hcell : ∀ other ∈ [cell], other.shown ≠ '{' ∧ other.shown ≠ '}' := by
    simp [hopen, hclose]
  rw [← List.singleton_append, ofCells_braceless_append hcell]
  unfold prepend
  rw [List.foldr_append]

/-- Behind the brace that closes a rule a new one starts. -/
theorem findings_append {cells : List Cell} (h : Balanced Cell.shown cells)
    (hlast : cells.getLast? = some (.plain '}')) (lead later : List Cell) :
    ((ofCells (cells ++ later)).prepend lead).findings =
      ((ofCells cells).prepend lead).findings ++ (ofCells later).findings := by
  induction h generalizing lead with
  | nil => cases hlast
  | @other cell rest hopen hclose _ ih =>
    have hrest : rest.getLast? = some (.plain '}') := by
      rw [List.getLast?_cons] at hlast
      cases hend : rest.getLast? with
      | none =>
        rw [hend] at hlast
        exact absurd (congrArg Cell.shown (Option.some.inj hlast)) hclose
      | some last => rwa [hend] at hlast
    rw [List.cons_append, prepend_ofCells_cons hopen hclose, prepend_ofCells_cons hopen hclose,
      ih hrest]
  | @block opening closing body rest hopen hclose hbody _ _ ih =>
    have hnext : (ofCells (rest ++ later)).findings =
        (ofCells rest).findings ++ (ofCells later).findings := by
      cases hend : rest.getLast? with
      | none =>
        rw [List.getLast?_eq_none_iff.1 hend]
        rfl
      | some last =>
        apply ih _ []
        rw [← hlast, List.getLast?_append, List.getLast?_cons, hend]
        rfl
    have hsplit : opening :: body ++ closing :: rest ++ later =
        opening :: body ++ closing :: (rest ++ later) := by simp
    rw [hsplit, ofCells_block hopen hclose hbody, ofCells_block hopen hclose hbody, prepend_rule,
      prepend_rule, findings, findings, hnext, List.append_assoc]

/-- The tree of a sheet in braces behind a plain header. -/
theorem ofCells_wrapped {header : Text} (hheader : IsInline header) {cells : List Cell}
    (h : Balanced Cell.shown cells) :
    ofCells (plainCells header ++ .plain '{' :: (cells ++ [.plain '}'])) =
      rule (plainCells header) (ofCells cells) (done []) := by
  have hbraceless : ∀ cell ∈ plainCells header, cell.shown ≠ '{' ∧ cell.shown ≠ '}' := by
    intro cell hcell
    obtain ⟨c, hc, rfl⟩ := mem_plainCells.1 hcell
    exact ⟨(hheader.flat c hc).1, (hheader.flat c hc).2.1⟩
  rw [ofCells_braceless_append hbraceless, ← List.cons_append, ofCells_block rfl rfl h,
    prepend_rule, List.append_nil]
  rfl

end Block

/-! ## What the whole holds -/

/-- The names that a class selector has without an escape: made of name characters, and neither a
number nor a lone hyphen. -/
structure IsClassName (name : Text) : Prop extends IsIdentifier name where
  hyphen : name ≠ ['-']
  digit : ∀ c rest, name = c :: rest → c.isDigit = false
  hyphenDigit : ∀ c rest, name = '-' :: c :: rest → c.isDigit = false

namespace IsClassName

variable {name : Text}

theorem startsWell (h : IsClassName name) :
    Selector.startsWell (name.map (·, false)) = true := by
  match name, h with
  | [], h => exact absurd rfl h.nonempty
  | [c], h =>
    have hc : c ≠ '-' := fun hc => h.hyphen (by rw [hc])
    simp [Selector.startsWell, hc, h.digit c [] rfl]
  | c :: d :: rest, h =>
    by_cases hc : c = '-'
    · subst hc
      simp [Selector.startsWell, h.hyphenDigit d rest rfl]
    · simp [Selector.startsWell, hc, h.digit c (d :: rest) rfl]

theorem classes (h : IsClassName name) : Selector.classes ('.' :: name) = .ok [name] := by
  have hreadable : ∀ part ∈ name.map (·, Spelling.verbatim), Readable part := by
    intro part hpart
    obtain ⟨c, hc, rfl⟩ := List.mem_map.1 hpart
    exact h.nameChars c hc
  have hspell : spell (name.map (·, Spelling.verbatim)) = name := by
    simp [spell, Spelling.write, List.flatMap_map]
  have hchars : Selector.nameChars (name.map (·, Spelling.verbatim)) = name.map (·, false) := by
    simp [Selector.nameChars]
  have hread := Selector.readName?_spell hreadable []
  rw [hspell, hchars, List.append_nil, Selector.readName?, Option.map_some,
    List.append_nil] at hread
  rw [Selector.classes_dot hread, if_pos h.startsWell, List.map_map]
  exact congrArg (fun text => Except.ok [text]) (List.map_id name)

theorem ne_of_mem_dot (h : IsClassName name) {c d : Char} (hc : c ∈ '.' :: name)
    (hd : Selector.isNameChar d = false ∧ d ≠ '.') : c ≠ d := by
  rcases List.mem_cons.1 hc with rfl | hc
  · exact Ne.symm hd.2
  · exact h.ne_of_mem hc hd.1

theorem isSelector (h : IsClassName name) : IsSelector ('.' :: name) where
  toIsInline := by
    have hmarks : ∀ d ∈ ruleChars, Selector.isNameChar d = false ∧ d ≠ '.' := by decide
    have hinline : IsInline ('.' :: name ++ []) :=
      .append_of_inert (fun c hc hmark => h.ne_of_mem_dot hc (hmarks c hmark) rfl) .nil
    rwa [List.append_nil] at hinline
  nonempty := by simp
  starts := rfl
  ends := Text.endsBlank_append h.nonempty h.ends ['.']
  notAtRule := by simp
  closed := by
    apply nestingBehind_inert
    intro c hc
    exact ⟨⟨h.ne_of_mem_dot hc (by decide), h.ne_of_mem_dot hc (by decide)⟩,
      h.ne_of_mem_dot hc (by decide), h.ne_of_mem_dot hc (by decide)⟩
  commas := by
    intro i _ hcomma
    exact absurd rfl (h.ne_of_mem_dot (List.mem_of_getElem? hcomma) (by decide))

theorem findings (h : IsClassName name) : listFindings ('.' :: name) = [.className name] := by
  rw [(Joined.single ('.' :: name)).listFindings_eq (by simpa using h.isSelector)]
  simp only [List.flatMap_singleton, selectorFindings, h.classes, List.map_cons, List.map_nil]

end IsClassName

namespace Stylesheet

/-- What two sheets hold, one after the other. -/
def join (first second : Stylesheet) : Stylesheet where
  classes := first.classes ∪ second.classes
  keyframes := first.keyframes ∪ second.keyframes
  skipped := first.skipped ++ second.skipped

theorem ofFindings_append (front rest : List Finding) :
    ofFindings (front ++ rest) = (ofFindings front).join (ofFindings rest) := by
  unfold ofFindings join
  simp only [List.filterMap_append, NameSet.ofList_append]

theorem parse_append {front rest : Text} {first second : Stylesheet}
    (hfront : parse front = .ok first) (hend : front.getLast? = some '}')
    (hrest : parse rest = .ok second) : parse (front ++ rest) = .ok (first.join second) := by
  obtain ⟨cells, hcells, rfl⟩ := parse_eq_ok_iff.1 hfront
  obtain ⟨later, hlater, rfl⟩ := parse_eq_ok_iff.1 hrest
  have hseam : Seamless front rest := seamless_of_last hend (by decide) (by decide)
  refine parse_eq_ok_iff.2 ⟨cells ++ later, hcells.append hlater hseam, ?_⟩
  have hfindings := Block.findings_append hcells.balanced
    (getLast?_of_mask (hcells.masked 0) hend) [] later
  rw [← ofFindings_append]
  exact congrArg ofFindings hfindings

theorem parse_grouping {header rest : Text} {sheet : Stylesheet} (hheader : IsInline header)
    (hgrouping : Header.ofFront (plainCells header) = .grouping) (hrest : parse rest = .ok sheet) :
    parse (header ++ '{' :: (rest ++ ['}'])) = .ok sheet := by
  obtain ⟨cells, hcells, rfl⟩ := parse_eq_ok_iff.1 hrest
  refine parse_eq_ok_iff.2 ⟨_, hcells.headed hheader, ?_⟩
  rw [Block.ofCells_wrapped hheader hcells.balanced, Block.findings, Block.findings, hgrouping,
    List.append_nil]

theorem parse_style {header list rest : Text} {sheet : Stylesheet} (hheader : IsInline header)
    (hlist : Header.ofFront (plainCells header) = .selectors list)
    (hrest : parse rest = .ok sheet) :
    parse (header ++ '{' :: (rest ++ ['}'])) =
      .ok ((ofFindings (listFindings list)).join sheet) := by
  obtain ⟨cells, hcells, rfl⟩ := parse_eq_ok_iff.1 hrest
  refine parse_eq_ok_iff.2 ⟨_, hcells.headed hheader, ?_⟩
  rw [Block.ofCells_wrapped hheader hcells.balanced, Block.findings, Block.findings, hlist,
    List.append_nil, ofFindings_append]

theorem parse_mediaAll {rest : Text} {sheet : Stylesheet} (hrest : parse rest = .ok sheet) :
    parse ("@media all \x7b".toList ++ rest ++ ['}']) = .ok sheet := by
  have hheader : IsInline "@media all ".toList := by decide
  have hgrouping : Header.ofFront (plainCells "@media all ".toList) = .grouping := by decide
  have hall := parse_grouping hheader hgrouping hrest
  rwa [show "@media all ".toList ++ '{' :: (rest ++ ['}']) =
    "@media all \x7b".toList ++ rest ++ ['}'] by simp] at hall

theorem parse_classRule {name rest : Text} {sheet : Stylesheet} (hname : IsClassName name)
    (hrest : parse rest = .ok sheet) :
    parse ('.' :: name ++ " \x7b".toList ++ rest ++ ['}']) =
      .ok { sheet with classes := sheet.classes.insert name } := by
  have hselector : ∀ selector ∈ ['.' :: name], IsSelector selector := by
    simpa using hname.isSelector
  have hblank : ∀ c ∈ [' '], Text.isBlank c := by decide
  have hheader : IsInline ('.' :: name ++ [' ']) :=
    hname.isSelector.toIsInline.append_blanks hblank
  have hlist := Header.ofFront_selectorList (.single ('.' :: name)) hselector hblank
  have hall := parse_style hheader hlist hrest
  have hjoin : (ofFindings (listFindings ('.' :: name))).join sheet =
      { sheet with classes := sheet.classes.insert name } := by
    rw [hname.findings]
    unfold join
    congr 1
    · ext other
      simp
    · ext other
      simp
  rw [hjoin] at hall
  simpa using hall

/-- A sheet behind one that ends in a closing brace adds what it holds alone, and so does a sheet
as the body of a grouping rule or of a style rule, whose class comes with it. -/
theorem parse_joined_and_nested {rest : Text} {sheet : Stylesheet}
    (hrest : parse rest = .ok sheet) :
    (∀ front first, parse front = .ok first → front.getLast? = some '}' →
        parse (front ++ rest) = .ok (first.join sheet)) ∧
      parse ("@media all \x7b".toList ++ rest ++ ['}']) = .ok sheet ∧
      ∀ name, IsClassName name → parse ('.' :: name ++ " \x7b".toList ++ rest ++ ['}']) =
        .ok { sheet with classes := sheet.classes.insert name } :=
  ⟨fun _ _ hfront hend => parse_append hfront hend hrest, parse_mediaAll hrest,
    fun _ hname => parse_classRule hname hrest⟩

/-- A sheet with a closing brace in a string. -/
def quotedSheet : Text := ".a\x7bcontent:\"\x7d\"\x7d".toList

/-- A sheet with keyframes, a selector without a reading and a closing brace in a comment, which
ends in a backslash. -/
def danglingSheet : Text := "@keyframes 'k'\x7b\x7d .\x7b\x7d/* \x7d */\\".toList

theorem parse_joined_and_nested_danglingSheet :
    parse (quotedSheet ++ danglingSheet) =
        .ok ⟨.ofList ["a".toList], .ofList ["k".toList], [.invalidSelector ['.'] .badName]⟩ ∧
      parse ("@media all \x7b".toList ++ danglingSheet ++ ['}']) =
        .ok ⟨∅, .ofList ["k".toList], [.invalidSelector ['.'] .badName]⟩ ∧
      parse ('.' :: ['b'] ++ " \x7b".toList ++ danglingSheet ++ ['}']) =
        .ok ⟨.ofList ["b".toList], .ofList ["k".toList], [.invalidSelector ['.'] .badName]⟩ := by
  have hquoted : parse quotedSheet = .ok ⟨.ofList ["a".toList], ∅, []⟩ := by decide +kernel
  have hdangling : parse danglingSheet =
      .ok ⟨∅, .ofList ["k".toList], [.invalidSelector ['.'] .badName]⟩ := by decide +kernel
  have hname : IsClassName ['b'] :=
    ⟨by decide, by decide, by rintro c rest ⟨⟩; decide, by rintro c rest ⟨⟩⟩
  obtain ⟨hjoined, hmedia, hclass⟩ := parse_joined_and_nested hdangling
  exact ⟨hjoined _ _ hquoted (by decide), hmedia, hclass _ hname⟩

end Stylesheet

end ClassAudit.Css
