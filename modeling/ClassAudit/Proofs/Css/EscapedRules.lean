import ClassAudit.Proofs.Css.MutedTexts
import Mathlib.Data.List.Induction
/-!
# Rules for escaped class names

A rule whose selector is one escaped class name defines that name, as long as
the escapes are respected on the way to the reader of names.  The masking of a
sheet respects them; the search for braces, semicolons and commas and the
trimming of selectors look at characters only.  So the rule defines its name
exactly if the name has no brace and no semicolon, no comma outside brackets,
and no blank at its end that is not written as a code.
-/

namespace ClassAudit.Css

theorem spelling_eq_marked {c : Char} {spelling : Spelling} (h : Readable (c, spelling))
    (hname : Selector.isNameChar c = false)
    (hcode : 32 ≤ c.toNat ∧ c.toNat < 48 ∨ 57 < c.toNat ∧ c.toNat < 127) : spelling = .marked := by
  cases spelling with
  | verbatim => exact absurd (hname.symm.trans h) (by decide)
  | marked => rfl
  | coded => exact absurd rfl (ne_of_coded h hcode)

/-- Where a written name shows a mark, the mark stands behind a backslash. -/
theorem exists_parts_of_mark {parts : List (Char × Spelling)}
    (hparts : ∀ part ∈ parts, Readable part) {front back : Text} {c : Char}
    (hname : Selector.isNameChar c = false)
    (hcode : 32 ≤ c.toNat ∧ c.toNat < 48 ∨ 57 < c.toNat ∧ c.toNat < 127)
    (h : parts.map Prod.fst = front ++ c :: back) :
    ∃ before after, parts = before ++ (c, .marked) :: after ∧ before.map Prod.fst = front := by
  obtain ⟨before, rest, rfl, hbefore, hrest⟩ := List.map_eq_append_iff.1 h
  obtain ⟨part, after, rfl, hpart, -⟩ := List.map_eq_cons_iff.1 hrest
  obtain ⟨d, spelling⟩ := part
  obtain rfl : d = c := hpart
  have hmarked := spelling_eq_marked (hparts (d, spelling) (by simp)) hname hcode
  exact ⟨before, after, by rw [hmarked], hbefore⟩

theorem not_mem_spell {parts : List (Char × Spelling)} (hparts : ∀ part ∈ parts, Readable part)
    {d : Char} (hd : d ≠ '\\' ∧ Text.isPlainNameChar d = false ∧ d ≠ ' ')
    (h : d ∉ parts.map Prod.fst) : d ∉ spell parts := by
  intro hmem
  obtain ⟨⟨c, spelling⟩, hpart, hmem⟩ := List.mem_flatMap.1 hmem
  have hne : c ≠ d := by
    rintro rfl
    exact h (List.mem_map_of_mem hpart)
  cases spelling with
  | verbatim => exact hne (List.mem_singleton.1 hmem).symm
  | marked =>
    simp only [Spelling.write, List.mem_cons, List.not_mem_nil, or_false] at hmem
    exact hmem.elim hd.1 hne.symm
  | coded => exact ne_of_mem_write_coded (hparts _ hpart) hmem hd rfl

/-! ## Trimmed selectors -/

theorem endsBlank_dot_append {tail : Text} (hne : tail ≠ []) (h : tail.endsBlank = false)
    (front : Text) : Text.endsBlank ('.' :: (front ++ tail)) = false := by
  rw [← List.cons_append]
  exact Text.endsBlank_append hne h ('.' :: front)

theorem trim_dot_append_blanks {front blanks : Text} (hblanks : ∀ c ∈ blanks, Text.isBlank c)
    (hfront : Text.endsBlank ('.' :: front) = false) :
    Text.trim ('.' :: (front ++ blanks)) = '.' :: front :=
  Text.trim_blanks_around (List.forall_mem_nil _) hblanks (List.cons_ne_nil _ _) rfl hfront

theorem exists_trim_dot_append {front : Text} (hfront : Text.endsBlank ('.' :: front) = false)
    (rest : Text) : ∃ later, Text.trim ('.' :: (front ++ rest)) = '.' :: (front ++ later) := by
  induction rest using List.reverseRecOn with
  | nil =>
    refine ⟨[], ?_⟩
    rw [trim_dot_append_blanks (List.forall_mem_nil _) hfront, List.append_nil]
  | append_singleton rest c ih =>
    by_cases hblank : Text.isBlank c = true
    · rw [← List.append_assoc, ← List.cons_append,
        Text.trim_append_blanks _ (List.forall_mem_singleton.2 hblank)]
      exact ih
    · refine ⟨rest ++ [c], ?_⟩
      have hend : Text.endsBlank ('.' :: (front ++ (rest ++ [c]))) = false := by
        rw [← List.append_assoc]
        exact endsBlank_dot_append (List.cons_ne_nil c []) (Bool.eq_false_iff.2 hblank) _
      have htrim := trim_dot_append_blanks (List.forall_mem_nil _) hend
      rw [List.append_nil] at htrim
      exact htrim

/-! ## The selector of a written name -/

theorem listFindings_of_splitCommas {list first : Text} {others : List Text}
    (h : Selector.splitCommas 0 list = first :: others) (hne : first ≠ [])
    (hstart : first.startsBlank = false) (hend : first.endsBlank = false) :
    ∃ later, listFindings list = selectorFindings first ++ later ∧ (others = [] → later = []) := by
  have htrim : Text.trim first = first := by
    have hall := Text.trim_blanks_around (List.forall_mem_nil _) (List.forall_mem_nil _) hne
      hstart hend
    rwa [List.nil_append, List.append_nil] at hall
  refine ⟨((others.map Text.trim).filter fun selector => !selector.isEmpty).flatMap
    selectorFindings, ?_, ?_⟩
  · unfold listFindings
    rw [h, List.map_cons, htrim, List.filter_cons_of_pos (by simpa using hne), List.flatMap_cons]
  · rintro rfl
    rfl

/-- A selector of a written name that is cut behind a backslash is skipped. -/
theorem exists_skipped_of_cut {parts : List (Char × Spelling)}
    (hparts : ∀ part ∈ parts, Readable part) (huncut : HidesFrom 0 ',' (parts.map Prod.fst))
    {tail : Text} (htail : tail = [] ∨
      nestingBehind 0 (parts.map Prod.fst) = 0 ∧ ∃ later, tail = ',' :: later) :
    ∃ fault, .skipped fault ∈ listFindings ('.' :: (spell parts ++ '\\' :: tail)) := by
  have hname : Selector.readName? (spell parts ++ ['\\']) = none := by
    rw [Selector.readName?_spell hparts]
    simp [Selector.readName?, Selector.readEscape?]
  have hnesting : nestingBehind 0 ('.' :: (spell parts ++ ['\\'])) =
      nestingBehind 0 (parts.map Prod.fst) := by
    show nestingBehind 0 (spell parts ++ ['\\']) = _
    rw [nestingBehind_append, (spell_nesting hparts 0).1]
    exact nestingBehind_inert (by decide) _
  have hhides : HidesFrom 0 ',' ('.' :: (spell parts ++ ['\\'])) := by
    rw [hidesFrom_cons, hidesFrom_append]
    exact ⟨by simp, (spell_nesting hparts 0).2.2 huncut, hidesFrom_of_not_mem (by decide)⟩
  have hlater : ∃ others, Selector.splitCommas (nestingBehind 0 (parts.map Prod.fst)) tail =
      [] :: others := by
    rcases htail with rfl | ⟨hzero, later, rfl⟩
    · exact ⟨[], rfl⟩
    · exact ⟨Selector.splitCommas 0 later, by rw [hzero, Selector.splitCommas, if_pos ⟨rfl, rfl⟩]⟩
  obtain ⟨others, hothers⟩ := hlater
  rw [← hnesting] at hothers
  have hsplit := Selector.splitCommas_append hhides hothers
  rw [List.append_nil, List.cons_append, List.append_assoc, List.singleton_append] at hsplit
  have hend : Text.endsBlank ('.' :: (spell parts ++ ['\\'])) = false :=
    endsBlank_dot_append (by decide) (by decide) (spell parts)
  obtain ⟨later, hfindings, -⟩ := listFindings_of_splitCommas hsplit (by simp) rfl hend
  rw [hfindings, selectorFindings, Selector.classes_dot_dangling hname]
  exact ⟨_, List.mem_append_left _ (List.mem_singleton_self _)⟩

theorem exists_cut_at_comma {parts : List (Char × Spelling)}
    (hparts : ∀ part ∈ parts, Readable part) (h : ¬HidesFrom 0 ',' (parts.map Prod.fst)) :
    ∃ before after, spell parts = spell before ++ '\\' :: ',' :: after ∧
      (∀ part ∈ before, Readable part) ∧ ClosedFrom 0 ',' (before.map Prod.fst) := by
  obtain ⟨front, back, hnames, hclosed⟩ := exists_closedFrom_of_not_hidesFrom h
  obtain ⟨before, after, rfl, rfl⟩ := exists_parts_of_mark hparts (by decide) (by decide) hnames
  refine ⟨before, spell after, ?_, fun part hpart => hparts part (by simp [hpart]), hclosed⟩
  rw [spell_append, spell_cons]
  rfl

theorem exists_skipped_of_backslash {parts : List (Char × Spelling)}
    (hparts : ∀ part ∈ parts, Readable part) :
    ∃ fault, .skipped fault ∈ listFindings ('.' :: (spell parts ++ ['\\'])) := by
  by_cases huncut : HidesFrom 0 ',' (parts.map Prod.fst)
  · exact exists_skipped_of_cut hparts huncut (.inl rfl)
  · obtain ⟨before, after, hspell, hbefore, hzero, hhides⟩ := exists_cut_at_comma hparts huncut
    rw [hspell, List.append_assoc]
    exact exists_skipped_of_cut hbefore hhides (.inr ⟨hzero, _, rfl⟩)

theorem exists_skipped_of_comma {parts : List (Char × Spelling)}
    (hparts : ∀ part ∈ parts, Readable part) (hcut : ¬HidesFrom 0 ',' (parts.map Prod.fst)) :
    ∃ fault, .skipped fault ∈ listFindings (Text.trim ('.' :: spell parts)) := by
  obtain ⟨before, after, hspell, hbefore, hzero, hhides⟩ := exists_cut_at_comma hparts hcut
  have hend : Text.endsBlank ('.' :: (spell before ++ ['\\', ','])) = false :=
    endsBlank_dot_append (by decide) (by decide) (spell before)
  obtain ⟨later, htrim⟩ := exists_trim_dot_append hend after
  rw [List.append_assoc, List.append_assoc] at htrim
  rw [hspell]
  exact htrim ▸ exists_skipped_of_cut hbefore hhides (.inr ⟨hzero, later, rfl⟩)

/-- A trimmed name reads as the whole if its last character is no blank or is coded: then trimming
takes at most the blank behind the code. -/
theorem exists_readName?_trim {parts : List (Char × Spelling)} {c : Char} {spelling : Spelling}
    (hparts : ∀ part ∈ parts ++ [(c, spelling)], Readable part)
    (hblank : Text.isBlank c = true → spelling = .coded) :
    ∃ text, Text.trim ('.' :: spell (parts ++ [(c, spelling)])) = '.' :: text ∧
      text <+: spell (parts ++ [(c, spelling)]) ∧
      Selector.readName? text = some (Selector.nameChars (parts ++ [(c, spelling)]), []) := by
  have hlast : Readable (c, spelling) := hparts _ (by simp)
  have hbefore : ∀ part ∈ parts, Readable part := fun part hpart => hparts part (by simp [hpart])
  by_cases hcoded : spelling = .coded
  · subst hcoded
    obtain ⟨hhex, -, hne, -⟩ := toDigits_spec c.toNat (toNat_lt_of_coded hlast)
    have hspell : spell (parts ++ [(c, .coded)]) =
        (spell parts ++ '\\' :: Nat.toDigits 16 c.toNat) ++ [' '] := by
      rw [spell_append, spell_cons, Spelling.write]
      simp [spell]
    have hdigits : Text.endsBlank (Nat.toDigits 16 c.toNat) = false := by
      unfold Text.endsBlank
      rw [Option.any_eq_false]
      intro d hd
      have hname := isPlainNameChar_of_isHexDigit (hhex d (List.mem_of_getLast? hd))
      simp [Text.not_isBlank_of_isPlainNameChar hname]
    have hend : Text.endsBlank ('.' :: (spell parts ++ '\\' :: Nat.toDigits 16 c.toNat)) =
        false := by
      rw [List.append_cons]
      exact endsBlank_dot_append hne hdigits _
    refine ⟨spell parts ++ '\\' :: Nat.toDigits 16 c.toNat, ?_, ⟨[' '], hspell.symm⟩, ?_⟩
    · rw [hspell, trim_dot_append_blanks (by simp; decide) hend]
    · have hnone : ∀ d ∈ ([] : Text).head?, Text.isHexDigit d = false := by simp
      have hcode := Selector.readEscape?_coded hlast hnone
      rw [List.append_nil] at hcode
      rw [Selector.readName?_spell hbefore, Selector.readName?_backslash hcode]
      simp [Selector.readName?, Selector.dropSpace, Selector.nameChars]
  · have hend : Text.endsBlank ('.' :: spell (parts ++ [(c, spelling)])) = false := by
      have hwrite : ∃ front, spelling.write c = front ++ [c] := by
        cases spelling with
        | verbatim => exact ⟨[], rfl⟩
        | marked => exact ⟨['\\'], rfl⟩
        | coded => exact absurd rfl hcoded
      obtain ⟨front, hwrite⟩ := hwrite
      rw [spell_append, spell_cons, hwrite]
      have hc : Text.endsBlank [c] = false := Bool.eq_false_iff.2 fun h => hcoded (hblank h)
      have hsplit : '.' :: (spell parts ++ (front ++ [c] ++ spell [])) =
          '.' :: (spell parts ++ front ++ [c]) := by simp [spell]
      rw [hsplit]
      exact endsBlank_dot_append (List.cons_ne_nil _ _) hc _
    refine ⟨_, ?_, List.prefix_rfl, ?_⟩
    · have htrim := trim_dot_append_blanks (List.forall_mem_nil _) hend
      rw [List.append_nil] at htrim
      exact htrim
    · have hname := Selector.readName?_spell hparts []
      rw [List.append_nil] at hname
      rw [hname]
      simp [Selector.readName?]

/-- The one selector that is left of a written name, and what it holds. -/
theorem exists_selector_of_trim {parts : List (Char × Spelling)} {c : Char} {spelling : Spelling}
    (hparts : ∀ part ∈ parts ++ [(c, spelling)], Readable part)
    (hblank : Text.isBlank c = true → spelling = .coded)
    (huncut : HidesFrom 0 ',' ((parts ++ [(c, spelling)]).map Prod.fst)) :
    ∃ selector,
      listFindings (Text.trim ('.' :: spell (parts ++ [(c, spelling)]))) =
        selectorFindings selector ∧
      Selector.classes selector =
        if Selector.startsWell (Selector.nameChars (parts ++ [(c, spelling)])) then
          .ok [(parts ++ [(c, spelling)]).map Prod.fst]
        else .error .badName := by
  obtain ⟨text, htrim, ⟨rest, hrest⟩, hname⟩ := exists_readName?_trim hparts hblank
  have hhides : HidesFrom 0 ',' text := by
    have hall := (spell_nesting hparts 0).2.2 huncut
    rw [← hrest] at hall
    exact (hidesFrom_append.1 hall).1
  have hsplit : Selector.splitCommas 0 ('.' :: text ++ []) = ['.' :: text ++ []] :=
    Selector.splitCommas_append (hidesFrom_cons.2 ⟨by simp, hhides⟩) rfl
  rw [List.append_nil] at hsplit
  have hend := Text.endsBlank_trim ('.' :: spell (parts ++ [(c, spelling)]))
  rw [htrim] at hend
  obtain ⟨later, hfindings, hnil⟩ :=
    listFindings_of_splitCommas hsplit (List.cons_ne_nil _ _) rfl hend
  refine ⟨'.' :: text, ?_, ?_⟩
  · rw [htrim, hfindings, hnil rfl, List.append_nil]
  · rw [Selector.classes_dot hname, Selector.map_fst_nameChars]

theorem trim_spell_verbatim_blank (parts : List (Char × Spelling)) {c : Char}
    (hblank : Text.isBlank c = true) :
    Text.trim ('.' :: spell (parts ++ [(c, .verbatim)])) = Text.trim ('.' :: spell parts) := by
  rw [spell_append, ← List.cons_append]
  exact Text.trim_append_blanks _ (List.forall_mem_singleton.2 hblank)

theorem exists_skipped_of_marked_blank {parts : List (Char × Spelling)}
    (hparts : ∀ part ∈ parts, Readable part) {c : Char} (hblank : Text.isBlank c = true) :
    ∃ fault,
      .skipped fault ∈ listFindings (Text.trim ('.' :: spell (parts ++ [(c, .marked)]))) := by
  have hend : Text.endsBlank ('.' :: (spell parts ++ ['\\'])) = false :=
    endsBlank_dot_append (by decide) (by decide) (spell parts)
  have htrim := trim_dot_append_blanks (List.forall_mem_singleton.2 hblank) hend
  rw [List.append_assoc] at htrim
  rw [spell_append, show spell [(c, .marked)] = ['\\'] ++ [c] from rfl, htrim]
  exact exists_skipped_of_backslash hparts

/-- Where nothing is skipped, no name is longer than the one that was written. -/
theorem length_le_of_className_mem {parts : List (Char × Spelling)}
    (hparts : ∀ part ∈ parts, Readable part) (huncut : HidesFrom 0 ',' (parts.map Prod.fst))
    {name : Text} (hname : .className name ∈ listFindings (Text.trim ('.' :: spell parts)))
    (hskipped : ∀ fault, .skipped fault ∉ listFindings (Text.trim ('.' :: spell parts))) :
    name.length ≤ parts.length := by
  induction parts using List.reverseRecOn with
  | nil =>
    have hdot : listFindings (Text.trim ('.' :: spell [])) =
        [.skipped (.invalidSelector ['.'] .badName)] := by decide +kernel
    rw [hdot] at hskipped
    exact absurd (List.mem_singleton_self _) (hskipped _)
  | append_singleton parts part ih =>
    obtain ⟨c, spelling⟩ := part
    by_cases hblank : Text.isBlank c = true → spelling = .coded
    · obtain ⟨selector, hfindings, hclasses⟩ := exists_selector_of_trim hparts hblank huncut
      rw [hfindings, selectorFindings, hclasses] at hname
      split at hname
      · rename_i names hnames
        split at hnames
        · cases hnames
          rw [List.map_singleton, List.mem_singleton, Finding.className.injEq] at hname
          rw [hname, List.length_map]
        · cases hnames
      · exact absurd hname (by simp)
    · rw [Classical.not_imp] at hblank
      have hbefore : ∀ part ∈ parts, Readable part := fun part hpart =>
        hparts part (by simp [hpart])
      rw [List.map_append, hidesFrom_append] at huncut
      cases spelling with
      | verbatim =>
        rw [trim_spell_verbatim_blank parts hblank.1] at hname hskipped
        have hle := ih hbefore huncut.1 hname hskipped
        rw [List.length_append]
        omega
      | marked =>
        obtain ⟨fault, hfault⟩ := exists_skipped_of_marked_blank hbefore hblank.1
        exact absurd hfault (hskipped fault)
      | coded => exact absurd rfl hblank.2

/-! ## The rule of a written name -/

theorem Header.ofFront_dot {front : Text} (h : ∀ c ∈ blockMarks, c ∉ front) :
    ofFront (plainCells ('.' :: front)) = .selectors (Text.trim ('.' :: front)) := by
  have hsemicolon : ';' ∉ '.' :: front :=
    List.not_mem_cons_of_ne_of_not_mem (by decide) (h ';' (by decide))
  rw [ofFront_plainCells hsemicolon rfl, if_neg (mt head?_firstWord_iff.1 (by simp))]

theorem braceless_dot {front : Text} (h : ∀ c ∈ blockMarks, c ∉ front) :
    ∀ c ∈ '.' :: front, c ≠ '{' ∧ c ≠ '}' := by
  refine List.forall_mem_cons.2 ⟨by decide, fun c hc => ⟨?_, ?_⟩⟩
  · rintro rfl
    exact h '{' (by decide) hc
  · rintro rfl
    exact h '}' (by decide) hc

theorem braceless_plainCells {text : Text} (h : ∀ c ∈ text, c ≠ '{' ∧ c ≠ '}') :
    ∀ cell ∈ plainCells text, cell.shown ≠ '{' ∧ cell.shown ≠ '}' := by
  intro cell hcell
  obtain ⟨c, hc, rfl⟩ := mem_plainCells.1 hcell
  exact h c hc

/-- A sheet of one rule without declarations. -/
def ruleOf (front : Text) : Text :=
  '.' :: (front ++ ['{', '}'])

theorem findings_ruleOf {front : Text} (h : ∀ c ∈ blockMarks, c ∉ front) :
    matchBraces [] 0 (plainCells (ruleOf front)) = .ok () ∧
      (Block.ofCells (plainCells (ruleOf front))).findings =
        listFindings (Text.trim ('.' :: front)) := by
  have hfront := braceless_dot h
  constructor
  · exact matchBraces_balanced (balanced_plainCells (balanced_headed hfront .nil .nil))
  · have hblock : Block.ofCells (plainCells (ruleOf front)) =
        .rule (plainCells ('.' :: front)) (.done []) (.done []) :=
      Block.ofCells_headed hfront .nil []
    rw [hblock, Block.findings, Header.ofFront_dot h]
    simp only [Block.findings, List.append_nil]

/-! What follows the first mark is read apart from the backslash before it. -/

section FirstMark

variable {front : Text} (hfront : ∀ c ∈ blockMarks, c ∉ front)
include hfront

theorem not_matchBraces_of_closing (rest : List Cell) :
    matchBraces [] 0 (plainCells ('.' :: front) ++ .plain '}' :: rest) ≠ .ok () := by
  have hbraceless := braceless_plainCells (braceless_dot hfront)
  rw [matchBraces_balanced_append (.of_braceless hbraceless), matchBraces_cons]
  simp [Cell.plain]

theorem exists_findings_of_opening (rest : List Cell) :
    ∃ later, (Block.ofCells (plainCells ('.' :: front) ++ .plain '{' :: rest)).findings =
      listFindings (Text.trim ('.' :: front)) ++ later := by
  have hopen : ∃ body next, Block.ofCells (.plain '{' :: rest) = .rule [] body next := by
    unfold Block.ofCells
    rw [List.foldr_cons]
    generalize rest.foldr Block.Suffix.push ⟨.done [], []⟩ = suffix
    obtain ⟨block, outer⟩ := suffix
    cases outer with
    | nil => exact ⟨block, .done [], rfl⟩
    | cons next outer => exact ⟨block, next, rfl⟩
  obtain ⟨body, next, hrule⟩ := hopen
  have hbraceless := braceless_plainCells (braceless_dot hfront)
  rw [Block.ofCells_braceless_append hbraceless, hrule, Block.prepend_rule, List.append_nil,
    Block.findings, Header.ofFront_dot hfront]
  exact ⟨body.findings ++ next.findings, List.append_assoc _ _ _⟩

theorem findings_of_semicolon (rest : List Cell) :
    (Block.ofCells (plainCells ('.' :: front) ++ .plain ';' :: rest)).findings =
      (Block.ofCells rest).findings := by
  have hbraceless : ∀ cell ∈ plainCells ('.' :: front) ++ [.plain ';'],
      cell.shown ≠ '{' ∧ cell.shown ≠ '}' := by
    rw [List.forall_mem_append]
    exact ⟨braceless_plainCells (braceless_dot hfront), by decide⟩
  rw [List.append_cons, Block.ofCells_braceless_append hbraceless, Block.findings_prepend]
  intro cells
  rw [List.append_assoc]
  exact Header.ofFront_append_semicolon _ _ rfl

end FirstMark

theorem blockMarks_spec : ∀ c ∈ blockMarks, Selector.isNameChar c = false ∧
    (32 ≤ c.toNat ∧ c.toNat < 48 ∨ 57 < c.toNat ∧ c.toNat < 127) ∧
    c ≠ '\\' ∧ Text.isPlainNameChar c = false ∧ c ≠ ' ' := by
  decide

theorem blockMarks_not_mem_spell {parts : List (Char × Spelling)}
    (hparts : ∀ part ∈ parts, Readable part) (h : ∀ c ∈ parts.map Prod.fst, c ∉ blockMarks) :
    ∀ c ∈ blockMarks, c ∉ spell parts := by
  intro c hc
  exact not_mem_spell hparts (blockMarks_spec c hc).2.2 fun hname => h c hname hc

theorem exists_first_mark {parts : List (Char × Spelling)}
    (hparts : ∀ part ∈ parts, Readable part) (h : ¬∀ c ∈ parts.map Prod.fst, c ∉ blockMarks) :
    ∃ before c after, parts = before ++ (c, .marked) :: after ∧ c ∈ blockMarks ∧
      ∀ d ∈ before.map Prod.fst, d ∉ blockMarks := by
  obtain ⟨c, hfind⟩ : ∃ c, (parts.map Prod.fst).find? (blockMarks.contains ·) = some c := by
    rw [← Option.isSome_iff_exists, List.find?_isSome]
    simpa using h
  obtain ⟨hc, front, back, hsplit, hfirst⟩ := List.find?_eq_some_iff_append.1 hfind
  have hc : c ∈ blockMarks := by simpa using hc
  obtain ⟨hname, hcode, -⟩ := blockMarks_spec c hc
  obtain ⟨before, after, rfl, rfl⟩ := exists_parts_of_mark hparts hname hcode hsplit
  exact ⟨before, c, after, rfl, hc, by simpa using hfirst⟩

/-- A rule that is read without a fault and defines a class shows no brace and no semicolon. -/
theorem flat_of_found {parts : List (Char × Spelling)} (hparts : ∀ part ∈ parts, Readable part)
    (hbraces : matchBraces [] 0 (plainCells (ruleOf (spell parts))) = .ok ()) {name : Text}
    (hname : .className name ∈ (Block.ofCells (plainCells (ruleOf (spell parts)))).findings)
    (hskipped : ∀ fault,
      .skipped fault ∉ (Block.ofCells (plainCells (ruleOf (spell parts)))).findings) :
    ∀ c ∈ parts.map Prod.fst, c ∉ blockMarks := by
  by_contra hmark
  obtain ⟨before, c, after, rfl, hc, hfirst⟩ := exists_first_mark hparts hmark
  have hbefore : ∀ part ∈ before, Readable part := fun part hpart => hparts part (by simp [hpart])
  have hflat : ∀ d ∈ blockMarks, d ∉ spell before ++ ['\\'] := by
    intro d hd hmem
    rcases List.mem_append.1 hmem with hmem | hmem
    · exact blockMarks_not_mem_spell hbefore hfirst d hd hmem
    · exact (blockMarks_spec d hd).2.2.1 (List.mem_singleton.1 hmem)
  have hrule : plainCells (ruleOf (spell (before ++ (c, .marked) :: after))) =
      plainCells ('.' :: (spell before ++ ['\\'])) ++
        .plain c :: plainCells (spell after ++ ['{', '}']) := by
    rw [ruleOf, spell_append, spell_cons, Spelling.write]
    simp [plainCells]
  rw [hrule] at hbraces hname hskipped
  simp only [blockMarks, List.mem_cons, List.not_mem_nil, or_false] at hc
  rcases hc with rfl | rfl | rfl
  · -- The block opens behind a backslash that escapes nothing any more.
    obtain ⟨later, hlater⟩ :=
      exists_findings_of_opening hflat (plainCells (spell after ++ ['{', '}']))
    obtain ⟨fault, hfault⟩ := exists_skipped_of_backslash hbefore
    have htrim := trim_dot_append_blanks (List.forall_mem_nil _)
      (endsBlank_dot_append (List.cons_ne_nil '\\' []) (by decide) (spell before))
    rw [List.append_nil] at htrim
    rw [hlater, htrim] at hskipped
    exact hskipped fault (List.mem_append_left _ hfault)
  · exact not_matchBraces_of_closing hflat _ hbraces
  · -- Only what follows the semicolon is read, and no class name starts there.
    have hmuted : Muted (spell after ++ ['{', '}']) :=
      Muted.spell_append (fun part hpart => hparts part (by simp [hpart]))
        (.mute (.inr (by decide)) (.mute (.inr (by decide)) .nil))
    rw [findings_of_semicolon hflat] at hname
    exact (Block.mute_ofCells hmuted).className_not_mem_findings name hname

/-- A name whose escapes no reader takes for syntax. -/
structure Sheltered (name : Text) : Prop where
  flat : ∀ c ∈ name, c ∉ blockMarks
  uncut : HidesFrom 0 ',' name
  ends : ∀ c ∈ name.getLast?, Text.isBlank c = true → isControl c = true

instance (name : Text) : Decidable (Sheltered name) :=
  decidable_of_iff ((∀ c ∈ name, c ∉ blockMarks) ∧ HidesFrom 0 ',' name ∧
      name.getLast?.all (fun c => !Text.isBlank c || isControl c) = true) <| by
    have hends : name.getLast?.all (fun c => !Text.isBlank c || isControl c) = true ↔
        ∀ c ∈ name.getLast?, Text.isBlank c = true → isControl c = true := by
      simp [Option.all_eq_true, Bool.or_eq_true, imp_iff_not_or]
    rw [hends]
    exact ⟨fun h => ⟨h.1, h.2.1, h.2.2⟩, fun h => ⟨h.flat, h.uncut, h.ends⟩⟩

theorem eq_coded_of_isControl {c : Char} {spelling : Spelling} (h : Readable (c, spelling))
    (hc : isControl c = true) : spelling = .coded := by
  cases spelling with
  | verbatim =>
    have hcode := toNat_of_isControl hc
    have hname : Text.isPlainNameChar c = true ∨ ¬c.toNat < 128 := by
      simpa [Readable, Selector.isNameChar, Text.isAscii] using h
    rcases hname with hplain | hwide
    · have hbounds := Text.toNat_of_isPlainNameChar hplain
      omega
    · omega
  | marked => exact absurd (hc.symm.trans h.2) (by decide)
  | coded => rfl

section Found

variable {parts : List (Char × Spelling)}

theorem uncut_of_found (hparts : ∀ part ∈ parts, Readable part)
    (hskipped : ∀ fault, .skipped fault ∉ listFindings (Text.trim ('.' :: spell parts))) :
    HidesFrom 0 ',' (parts.map Prod.fst) := by
  by_contra hcut
  obtain ⟨fault, hfault⟩ := exists_skipped_of_comma hparts hcut
  exact hskipped fault hfault

/-- A name that is found whole does not end in a blank that trimming takes away. -/
theorem isControl_of_found {c : Char} {spelling : Spelling}
    (hparts : ∀ part ∈ parts ++ [(c, spelling)], Readable part)
    (hname : .className ((parts ++ [(c, spelling)]).map Prod.fst) ∈
      listFindings (Text.trim ('.' :: spell (parts ++ [(c, spelling)]))))
    (hskipped : ∀ fault,
      .skipped fault ∉ listFindings (Text.trim ('.' :: spell (parts ++ [(c, spelling)]))))
    (hblank : Text.isBlank c = true) : isControl c = true := by
  have huncut := uncut_of_found hparts hskipped
  have hbefore : ∀ part ∈ parts, Readable part := fun part hpart => hparts part (by simp [hpart])
  cases spelling with
  | verbatim =>
    rw [trim_spell_verbatim_blank parts hblank] at hname hskipped
    rw [List.map_append, hidesFrom_append] at huncut
    have hle := length_le_of_className_mem hbefore huncut.1 hname hskipped
    rw [List.length_map, List.length_append, List.length_singleton] at hle
    omega
  | marked =>
    obtain ⟨fault, hfault⟩ := exists_skipped_of_marked_blank hbefore hblank
    exact absurd hfault (hskipped fault)
  | coded =>
    rcases hparts (c, .coded) (by simp) with hcontrol | hdigit
    · exact hcontrol
    · have hplain : Text.isPlainNameChar c = true := by
        simp [Text.isPlainNameChar, Char.isAlphanum, hdigit]
      rw [Text.not_isBlank_of_isPlainNameChar hplain] at hblank
      exact absurd hblank (by decide)

end Found

namespace Stylesheet

theorem parse_ruleOf {parts : List (Char × Spelling)} (hparts : ∀ part ∈ parts, Readable part) :
    parse (ruleOf (spell parts)) = (matchBraces [] 0 (plainCells (ruleOf (spell parts)))).map
      fun _ => ofFindings (Block.ofCells (plainCells (ruleOf (spell parts)))).findings := by
  have hmuted : Muted (spell parts ++ ['{', '}']) :=
    Muted.spell_append hparts (.mute (.inr (by decide)) (.mute (.inr (by decide)) .nil))
  have hmask : mask (ruleOf (spell parts)) = .ok (plainCells (ruleOf (spell parts))) := by
    have hdot : MaskStep .sheet 0 ['.'] (spell parts ++ ['{', '}']) [.plain '.'] .sheet :=
      .plain '.' (by decide) (by simp) (by simp)
    exact masks_iff.1 (.step hdot (masks_muted hmuted _))
  exact parse_of_mask hmask

theorem found_of_parse {parts : List (Char × Spelling)} (hparts : ∀ part ∈ parts, Readable part)
    {name : Text} (h : parse (ruleOf (spell parts)) = .ok { classes := .ofList [name] }) :
    matchBraces [] 0 (plainCells (ruleOf (spell parts))) = .ok () ∧
      .className name ∈ (Block.ofCells (plainCells (ruleOf (spell parts)))).findings ∧
      ∀ fault, .skipped fault ∉ (Block.ofCells (plainCells (ruleOf (spell parts)))).findings := by
  rw [parse_ruleOf hparts] at h
  generalize (Block.ofCells (plainCells (ruleOf (spell parts)))).findings = findings at h ⊢
  cases hbraces : matchBraces [] 0 (plainCells (ruleOf (spell parts))) with
  | error fault =>
    rw [hbraces] at h
    cases h
  | ok done =>
    rw [hbraces] at h
    have hsheet : ofFindings findings = { classes := .ofList [name] } := Except.ok.inj h
    refine ⟨rfl, ?_, ?_⟩
    · rw [← mem_classes_ofFindings, hsheet]
      simp
    · intro fault hfault
      have hnone : (ofFindings findings).skipped = [] := by rw [hsheet]
      exact absurd (List.filterMap_eq_nil_iff.1 hnone _ hfault) (by simp)

/-- The rule of an escaped name defines that name and nothing else exactly if the name is
sheltered. -/
theorem parse_escape_iff {name : Text} (hne : name ≠ []) :
    parse ('.' :: (escape name ++ ['{', '}'])) = .ok { classes := .ofList [name] } ↔
      Sheltered name := by
  show parse (ruleOf (spell (spelled name))) = _ ↔ _
  have hparts := readable_spelled name
  have hnames := map_fst_spelled name
  have hwell := Selector.startsWell_spelled hne
  have hlast := spelled_ne_nil hne
  generalize spelled name = parts at hparts hnames hwell hlast ⊢
  obtain ⟨before, ⟨c, spelling⟩, rfl⟩ : ∃ before last, parts = before ++ [last] :=
    ⟨_, _, (List.dropLast_concat_getLast hlast).symm⟩
  subst hnames
  have hends : ((before ++ [(c, spelling)]).map Prod.fst).getLast? = some c := by simp
  constructor
  · intro h
    obtain ⟨hbraces, hname, hskipped⟩ := found_of_parse hparts h
    have hflat := flat_of_found hparts hbraces hname hskipped
    rw [(findings_ruleOf (blockMarks_not_mem_spell hparts hflat)).2] at hname hskipped
    refine ⟨hflat, uncut_of_found hparts hskipped, ?_⟩
    intro d hd hblank
    rw [hends, Option.mem_some_iff] at hd
    subst hd
    exact isControl_of_found hparts hname hskipped hblank
  · intro h
    have hblank : Text.isBlank c = true → spelling = .coded := fun hblank =>
      eq_coded_of_isControl (hparts _ (by simp)) (h.ends c hends hblank)
    obtain ⟨selector, hfindings, hclasses⟩ := exists_selector_of_trim hparts hblank h.uncut
    obtain ⟨hbraces, hblock⟩ := findings_ruleOf (blockMarks_not_mem_spell hparts h.flat)
    rw [if_pos hwell] at hclasses
    rw [parse_ruleOf hparts, hbraces, hblock, hfindings, selectorFindings, hclasses]
    rfl

theorem parse_escape_iff_bracketed :
    "1:a[b,c]\n".toList ≠ [] ∧
      parse ".\\31 \\:a\\[b\\,c\\]\\a \x7b\x7d".toList =
        .ok { classes := .ofList ["1:a[b,c]\n".toList] } := by
  have hwritten : ".\\31 \\:a\\[b\\,c\\]\\a \x7b\x7d".toList =
      '.' :: (escape "1:a[b,c]\n".toList ++ ['{', '}']) := by decide +kernel
  have hne : "1:a[b,c]\n".toList ≠ [] := by decide
  have hname : Sheltered "1:a[b,c]\n".toList := by decide
  rw [hwritten]
  exact ⟨hne, (parse_escape_iff hne).2 hname⟩

/-- An escaped comma is taken for the end of a selector. -/
theorem parse_escape_comma :
    ¬∀ name : Text, name ≠ [] → '\x00' ∉ name →
      parse ('.' :: (escape name ++ ['{', '}'])) = .ok { classes := .ofList [name] } := by
  intro h
  exact absurd (h "a,b".toList (by decide) (by decide)) (by decide +kernel)

end Stylesheet

end ClassAudit.Css
