import ClassAudit.Proofs.Css.RuleSlices
import ClassAudit.Proofs.Css.SelectorItems
/-!
# Names that stop

In a sheet of ASCII without escapes a class of a rule is a name between a dot and
a character that no name goes on with: what is cut out of a list of selectors
ends at a comma, a blank or a brace.  The masked text shows such a name as it is
in the source, and a comment or a string behind it starts with a stop as well.
-/

namespace ClassAudit.Css

/-- A name that is written without escapes and does not start with a digit. -/
structure IsUnescaped (name : Text) : Prop where
  chars : ∀ c ∈ name, Selector.isNameChar c = true
  starts : ∃ first rest, name = first :: rest ∧ first.isDigit = false

/-- Whether a part stands in a text in front of a character that no name goes on with. -/
def StopsIn (text part : Text) : Prop :=
  ∃ stop, Selector.isNameChar stop = false ∧ part ++ [stop] <:+: text

theorem StopsIn.mono {text whole part : Text} (h : StopsIn text part) (htext : text <:+: whole) :
    StopsIn whole part := by
  obtain ⟨stop, hstop, hpart⟩ := h
  exact ⟨stop, hstop, hpart.trans htext⟩

/-- The last part of what stops does so too. -/
theorem StopsIn.of_suffix {text part last : Text} (h : StopsIn text part) (hlast : last <:+ part) :
    StopsIn text last := by
  obtain ⟨stop, hstop, hpart⟩ := h
  obtain ⟨front, rfl⟩ := hlast
  refine ⟨stop, hstop, List.IsInfix.trans ?_ hpart⟩
  rw [List.append_assoc]
  exact (List.suffix_append front _).isInfix

/-- What is followed by characters that no name goes on with stops if the whole does. -/
theorem StopsIn.of_append {text front back : Text} (h : StopsIn text (front ++ back))
    (hback : ∀ c ∈ back.head?, Selector.isNameChar c = false) : StopsIn text front := by
  obtain ⟨stop, hstop, hpart⟩ := h
  cases back with
  | nil => exact ⟨stop, hstop, by rwa [List.append_nil] at hpart⟩
  | cons c back =>
    refine ⟨c, hback c rfl, List.IsInfix.trans ?_ hpart⟩
    exact ⟨[], back ++ [stop], by simp⟩

namespace Selector

/-- A name without escapes is read as it is, up to where it stops. -/
theorem exists_run_of_readName? {text later : Text} {name : List NameChar} (hescape : '\\' ∉ text)
    (h : readName? text = some (name, later)) :
    ∃ run, text = run ++ later ∧ name = run.map (·, false) ∧
      (∀ c ∈ run, isNameChar c = true) ∧ ∀ c ∈ later.head?, isNameChar c = false := by
  fun_induction readName? text generalizing name with
  | case1 =>
    cases h
    exact ⟨[], rfl, rfl, List.forall_mem_nil _, by simp⟩
  | case2 | case3 => exact absurd List.mem_cons_self hescape
  | case4 c rest hc hname ih =>
    obtain ⟨⟨name, later⟩, hread, hparts⟩ := Option.map_eq_some_iff.1 h
    cases hparts
    obtain ⟨run, rfl, rfl, hrun, hlater⟩ :=
      ih (fun hmem => hescape (List.mem_cons_of_mem c hmem)) hread
    exact ⟨c :: run, rfl, rfl, List.forall_mem_cons.2 ⟨hname, hrun⟩, hlater⟩
  | case5 c rest hc hname =>
    cases h
    exact ⟨[], rfl, rfl, List.forall_mem_nil _, by simpa using hname⟩

theorem isPlainName_of_startsWell {run : Text} (hrun : ∀ c ∈ run, isNameChar c = true)
    (h : startsWell (run.map (·, false)) = true) : IsUnescaped run := by
  refine ⟨hrun, ?_⟩
  cases run with
  | nil => cases h
  | cons first rest =>
    refine ⟨first, rest, rfl, ?_⟩
    by_cases hhyphen : first = '-'
    · rw [hhyphen]
      rfl
    · rw [List.map_cons, startsWell_bare hhyphen] at h
      simpa using h

theorem afterAttribute?_suffix {depth : Nat} {text rest : Text}
    (h : afterAttribute? depth text = some rest) : rest <:+ text := by
  induction text generalizing depth with
  | nil => cases h
  | cons c text ih =>
    rw [afterAttribute?] at h
    split at h
    · exact (ih h).trans (List.suffix_cons c text)
    · split at h
      · split at h
        · cases h
          exact List.suffix_cons c _
        · exact (ih h).trans (List.suffix_cons c text)
      · exact (ih h).trans (List.suffix_cons c text)

/-- The classes of a selector stand in it behind dots, up to where they stop. -/
theorem stopsIn_of_classesFrom {parens : Nat} {whole text : Text} {names : List Text}
    (hescape : '\\' ∉ text) (h : classesFrom parens text = .ok names) (hstops : StopsIn whole text)
    {name : Text} (hname : name ∈ names) : IsUnescaped name ∧ StopsIn whole ('.' :: name) := by
  -- Every call of the reader is on a suffix of the selector, and suffixes stop where it does.
  have hbehind {rest later : Text} (hlater : later <:+ rest) (hrest : '\\' ∉ rest) :
      '\\' ∉ later := fun hmem => hrest (hlater.subset hmem)
  fun_induction classesFrom parens text generalizing names with
  | case1 => cases h; cases hname
  | case2 => cases h
  | case3 => exact absurd List.mem_cons_self hescape
  | case4 parens rest later hafter _ ih =>
    have hsuffix := (afterAttribute?_suffix hafter).trans (List.suffix_cons '[' rest)
    exact ih (hbehind hsuffix hescape) h (hstops.of_suffix hsuffix) hname
  | case5 => cases h
  | case6 => cases h
  | case7 parens rest _ _ _ ih =>
    have hsuffix := List.suffix_cons '(' rest
    exact ih (hbehind hsuffix hescape) h (hstops.of_suffix hsuffix) hname
  | case8 => cases h
  | case9 parens rest _ _ _ _ _ ih =>
    have hsuffix := List.suffix_cons ')' rest
    exact ih (hbehind hsuffix hescape) h (hstops.of_suffix hsuffix) hname
  | case10 parens rest read later hread hwell _ _ _ _ _ ih =>
    have hsuffix := List.suffix_cons '.' rest
    obtain ⟨run, rfl, rfl, hrun, hlater⟩ :=
      exists_run_of_readName? (hbehind hsuffix hescape) hread
    obtain ⟨others, hothers, rfl⟩ := exists_of_map_eq_ok h
    rcases List.mem_cons.1 hname with rfl | hname
    · have hdecoded : (run.map (·, false)).map Prod.fst = run := by
        rw [List.map_map]
        exact List.map_id run
      rw [hdecoded]
      exact ⟨isPlainName_of_startsWell hrun hwell, hstops.of_append hlater⟩
    · have hsuffix : later <:+ '.' :: (run ++ later) := ⟨'.' :: run, rfl⟩
      exact ih (hbehind hsuffix hescape) hothers (hstops.of_suffix hsuffix) hname
  | case11 => cases h
  | case12 => cases h
  | case13 parens c rest _ _ _ _ _ _ ih =>
    have hsuffix := List.suffix_cons c rest
    exact ih (hbehind hsuffix hescape) h (hstops.of_suffix hsuffix) hname

/-- The parts of a list end at a comma or with the list, and the first one starts it. -/
theorem exists_first_splitCommas (depth : Nat) (list : Text) :
    ∃ first others back, splitCommas depth list = first :: others ∧ list = first ++ back ∧
      (∀ c ∈ back.head?, c = ',') ∧
      ∀ part ∈ others, ∃ behind, part ++ behind <:+ back ∧ ∀ c ∈ behind.head?, c = ',' := by
  induction list generalizing depth with
  | nil => exact ⟨[], [], [], rfl, rfl, by simp, List.forall_mem_nil _⟩
  | cons c rest ih =>
    by_cases hcomma : c = ',' ∧ depth = 0
    · obtain ⟨first, others, back, hsplit, rfl, hback, hothers⟩ := ih 0
      refine ⟨[], first :: others, c :: (first ++ back), ?_, rfl, by simpa using hcomma.1,
        List.forall_mem_cons.2 ⟨?_, fun part hpart => ?_⟩⟩
      · rw [splitCommas, if_pos hcomma, hsplit]
      · exact ⟨back, List.suffix_cons c _, hback⟩
      · obtain ⟨behind, hbehind, hhead⟩ := hothers part hpart
        exact ⟨behind, hbehind.trans ((List.suffix_append first back).trans
          (List.suffix_cons c _)), hhead⟩
    · obtain ⟨first, others, back, hsplit, rfl, hback, hothers⟩ := ih (nestingAfter depth c)
      exact ⟨c :: first, others, back, splitCommas_cons hcomma hsplit, rfl, hback, hothers⟩

/-- What stands between the commas of a list stops if the list does. -/
theorem stopsIn_of_mem_splitCommas {whole list part : Text} (h : StopsIn whole list)
    (hpart : part ∈ splitCommas 0 list) : part <:+: list ∧ StopsIn whole part := by
  obtain ⟨first, others, back, hsplit, rfl, hback, hothers⟩ := exists_first_splitCommas 0 list
  have hcomma {behind : Text} (hbehind : ∀ c ∈ behind.head?, c = ',') :
      ∀ c ∈ behind.head?, isNameChar c = false := by
    intro c hc
    rw [hbehind c hc]
    rfl
  rw [hsplit] at hpart
  rcases List.mem_cons.1 hpart with rfl | hpart
  · exact ⟨(List.prefix_append _ _).isInfix, h.of_append (hcomma hback)⟩
  · obtain ⟨behind, hbehind, hhead⟩ := hothers part hpart
    have hlast := hbehind.trans (List.suffix_append first back)
    exact ⟨(List.prefix_append part behind).isInfix.trans hlast.isInfix,
      (h.of_suffix hlast).of_append (hcomma hhead)⟩

end Selector

/-! ## Lists of selectors -/

theorem forall_isAscii {p : Char → Prop} (h : ∀ code < 128, p (Char.ofNat code)) {c : Char}
    (hc : Text.isAscii c = true) : p c := by
  rw [← Char.ofNat_toNat c]
  exact h c.toNat (of_decide_eq_true hc)

theorem isNameChar_of_isBlank {c : Char} (hascii : Text.isAscii c = true)
    (h : Text.isBlank c = true) : Selector.isNameChar c = false := by
  refine forall_isAscii (p := fun c => Text.isBlank c = true → Selector.isNameChar c = false) ?_
    hascii h
  decide +kernel

/-- A text ends without the blanks in front of it, and then has blanks only. -/
theorem exists_blanks_behind_trim (text : Text) :
    ∃ blanks, Text.trim text ++ blanks <:+ text ∧ ∀ c ∈ blanks, Text.isBlank c = true := by
  obtain ⟨visible, blanks, hsplit, hblanks, hend⟩ :=
    Text.exists_blanks_behind (Text.trimStart text)
  have htrim : Text.trim text = visible := by
    unfold Text.trim
    rw [hsplit]
    exact Text.dropEndWhile_append hblanks ((Option.any_eq_false _ _).1 hend)
  refine ⟨blanks, ?_, hblanks⟩
  rw [htrim, ← hsplit]
  exact List.dropWhile_suffix _

/-- A text without the blanks around it stops if the whole does. -/
theorem StopsIn.trim {whole part : Text} (hascii : ∀ c ∈ part, Text.isAscii c = true)
    (h : StopsIn whole part) : Text.trim part <:+: part ∧ StopsIn whole (Text.trim part) := by
  obtain ⟨blanks, hlast, hblanks⟩ := exists_blanks_behind_trim part
  refine ⟨(List.prefix_append _ blanks).isInfix.trans hlast.isInfix, ?_⟩
  refine (h.of_suffix hlast).of_append fun c hc => ?_
  have hmem := List.mem_of_head? hc
  exact isNameChar_of_isBlank (hascii c (hlast.subset (List.mem_append_right _ hmem)))
    (hblanks c hmem)

/-- The classes of a list of selectors stand in it behind dots, up to where they stop. -/
theorem stopsIn_of_listFindings {whole list : Text} (hascii : ∀ c ∈ list, Text.isAscii c = true)
    (hescape : '\\' ∉ list) (hstops : StopsIn whole list) {name : Text}
    (h : .className name ∈ listFindings list) :
    IsUnescaped name ∧ StopsIn whole ('.' :: name) := by
  obtain ⟨selector, hselector, hfound⟩ := List.mem_flatMap.1 h
  obtain ⟨part, hpart, rfl⟩ := List.mem_map.1 (List.mem_filter.1 hselector).1
  obtain ⟨hwithin, hpartStops⟩ := Selector.stopsIn_of_mem_splitCommas hstops hpart
  obtain ⟨htrim, hstops⟩ := hpartStops.trim fun c hc => hascii c (hwithin.subset hc)
  unfold selectorFindings at hfound
  split at hfound
  · rename_i names hnames
    obtain ⟨other, hother, hname⟩ := List.mem_map.1 hfound
    cases hname
    exact Selector.stopsIn_of_classesFrom
      (fun hmem => hescape ((htrim.trans hwithin).subset hmem)) hnames hstops hother
  · cases List.mem_singleton.1 hfound

/-! ## Names in the masked text -/

/-- The header of a rule stops at the brace behind it. -/
theorem stopsIn_of_nextSpan? {shown raw : Text} {cursor : Nat} {span : RuleSpan}
    (h : nextSpan? shown cursor = some (some span))
    (hraw : shown.slice? span.start span.opening = some raw) : StopsIn shown raw := by
  obtain ⟨rest, hrest, h⟩ := Option.bind_eq_some_iff.1 h
  split at h
  · cases h
  · rename_i lead hlead
    obtain ⟨block, -, h⟩ := Option.bind_eq_some_iff.1 h
    split at h
    · cases h
    · obtain ⟨front, -, h⟩ := Option.bind_eq_some_iff.1 h
      cases h
      obtain ⟨before, c, behind, rfl, hc, rfl⟩ := Text.exists_of_offsetOf? hlead
      obtain rfl : c = '{' := eq_of_beq hc
      obtain ⟨done, last, hdone, rfl, hsize⟩ := Text.slice?_eq_some_iff.1 hrest
      obtain ⟨lead, back, rfl, -, hopening⟩ := Text.slice?_eq_some_iff.1 hraw
      -- Both cuts are at the brace, so the same text follows.
      have hcut : lead ++ raw ++ back = done ++ before ++ '{' :: (behind ++ last) := by
        rw [hdone]
        simp
      obtain ⟨-, rfl⟩ := Text.append_inj_of_byteSize hcut
        (hopening.trans (Text.byteSize_append done before).symm)
      exact ⟨'{', rfl, lead, behind ++ last, by simp⟩

theorem exists_of_read? {shown source list : Text} {span : RuleSpan}
    (h : Header.read? shown source span = some (.selectors list)) :
    ∃ raw, shown.slice? span.start span.opening = some raw ∧ list = Text.trim raw := by
  obtain ⟨raw, hraw, h⟩ := Option.bind_eq_some_iff.1 h
  refine ⟨raw, hraw, ?_⟩
  simp only at h
  split at h
  · split at h
    · obtain ⟨_, -, h⟩ := Option.bind_eq_some_iff.1 h
      cases h
    · cases h
  · exact (Header.selectors.inj (Option.some.inj h)).symm

theorem isInfix_of_slice? {text part : Text} {start stop : Nat}
    (h : text.slice? start stop = some part) : part <:+: text := by
  obtain ⟨front, back, rfl, -⟩ := Text.slice?_eq_some_iff.1 h
  exact ⟨front, back, rfl⟩

/-- A visit finds the classes that its header lists. -/
theorem Visit.exists_of_className_mem {visit : Visit} {name : Text}
    (h : .className name ∈ visit.findings) :
    ∃ span list, visit.rule = some (span, .selectors list) ∧
      .className name ∈ listFindings list := by
  unfold findings at h
  split at h
  · cases h
  · rename_i span header hrule
    cases header with
    | keyframes text =>
      simp only [Header.findings] at h
      split at h
      · cases h
      · cases List.mem_singleton.1 h
    | grouping => cases h
    | selectors list => exact ⟨span, list, hrule, h⟩

/-- The classes that are found in a masked text stand in it behind dots, up to where they stop. -/
theorem stopsIn_of_visitsFrom? {base : Nat} {shown source : Text} {cursor : Nat}
    {visits : List Visit} (hascii : ∀ c ∈ shown, Text.isAscii c = true) (hescape : '\\' ∉ shown)
    (h : visitsFrom? base shown source cursor = some visits) {visit : Visit}
    (hvisit : visit ∈ visits) {name : Text} (hname : .className name ∈ visit.findings) :
    IsUnescaped name ∧ StopsIn shown ('.' :: name) := by
  induction hsize : shown.byteSize - cursor using Nat.strongRecOn
    generalizing base shown source cursor visits with
  | ind size ih =>
    obtain rfl | ⟨span, header, inside, later, hcursor, hspan, hheader, hlater, rfl, hblock⟩ :=
      exists_of_visitsFrom? h
    · obtain rfl := List.mem_singleton.1 hvisit
      cases hname
    have hle := le_of_nextSpan? hspan
    rcases List.mem_cons.1 hvisit with rfl | hvisit
    · obtain ⟨_, list, hrule, hlisted⟩ := Visit.exists_of_className_mem hname
      cases hrule
      obtain ⟨raw, hraw, rfl⟩ := exists_of_read? hheader
      have hpart := isInfix_of_slice? hraw
      obtain ⟨htrim, hstops⟩ := (stopsIn_of_nextSpan? hspan hraw).trim
        fun c hc => hascii c (hpart.subset hc)
      have hlist := htrim.trans hpart
      exact stopsIn_of_listFindings (fun c hc => hascii c (hlist.subset hc))
        (fun hmem => hescape (hlist.subset hmem)) hstops hlisted
    · rcases List.mem_append.1 hvisit with hvisit | hvisit
      · obtain rfl | ⟨inner, innerSource, hinner, hinside⟩ := hblock
        · cases hvisit
        have hpart := isInfix_of_slice? hinner
        have hshorter := byteSize_of_slice? hinner
        obtain ⟨hplain, hstops⟩ := ih _ (by omega) (fun c hc => hascii c (hpart.subset hc))
          (fun hmem => hescape (hpart.subset hmem)) hinside hvisit rfl
        exact ⟨hplain, hstops.mono hpart⟩
      · exact ih _ (by omega) hascii hescape hlater hvisit rfl

theorem stopsIn_of_findings? {shown source : Text} {found : List Finding}
    (hascii : ∀ c ∈ shown, Text.isAscii c = true) (hescape : '\\' ∉ shown)
    (h : findings? shown source = some found) {name : Text} (hname : .className name ∈ found) :
    IsUnescaped name ∧ StopsIn shown ('.' :: name) := by
  obtain ⟨visits, hvisits, rfl⟩ := Option.map_eq_some_iff.1 h
  obtain ⟨visit, hvisit, hname⟩ := List.mem_flatMap.1 hname
  exact stopsIn_of_visitsFrom? hascii hescape hvisits hvisit hname

/-! ## Names in the source -/

/-- What the masked text shows up to a stop stands so in the source, with a stop of its own. -/
theorem exists_stop_of_masked {lexemes : List Lexeme}
    (hformed : ∀ lexeme ∈ lexemes, lexeme.WellFormed) {name : Text}
    (hname : ∀ c ∈ name, Selector.isNameChar c = true) {stop : Char}
    (hstop : Selector.isNameChar stop = false)
    (h : name ++ [stop] <+: lexemes.flatMap Lexeme.masked) :
    ∃ other, Selector.isNameChar other = false ∧
      name ++ [other] <+: lexemes.flatMap Lexeme.source := by
  induction lexemes generalizing name with
  | nil => exact absurd (List.prefix_nil.1 h) (by simp)
  | cons lexeme lexemes ih =>
    obtain ⟨hlexeme, hlexemes⟩ := List.forall_mem_cons.1 hformed
    -- A comment or a string starts with a stop in the source and where it is shown.
    have hblock {mark shown : Char} {masked source : Text}
        (hmark : Selector.isNameChar mark = false) (hshown : Selector.isNameChar shown = false)
        (h : name ++ [stop] <+: shown :: masked) :
        ∃ other, Selector.isNameChar other = false ∧ name ++ [other] <+: mark :: source := by
      cases name with
      | nil => exact ⟨mark, hmark, List.prefix_append [mark] source⟩
      | cons c name =>
        obtain ⟨rfl, -⟩ := List.cons_prefix_cons.1 h
        rw [hname c List.mem_cons_self] at hshown
        cases hshown
    cases lexeme with
    | char c =>
      cases name with
      | nil =>
        obtain ⟨rfl, -⟩ := List.cons_prefix_cons.1 h
        exact ⟨stop, hstop, List.prefix_append [stop] _⟩
      | cons d name =>
        obtain ⟨rfl, hrest⟩ := List.cons_prefix_cons.1 h
        obtain ⟨other, hother, hfound⟩ := ih hlexemes (List.forall_mem_cons.1 hname).2 hrest
        exact ⟨other, hother, (List.prefix_cons_inj d).2 hfound⟩
    | comment content => exact @hblock '/' ' ' _ _ rfl rfl h
    | string quote content =>
      have hquote : Selector.isNameChar quote = false := by
        rcases hlexeme.1 with rfl | rfl
        all_goals rfl
      exact hblock hquote hquote h

theorem isInfix_of_not_mem {c : Char} {front part back : Text} (hc : c ∉ front)
    (h : c :: part <:+: front ++ back) : c :: part <:+: back := by
  induction front with
  | nil => exact h
  | cons d front ih =>
    obtain ⟨hne, hfront⟩ := not_or.1 (mt List.mem_cons.2 hc)
    rcases List.infix_cons_iff.1 h with h | h
    · exact absurd (List.cons_prefix_cons.1 h).1 hne
    · exact ih hfront h

/-- No dot is shown of a comment or string. -/
theorem Lexeme.dot_not_mem_masked {lexeme : Lexeme} (hformed : lexeme.WellFormed)
    (h : lexeme.isChar = false) : '.' ∉ lexeme.masked := by
  intro hdot
  cases lexeme with
  | char c => cases h
  | comment content =>
    obtain ⟨c, -, hblank⟩ := List.mem_flatMap.1 hdot
    exact absurd (List.eq_of_mem_replicate hblank) (by decide)
  | string quote content =>
    have hquote : '.' ≠ quote := by
      rcases hformed.1 with rfl | rfl
      all_goals decide
    rcases List.mem_cons.1 hdot with hdot | hdot
    · exact hquote hdot
    · rcases List.mem_append.1 hdot with hdot | hdot
      · obtain ⟨c, -, hstruck⟩ := List.mem_map.1 hdot
        exact struckChar_ne (by decide) hstruck
      · exact hquote (List.mem_singleton.1 hdot)

/-- What is shown of a lexeme is a blank, a stroke or a character of its source. -/
theorem Lexeme.mem_masked {lexeme : Lexeme} {c : Char} (h : c ∈ lexeme.masked) :
    c = ' ' ∨ c = '_' ∨ c ∈ lexeme.source := by
  cases lexeme with
  | char d => exact .inr (.inr h)
  | comment content =>
    obtain ⟨d, -, hblank⟩ := List.mem_flatMap.1 h
    exact .inl (List.eq_of_mem_replicate hblank)
  | string quote content =>
    rcases List.mem_cons.1 h with rfl | h
    · exact .inr (.inr List.mem_cons_self)
    · rcases List.mem_append.1 h with h | h
      · obtain ⟨d, hd, rfl⟩ := List.mem_map.1 h
        unfold struckChar
        split
        · exact .inr (.inl rfl)
        · exact .inr (.inr (List.mem_cons_of_mem _ (List.mem_append_left _ hd)))
      · exact .inr (.inr (List.mem_cons_of_mem _ (List.mem_append_right _ h)))

theorem stopsIn_of_masked {lexemes : List Lexeme}
    (hformed : ∀ lexeme ∈ lexemes, lexeme.WellFormed) {name : Text}
    (hname : ∀ c ∈ name, Selector.isNameChar c = true)
    (h : StopsIn (lexemes.flatMap Lexeme.masked) ('.' :: name)) :
    StopsIn (lexemes.flatMap Lexeme.source) ('.' :: name) := by
  obtain ⟨stop, hstop, h⟩ := h
  induction lexemes with
  | nil => exact absurd (List.infix_nil.1 h) (by simp)
  | cons lexeme lexemes ih =>
    obtain ⟨hlexeme, hlexemes⟩ := List.forall_mem_cons.1 hformed
    have hbehind : '.' :: name ++ [stop] <:+: lexemes.flatMap Lexeme.masked →
        StopsIn ((lexeme :: lexemes).flatMap Lexeme.source) ('.' :: name) :=
      fun hrest => (ih hlexemes hrest).mono (List.suffix_append _ _).isInfix
    cases hchar : lexeme.isChar with
    | false => exact hbehind (isInfix_of_not_mem (lexeme.dot_not_mem_masked hlexeme hchar) h)
    | true =>
      obtain ⟨c, rfl⟩ := Lexeme.exists_of_isChar hchar
      rcases List.infix_cons_iff.1 h with h | h
      · obtain ⟨rfl, hrest⟩ := List.cons_prefix_cons.1 h
        obtain ⟨other, hother, hfound⟩ := exists_stop_of_masked hlexemes hname hstop hrest
        exact ⟨other, hother, ((List.prefix_cons_inj '.').2 hfound).isInfix⟩
      · exact hbehind h

end ClassAudit.Css
