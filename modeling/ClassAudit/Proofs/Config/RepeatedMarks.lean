import ClassAudit.Config.IgnorePattern
import ClassAudit.Pattern.Parser
import ClassAudit.Proofs.Pattern.Occurrences
/-!
# Patterns that look nested

The look of a repeated repetition is searched with an expression of two
branches.  Every word of the first branch ends in a word of the second, so the
search comes down to counting: a line with two marks of repetition has a word
of the second branch, and no word crosses the end of a line.  The patterns that
are kept are then told by counting as well.

The library of regular expressions is any that searches the shape as it is
written.  Nothing is asked of it for other patterns.
-/

namespace ClassAudit.IgnorePattern

open Regex

/-- Whether a character is a mark of repetition. -/
def isRepetition (c : Char) : Bool :=
  c == '+' || c == '*'

/-- Any part of a line. -/
def linePart : Regex Char :=
  star (item (Pattern.CharSet.dot {}))

/-- A group with a mark of repetition in it and one behind it. -/
def repeatedGroup : Regex Char :=
  concat [symbol '(', linePart, item isRepetition, linePart, symbol ')', item isRepetition]

/-- Two marks of repetition on one line. -/
def repetitionPair : Regex Char :=
  concat [item isRepetition, linePart, item isRepetition]

/-- The expression that the shape writes. -/
def nestedShape : Regex Char :=
  alt repeatedGroup repetitionPair

/-- A library searches the shape as it is written: a dot is any character but a line break, and a
match may stand anywhere. -/
def ReadsShape (read? : PatternReader) : Prop :=
  read? shapeSource = some nestedShape.occursIn

/-- The pattern opens a group and has both marks of repetition, and two marks stand on one line. -/
def RepeatsOnLine (source : Text) : Prop :=
  '(' ∈ source ∧ '+' ∈ source ∧ '*' ∈ source ∧
    ∃ line ∈ source.splitOn '\n', 2 ≤ line.countP isRepetition

instance (source : Text) : Decidable (RepeatsOnLine source) :=
  inferInstanceAs (Decidable (_ ∧ _ ∧ _ ∧ _))

variable {read? : PatternReader}

/-! ## The words of the two branches -/

theorem mem_language_linePart {word : Text} : word ∈ linePart.language ↔ '\n' ∉ word := by
  unfold linePart
  rw [mem_language_star_item]
  constructor
  · intro htest hmem
    exact absurd (htest '\n' hmem) (by decide)
  · intro hline c hmem
    have hne : c ≠ '\n' := fun heq => hline (heq ▸ hmem)
    simp [Pattern.CharSet.dot, hne]

theorem mem_language_repetitionPair {word : Text} :
    word ∈ repetitionPair.language ↔ ∃ first middle last, isRepetition first = true ∧
      isRepetition last = true ∧ '\n' ∉ middle ∧ word = first :: (middle ++ [last]) := by
  unfold repetitionPair
  rw [language_concat]
  simp only [List.map_cons, List.map_nil, List.prod_cons, List.prod_nil, mul_one]
  constructor
  · intro hword
    obtain ⟨_, ⟨first, hfirst, rfl⟩, _, hrest, rfl⟩ := Language.mem_mul.1 hword
    obtain ⟨middle, hmiddle, _, ⟨last, hlast, rfl⟩, rfl⟩ := Language.mem_mul.1 hrest
    exact ⟨first, middle, last, hfirst, hlast, mem_language_linePart.1 hmiddle, rfl⟩
  · rintro ⟨first, middle, last, hfirst, hlast, hmiddle, rfl⟩
    have hrest : middle ++ [last] ∈ linePart.language * (item isRepetition).language :=
      Language.append_mem_mul (mem_language_linePart.2 hmiddle) ⟨last, hlast, rfl⟩
    exact Language.append_mem_mul (a := [first]) ⟨first, hfirst, rfl⟩ hrest

/-- A repeated group ends in two marks on one line: the one in the group and the one behind it. -/
theorem exists_pair_suffix_of_repeatedGroup {word : Text} (h : word ∈ repeatedGroup.language) :
    ∃ part ∈ repetitionPair.language, part <:+ word := by
  unfold repeatedGroup at h
  rw [language_concat] at h
  simp only [List.map_cons, List.map_nil, List.prod_cons, List.prod_nil, mul_one] at h
  obtain ⟨opening, -, _, hbehind, rfl⟩ := Language.mem_mul.1 h
  obtain ⟨front, -, _, hpair, rfl⟩ := Language.mem_mul.1 hbehind
  obtain ⟨_, ⟨first, hfirst, rfl⟩, _, hrest, rfl⟩ := Language.mem_mul.1 hpair
  obtain ⟨middle, hmiddle, _, hend, rfl⟩ := Language.mem_mul.1 hrest
  obtain ⟨_, ⟨closing, hclosing, rfl⟩, _, ⟨last, hlast, rfl⟩, rfl⟩ := Language.mem_mul.1 hend
  have hline : '\n' ∉ middle ++ [closing] := by
    rw [List.mem_append, List.mem_singleton, beq_iff_eq.1 hclosing]
    exact not_or.2 ⟨mem_language_linePart.1 hmiddle, by decide⟩
  refine ⟨first :: (middle ++ [closing] ++ [last]),
    mem_language_repetitionPair.2 ⟨first, _, last, hfirst, hlast, hline, rfl⟩, opening ++ front, ?_⟩
  simp

theorem occursIn_repetitionPair_iff {text : Text} :
    repetitionPair.occursIn text = true ↔ ∃ word ∈ repetitionPair.language, word <:+: text :=
  occursIn_iff_exists_word rfl

/-- Where a repeated group occurs, two marks stand on one line. -/
theorem occursIn_repetitionPair_of_repeatedGroup {text : Text}
    (h : repeatedGroup.occursIn text = true) : repetitionPair.occursIn text = true := by
  obtain ⟨word, hword, hwithin⟩ := (occursIn_iff_exists_word rfl).1 h
  obtain ⟨part, hpart, hsuffix⟩ := exists_pair_suffix_of_repeatedGroup hword
  exact occursIn_repetitionPair_iff.2 ⟨part, hpart, hsuffix.isInfix.trans hwithin⟩

theorem occursIn_nestedShape (text : Text) :
    nestedShape.occursIn text = repetitionPair.occursIn text := by
  rw [Bool.eq_iff_iff, occursIn_iff_exists_word rfl]
  constructor
  · rintro ⟨word, hword | hword, hwithin⟩
    · exact occursIn_repetitionPair_of_repeatedGroup
        ((occursIn_iff_exists_word rfl).2 ⟨word, hword, hwithin⟩)
    · exact occursIn_repetitionPair_iff.2 ⟨word, hword, hwithin⟩
  · intro hpair
    obtain ⟨word, hword, hwithin⟩ := occursIn_repetitionPair_iff.1 hpair
    exact ⟨word, .inr hword, hwithin⟩

/-! ## Counting on lines -/

theorem line_induction {motive : Text → Prop} (last : ∀ line, '\n' ∉ line → motive line)
    (more : ∀ line rest, '\n' ∉ line → motive rest → motive (line ++ '\n' :: rest))
    (text : Text) : motive text := by
  induction hlength : text.length using Nat.strong_induction_on generalizing text with
  | _ length ih =>
    by_cases hbreak : '\n' ∈ text
    · obtain ⟨line, rest, rfl, hline⟩ := List.eq_append_cons_of_mem hbreak
      refine more line rest hline (ih rest.length ?_ rest rfl)
      rw [← hlength, List.length_append, List.length_cons]
      omega
    · exact last text hbreak

theorem two_le_countP_iff {test : Char → Bool} {text : Text} :
    2 ≤ text.countP test ↔ ∃ first middle last, test first = true ∧ test last = true ∧
      first :: (middle ++ [last]) <:+: text := by
  constructor
  · intro hcount
    induction text with
    | nil => cases hcount
    | cons c text ih =>
      by_cases hc : test c = true
      · rw [List.countP_cons_of_pos hc] at hcount
        obtain ⟨last, hmem, hlast⟩ := List.countP_pos_iff.1 (Nat.le_of_succ_le_succ hcount)
        obtain ⟨middle, back, rfl⟩ := List.append_of_mem hmem
        exact ⟨c, middle, last, hc, hlast, [], back, by simp⟩
      · rw [List.countP_cons_of_neg hc] at hcount
        obtain ⟨first, middle, last, hfirst, hlast, hwithin⟩ := ih hcount
        exact ⟨first, middle, last, hfirst, hlast, List.infix_cons hwithin⟩
  · rintro ⟨first, middle, last, hfirst, hlast, front, back, rfl⟩
    simp only [List.countP_append, List.countP_cons_of_pos hfirst, List.countP_singleton, hlast,
      if_true]
    omega

/-- A line has a word of two marks when it has two marks. -/
theorem exists_pair_infix_iff_of_line {line : Text} (hline : '\n' ∉ line) :
    (∃ word ∈ repetitionPair.language, word <:+: line) ↔ 2 ≤ line.countP isRepetition := by
  rw [two_le_countP_iff]
  constructor
  · rintro ⟨word, hword, hwithin⟩
    obtain ⟨first, middle, last, hfirst, hlast, -, rfl⟩ := mem_language_repetitionPair.1 hword
    exact ⟨first, middle, last, hfirst, hlast, hwithin⟩
  · rintro ⟨first, middle, last, hfirst, hlast, hwithin⟩
    have hmiddle : '\n' ∉ middle := fun hmem => hline (hwithin.subset (by simp [hmem]))
    exact ⟨_, mem_language_repetitionPair.2 ⟨first, middle, last, hfirst, hlast, hmiddle, rfl⟩,
      hwithin⟩

theorem break_not_mem_pair {word : Text} (h : word ∈ repetitionPair.language) : '\n' ∉ word := by
  obtain ⟨first, middle, last, hfirst, hlast, hmiddle, rfl⟩ := mem_language_repetitionPair.1 h
  have hmark : ∀ c, isRepetition c = true → '\n' ≠ c := by
    rintro c hc rfl
    exact absurd hc (by decide)
  simp [hmark first hfirst, hmark last hlast, hmiddle]

/-- Two marks on one line are found by looking at the lines one by one. -/
theorem occursIn_repetitionPair_iff_line {text : Text} :
    repetitionPair.occursIn text = true ↔
      ∃ line ∈ text.splitOn '\n', 2 ≤ line.countP isRepetition := by
  rw [occursIn_repetitionPair_iff]
  induction text using line_induction with
  | last line hline =>
    rw [List.splitOn_eq_singleton hline, exists_pair_infix_iff_of_line hline]
    simp
  | more line rest hline ih =>
    rw [List.splitOn_append_cons_self_of_not_mem hline, List.exists_mem_cons_iff, ← ih,
      ← exists_pair_infix_iff_of_line hline, ← exists_or]
    refine exists_congr fun word => ?_
    rw [← and_or_left]
    refine and_congr_right fun hword => Text.infix_mark_iff (break_not_mem_pair hword) ?_ line rest
    obtain ⟨_, _, _, -, -, -, rfl⟩ := mem_language_repetitionPair.1 hword
    exact List.cons_ne_nil _ _

theorem looksNested_iff (h : ReadsShape read?) {source : Text} :
    looksNested read? source = true ↔ RepeatsOnLine source := by
  unfold looksNested RepeatsOnLine
  rw [h, Option.any_some, occursIn_nestedShape, Bool.and_eq_true, Bool.and_eq_true,
    Bool.and_eq_true, occursIn_repetitionPair_iff_line, List.contains_iff_mem,
    List.contains_iff_mem, List.contains_iff_mem, and_assoc, and_assoc]

/-- On one line both marks are two marks. -/
theorem two_le_countP_of_both {text : Text} (hplus : '+' ∈ text) (hstar : '*' ∈ text) :
    2 ≤ text.countP isRepetition := by
  obtain ⟨front, back, rfl⟩ := List.append_of_mem hplus
  have hmark : '*' ∈ front ∨ '*' ∈ back := by simpa using hstar
  have hcount : 0 < front.countP isRepetition ∨ 0 < back.countP isRepetition :=
    hmark.imp (fun h => List.countP_pos_iff.2 ⟨'*', h, rfl⟩)
      fun h => List.countP_pos_iff.2 ⟨'*', h, rfl⟩
  rw [List.countP_append, List.countP_cons_of_pos rfl]
  omega

theorem repeatsOnLine_iff_of_line {source : Text} (hline : '\n' ∉ source) :
    RepeatsOnLine source ↔ '(' ∈ source ∧ '+' ∈ source ∧ '*' ∈ source := by
  unfold RepeatsOnLine
  rw [List.splitOn_eq_singleton hline]
  constructor
  · rintro ⟨hopen, hplus, hstar, -⟩
    exact ⟨hopen, hplus, hstar⟩
  · rintro ⟨hopen, hplus, hstar⟩
    exact ⟨hopen, hplus, hstar, source, List.mem_singleton_self source,
      two_le_countP_of_both hplus hstar⟩

/-! ## The patterns that are kept -/

theorem compile?_eq_some_iff (h : ReadsShape read?) {source : Text} {pattern : IgnorePattern} :
    compile? read? source = some pattern ↔
      ¬RepeatsOnLine source ∧ read? source = some pattern.isMatch ∧ pattern.source = source := by
  unfold compile?
  by_cases hlook : looksNested read? source = true
  · simp [hlook, (looksNested_iff h).1 hlook]
  · rw [if_neg hlook, and_iff_right (mt (looksNested_iff h).2 hlook), Option.map_eq_some_iff]
    constructor
    · rintro ⟨isMatch, hread, rfl⟩
      exact ⟨hread, rfl⟩
    · rintro ⟨hread, rfl⟩
      exact ⟨pattern.isMatch, hread, rfl⟩

theorem map_source_compile? (h : ReadsShape read?) (source : Text) :
    (compile? read? source).map IgnorePattern.source = Option.guard
      (fun source => ¬RepeatsOnLine source ∧ (read? source).isSome = true) source := by
  refine Option.ext fun kept => ?_
  rw [Option.map_eq_some_iff, Option.guard_eq_some_iff, decide_eq_true_iff]
  constructor
  · rintro ⟨pattern, hcompile, rfl⟩
    obtain ⟨hlook, hread, rfl⟩ := (compile?_eq_some_iff h).1 hcompile
    exact ⟨rfl, hlook, Option.isSome_of_eq_some hread⟩
  · rintro ⟨rfl, hlook, hread⟩
    obtain ⟨isMatch, hmatch⟩ := Option.isSome_iff_exists.1 hread
    exact ⟨⟨source, isMatch⟩, (compile?_eq_some_iff h).2 ⟨hlook, hmatch, rfl⟩, rfl⟩

/-- A pattern is dropped for its look when it opens a group, has both marks of repetition and has
two marks on one line; the branch for groups finds nothing more.  The patterns without this look
that the library reads are kept in order, each with the test it gives, as if it stood alone. -/
theorem looksNested_iff_and_compileAll_keeps (read? : PatternReader) (h : ReadsShape read?)
    (source : Text) (sources : List Text) :
    (looksNested read? source = true ↔ RepeatsOnLine source) ∧
    ((repeatedGroup.occursIn source = true → repetitionPair.occursIn source = true) ∧
      nestedShape.occursIn source = repetitionPair.occursIn source) ∧
    ('\n' ∉ source →
      (looksNested read? source = true ↔ '(' ∈ source ∧ '+' ∈ source ∧ '*' ∈ source)) ∧
    (compileAll read? sources).map IgnorePattern.source =
      sources.filter (fun source => ¬RepeatsOnLine source ∧ (read? source).isSome = true) ∧
    (∀ pattern ∈ compileAll read? sources, read? pattern.source = some pattern.isMatch) ∧
    compileAll read? sources = sources.flatMap fun source => compileAll read? [source] := by
  refine ⟨looksNested_iff h,
    ⟨occursIn_repetitionPair_of_repeatedGroup, occursIn_nestedShape source⟩, ?_, ?_, ?_, ?_⟩
  · intro hline
    exact (looksNested_iff h).trans (repeatsOnLine_iff_of_line hline)
  · unfold compileAll
    rw [List.map_filterMap, ← List.filterMap_eq_filter]
    exact congrArg (List.filterMap · sources) (funext (map_source_compile? h))
  · intro pattern hmem
    obtain ⟨source, -, hcompile⟩ := List.mem_filterMap.1 hmem
    obtain ⟨-, hread, rfl⟩ := (compile?_eq_some_iff h).1 hcompile
    exact hread
  · unfold compileAll
    induction sources with
    | nil => rfl
    | cons source sources ih =>
      rw [List.flatMap_cons, ← ih, ← List.filterMap_append]
      rfl

theorem parse?_shapeSource : Pattern.parse? shapeSource =
    some (choice [concat [repeatedGroup], concat [repetitionPair]]) := by
  rfl

theorem readsShape_finder? : ReadsShape Pattern.finder? := by
  unfold ReadsShape Pattern.finder?
  rw [parse?_shapeSource, Option.map_some]
  refine congrArg some (funext fun text => ?_)
  rw [Bool.eq_iff_iff, occursIn_iff_exists_word rfl, occursIn_iff_exists_word rfl]
  simp [choice, concat, nestedShape, language]

theorem looksNested_iff_and_compileAll_keeps_finder :
    ReadsShape Pattern.finder? ∧ RepeatsOnLine "(a+)*".toList ∧
      looksNested Pattern.finder? "(a+)*".toList = true ∧
      (compileAll Pattern.finder? (Text.table ["(a+)*", "(a+\n)*", "([a-z", "^js-.*$"])).map
        IgnorePattern.source = Text.table ["(a+\n)*", "^js-.*$"] := by
  have hlook : RepeatsOnLine "(a+)*".toList := by decide
  obtain ⟨hnested, -, -, hkept, -⟩ := looksNested_iff_and_compileAll_keeps Pattern.finder?
    readsShape_finder? "(a+)*".toList (Text.table ["(a+)*", "(a+\n)*", "([a-z", "^js-.*$"])
  refine ⟨readsShape_finder?, hlook, hnested.2 hlook, hkept.trans ?_⟩
  decide +kernel

end ClassAudit.IgnorePattern
