import ClassAudit.Utility.Grammar
/-!
# Where a utility class may be cut

A base may have several hyphens at which the table accepts a stem and a suffix.
Whether such a pair takes an opacity is the same for all of them, and a whole
entry of the table has no cut that takes one.

Arbitrary values are told apart by their brackets, which no name or listed
suffix holds.  For the other suffixes only the listed ones and the shaded
colours have a hyphen of their own, and those are checked row by row.
-/

namespace ClassAudit.Utility

open Vocabulary UtilityTable

theorem mem_dashSplits {text front back : Text} :
    (front, back) ∈ dashSplits text ↔ text = front ++ '-' :: back := by
  induction text generalizing front with
  | nil => simp [dashSplits]
  | cons c rest ih =>
    have hlater : (front, back) ∈ (dashSplits rest).map (fun parts => (c :: parts.1, parts.2)) ↔
        ∃ tail, front = c :: tail ∧ rest = tail ++ '-' :: back := by
      simp only [List.mem_map, Prod.exists, Prod.mk.injEq]
      constructor
      · rintro ⟨tail, last, hmem, rfl, rfl⟩
        exact ⟨tail, rfl, ih.1 hmem⟩
      · rintro ⟨tail, rfl, hrest⟩
        exact ⟨tail, back, ih.2 hrest, rfl, rfl⟩
    unfold dashSplits
    by_cases hc : c = '-'
    · subst hc
      simp only [if_true, List.mem_cons, Prod.mk.injEq, hlater]
      cases front with
      | nil => simp [eq_comm]
      | cons d tail => simp [eq_comm, and_assoc]
    · simp only [if_neg hc, hlater]
      cases front with
      | nil => simp [hc]
      | cons d tail => simp [eq_comm, and_assoc]

/-! ## The rows of the table -/

/-- The stems that take colours, with their suffixes. -/
def colorStems : List (Text × Suffixes) :=
  entries.filterMap fun row =>
    match row.2 with
    | .stem suffixes => if suffixes.colors then some (row.1, suffixes) else none
    | .alone => none

/-- The names that are whole utility classes. -/
def completeNames : List Text :=
  (entries.filter fun row =>
    match row.2 with
    | .stem suffixes => suffixes.lists []
    | .alone => true).map Prod.fst

/-- The suffixes that a row lists. -/
def listedIn : Entry → List Text
  | .stem suffixes => suffixes.values
  | .alone => []

theorem mem_entries_of_suffixes? {stem : Text} {suffixes : Suffixes}
    (h : suffixes? stem = some suffixes) : (stem, .stem suffixes) ∈ entries := by
  unfold suffixes? at h
  split at h
  · rename_i found hentry
    obtain rfl := Option.some.inj h
    obtain ⟨front, rest, hentries, -⟩ := List.lookup_eq_some_iff.1 hentry
    rw [hentries]
    simp
  · cases h

theorem mem_colorStems {stem : Text} {suffixes : Suffixes} (h : suffixes? stem = some suffixes)
    (hcolors : suffixes.colors = true) : (stem, suffixes) ∈ colorStems := by
  refine List.mem_filterMap.2 ⟨_, mem_entries_of_suffixes? h, ?_⟩
  simp [hcolors]

theorem mem_completeNames {name : Text} (h : isComplete name = true) :
    name ∈ completeNames := by
  unfold isComplete at h
  unfold completeNames
  cases hentry : entry? name with
  | none => rw [hentry] at h; cases h
  | some entry =>
    obtain ⟨front, rest, hentries, -⟩ := List.lookup_eq_some_iff.1 hentry
    refine List.mem_map.2 ⟨(name, entry), List.mem_filter.2 ⟨by rw [hentries]; simp, ?_⟩, rfl⟩
    rw [hentry] at h
    cases entry <;> exact h

set_option maxRecDepth 10000 in
/-- What is checked row by row: no name opens a bracket or ends in a colour family, no listed suffix
closes a bracket, and the stems that take colours are not cut short or extended by a listed
suffix, nor part of a whole entry. -/
theorem table_checks :
    (∀ row ∈ entries, ('[' ∉ row.1 ∧ '(' ∉ row.1) ∧
      (∀ parts ∈ dashSplits row.1, parts.2 ∉ colorFamilies) ∧
      ∀ value ∈ listedIn row.2, ']' ∉ value ∧ ')' ∉ value) ∧
    ∀ row ∈ colorStems,
      (∀ value ∈ row.2.values, ∀ parts ∈ dashSplits value,
        suffixes? (row.1 ++ '-' :: parts.1) = none) ∧
      (∀ parts ∈ dashSplits row.1, ∀ suffixes ∈ suffixes? parts.1,
        ∀ value ∈ suffixes.values, value.after? (parts.2 ++ ['-']) = none) ∧
      ∀ name ∈ completeNames, ∀ suffix ∈ name.after? (row.1 ++ ['-']),
        allowsSuffix row.1 suffix = false := by
  decide +kernel

set_option maxRecDepth 10000 in
theorem arbitraryStems_unbracketed : ∀ stem ∈ arbitraryStems, '[' ∉ stem ∧ '(' ∉ stem := by
  decide +kernel

/-! ## Suffixes -/

/-- A text with one hyphen has one cut. -/
theorem eq_of_single_dash {front back mid last : Text} (hfront : '-' ∉ front) (hback : '-' ∉ back)
    (h : mid ++ '-' :: last = front ++ '-' :: back) : mid = front := by
  rcases List.append_eq_append_iff.1 h with ⟨extra, hextra, hrest⟩ | ⟨extra, hextra, hrest⟩
  · cases extra with
    | nil => rw [hextra, List.append_nil]
    | cons c extra =>
      obtain ⟨rfl, -⟩ := List.cons.inj hrest
      exact absurd (by rw [hextra]; simp) hfront
  · cases extra with
    | nil => rw [hextra, List.append_nil]
    | cons c extra =>
      obtain ⟨-, hrest⟩ := List.cons.inj hrest
      exact absurd (by rw [hrest]; simp) hback

theorem exists_family_of_isShadedColor {word : Text} (h : isShadedColor word = true) :
    ∃ family ∈ colorFamilies, ∃ shade ∈ colorShades, word = family ++ '-' :: shade := by
  unfold isShadedColor at h
  split at h
  · rename_i family shade hcut
    rw [Bool.and_eq_true, List.contains_iff_mem, List.contains_iff_mem] at h
    exact ⟨family, h.1, shade, h.2, (Text.cutLast?_eq_some_iff.1 hcut).1⟩
  · cases h

/-- A suffix without a hyphen and without a closing bracket. -/
def IsAtomic (suffix : Text) : Prop :=
  ∀ c ∈ suffix, c ≠ '-' ∧ c ≠ ']' ∧ c ≠ ')'

theorem isAtomic_of_mem {words : List Text} {word : Text}
    (hwords : ∀ word ∈ words, IsAtomic word) (h : words.contains word = true) : IsAtomic word :=
  hwords word (List.contains_iff_mem.1 h)

theorem isAtomic_of_digits {word : Text} (h : word.all Char.isDigit = true) : IsAtomic word := by
  intro c hc
  have hdigit := List.all_eq_true.1 h c hc
  refine ⟨?_, ?_, ?_⟩ <;>
  · rintro rfl
    exact absurd hdigit (by decide)

theorem isAtomic_of_isFraction {word : Text} (h : isFraction word = true) : IsAtomic word := by
  unfold isFraction at h
  split at h
  · rename_i above below hcut
    obtain ⟨rfl, -⟩ := Text.cut?_eq_some_iff.1 hcut
    rw [Bool.and_eq_true] at h
    unfold isDigits at h
    simp only [Bool.and_eq_true] at h
    intro c hc
    rcases List.mem_append.1 hc with hc | hc
    · exact isAtomic_of_digits h.1.2 c hc
    · rcases List.mem_cons.1 hc with rfl | hc
      · decide
      · exact isAtomic_of_digits h.2.2 c hc
  · cases h

/-- A suffix that is no arbitrary value is listed, a shaded colour, or atomic. -/
theorem allowsSuffix_cases {stem suffix : Text} (h : allowsSuffix stem suffix = true)
    (harbitrary : isArbitraryValue suffix = false) :
    ∃ suffixes, suffixes? stem = some suffixes ∧
      (suffix ∈ suffixes.values ∨ suffixes.colors = true ∧ isShadedColor suffix = true ∨
        IsAtomic suffix) := by
  have hspacing : ∀ word ∈ spacing, IsAtomic word := by unfold IsAtomic; decide
  have hkeywords : ∀ word ∈ keywordColors, IsAtomic word := by unfold IsAtomic; decide
  have hfamilies : ∀ word ∈ colorFamilies, IsAtomic word := by unfold IsAtomic; decide
  unfold allowsSuffix at h
  rw [harbitrary] at h
  simp only [Bool.false_eq_true, if_false] at h
  obtain ⟨suffixes, hsuffixes, h⟩ := (Option.any_eq_true _ _).1 h
  refine ⟨suffixes, hsuffixes, ?_⟩
  simp only [Bool.or_eq_true, Bool.and_eq_true] at h
  rcases h with (((hlisted | ⟨hcolors, hshaded | hname⟩) | ⟨-, hstep⟩) | ⟨hdigits, -⟩) | hfraction
  · exact Or.inl (List.contains_iff_mem.1 hlisted)
  · exact Or.inr (Or.inl ⟨hcolors, hshaded⟩)
  · right; right
    unfold isColorName at hname
    rcases Bool.or_eq_true _ _ |>.mp hname with hname | hname
    · exact isAtomic_of_mem hkeywords hname
    · exact isAtomic_of_mem hfamilies hname
  · exact Or.inr (Or.inr (isAtomic_of_mem hspacing hstep))
  · exact Or.inr (Or.inr (isAtomic_of_digits hdigits))
  · exact Or.inr (Or.inr (isAtomic_of_isFraction hfraction))

/-! ## Arbitrary values -/

/-- An arbitrary value stands in brackets or parentheses. -/
theorem brackets_of_isArbitraryValue {suffix : Text} (h : isArbitraryValue suffix = true) :
    (suffix.head? = some '[' ∨ suffix.head? = some '(') ∧
      (suffix.getLast? = some ']' ∨ suffix.getLast? = some ')') := by
  unfold isArbitraryValue Variant.isBracketed at h
  simp only [Bool.or_eq_true, Bool.and_eq_true, decide_eq_true_eq, beq_iff_eq] at h
  rcases h with ⟨⟨-, hhead⟩, hlast⟩ | ⟨⟨-, hstart⟩, hlast⟩
  · exact ⟨Or.inl hhead, Or.inl hlast⟩
  · obtain ⟨rest, hrest⟩ := Option.isSome_iff_exists.1 hstart
    rw [Text.after?_eq_some_iff.1 hrest]
    exact ⟨Or.inr (by simp), Or.inr (by rw [← Text.after?_eq_some_iff.1 hrest]; exact hlast)⟩

theorem name_unbracketed {name : Text} {entry : Entry} (h : (name, entry) ∈ entries) :
    '[' ∉ name ∧ '(' ∉ name :=
  (table_checks.1 _ h).1

theorem stem_unbracketed {stem suffix : Text} (h : allowsSuffix stem suffix = true) :
    '[' ∉ stem ∧ '(' ∉ stem := by
  by_cases harbitrary : isArbitraryValue suffix = true
  · unfold allowsSuffix at h
    rw [if_pos harbitrary] at h
    exact arbitraryStems_unbracketed stem (List.contains_iff_mem.1 h)
  · obtain ⟨suffixes, hsuffixes, -⟩ := allowsSuffix_cases h (Bool.eq_false_iff.2 harbitrary)
    exact name_unbracketed (mem_entries_of_suffixes? hsuffixes)

theorem suffix_unclosed {stem suffix : Text} (h : allowsSuffix stem suffix = true)
    (harbitrary : isArbitraryValue suffix = false) : ']' ∉ suffix ∧ ')' ∉ suffix := by
  obtain ⟨suffixes, hsuffixes, hlisted | ⟨-, hshaded⟩ | hatomic⟩ :=
    allowsSuffix_cases h harbitrary
  · exact (table_checks.1 _ (mem_entries_of_suffixes? hsuffixes)).2.2 suffix hlisted
  · obtain ⟨family, hfamily, shade, hshade, rfl⟩ := exists_family_of_isShadedColor hshaded
    have hpairs : ∀ family ∈ colorFamilies, ∀ shade ∈ colorShades,
        ']' ∉ family ++ '-' :: shade ∧ ')' ∉ family ++ '-' :: shade := by decide +kernel
    exact hpairs family hfamily shade hshade
  · exact ⟨fun hmem => (hatomic _ hmem).2.1 rfl, fun hmem => (hatomic _ hmem).2.2 rfl⟩

/-! ## Several cuts of one base -/

theorem not_isArbitraryValue_of_cut_behind {stem mid last : Text}
    (h : allowsSuffix (stem ++ '-' :: mid) last = true) :
    isArbitraryValue (mid ++ '-' :: last) = false := by
  rw [Bool.eq_false_iff]
  intro harbitrary
  obtain ⟨hopen, hparen⟩ := stem_unbracketed h
  have hhead := (brackets_of_isArbitraryValue harbitrary).1
  cases mid with
  | nil => simp at hhead
  | cons c mid =>
    simp only [List.cons_append, List.head?_cons, Option.some.injEq] at hhead
    rcases hhead with rfl | rfl
    · exact hopen (by simp)
    · exact hparen (by simp)

theorem not_isArbitraryValue_of_cut_before {stem mid last : Text}
    (h : allowsSuffix stem (mid ++ '-' :: last) = true)
    (harbitrary : isArbitraryValue (mid ++ '-' :: last) = false) :
    isArbitraryValue last = false := by
  rw [Bool.eq_false_iff]
  intro hlast
  obtain ⟨hclose, hparen⟩ := suffix_unclosed h harbitrary
  rcases (brackets_of_isArbitraryValue hlast).2 with hend | hend
  · exact hclose (by simp [List.mem_of_getLast? hend])
  · exact hparen (by simp [List.mem_of_getLast? hend])

/-- A base with two cuts that the table accepts takes an opacity at neither of them. -/
theorem allowsOpacity_eq_false_of_two_cuts {stem mid last : Text}
    (h : allowsSuffix stem (mid ++ '-' :: last) = true)
    (h' : allowsSuffix (stem ++ '-' :: mid) last = true) :
    allowsOpacity stem (mid ++ '-' :: last) = false ∧
      allowsOpacity (stem ++ '-' :: mid) last = false := by
  have harbitrary := not_isArbitraryValue_of_cut_behind h'
  have harbitrary' := not_isArbitraryValue_of_cut_before h harbitrary
  obtain ⟨suffixes, hsuffixes, hcases⟩ := allowsSuffix_cases h harbitrary
  obtain ⟨suffixes', hsuffixes', -⟩ := allowsSuffix_cases h' harbitrary'
  have hcut : (stem, mid) ∈ dashSplits (stem ++ '-' :: mid) := mem_dashSplits.2 rfl
  -- The suffix has a hyphen, and a shaded colour would leave its family in the longer stem.
  have hlisted : mid ++ '-' :: last ∈ suffixes.values := by
    rcases hcases with hlisted | ⟨-, hshaded⟩ | hatomic
    · exact hlisted
    · obtain ⟨family, hfamily, shade, hshade, hword⟩ := exists_family_of_isShadedColor hshaded
      have hfamilies : ∀ word ∈ colorFamilies, '-' ∉ word := by decide
      have hshades : ∀ word ∈ colorShades, '-' ∉ word := by decide
      have hmid := eq_of_single_dash (hfamilies family hfamily) (hshades shade hshade) hword
      rw [← hmid] at hfamily
      have hrow := table_checks.1 _ (mem_entries_of_suffixes? hsuffixes')
      exact absurd hfamily (hrow.2.1 _ hcut)
    · exact absurd rfl (hatomic '-' (by simp)).1
  have hcolors : suffixes.colors = false := by
    rw [Bool.eq_false_iff]
    intro hcolors
    have hrow := (table_checks.2 _ (mem_colorStems hsuffixes hcolors)).1
    rw [hrow _ hlisted (mid, last) (mem_dashSplits.2 rfl)] at hsuffixes'
    cases hsuffixes'
  have hcolors' : suffixes'.colors = false := by
    rw [Bool.eq_false_iff]
    intro hcolors
    have hrow := (table_checks.2 _ (mem_colorStems hsuffixes' hcolors)).2.1
    have hafter := hrow _ hcut suffixes hsuffixes _ hlisted
    have hsome : (mid ++ '-' :: last).after? (mid ++ ['-']) = some last :=
      Text.after?_eq_some_iff.2 (by simp)
    rw [hsome] at hafter
    cases hafter
  unfold allowsOpacity
  rw [harbitrary, harbitrary', hsuffixes, hsuffixes']
  exact ⟨hcolors, hcolors'⟩

/-- A whole entry of the table takes no opacity at any cut. -/
theorem allowsOpacity_eq_false_of_isComplete {stem suffix : Text}
    (hcomplete : isComplete (stem ++ '-' :: suffix) = true)
    (h : allowsSuffix stem suffix = true) : allowsOpacity stem suffix = false := by
  have hname := mem_completeNames hcomplete
  have harbitrary : isArbitraryValue suffix = false := by
    rw [Bool.eq_false_iff]
    intro harbitrary
    obtain ⟨row, hrow, hrowname⟩ := List.mem_map.1 hname
    obtain ⟨hopen, hparen⟩ := name_unbracketed (List.mem_filter.1 hrow).1
    rw [hrowname] at hopen hparen
    rcases (brackets_of_isArbitraryValue harbitrary).1 with hhead | hhead
    · exact hopen (by simp [List.mem_of_head? hhead])
    · exact hparen (by simp [List.mem_of_head? hhead])
  obtain ⟨suffixes, hsuffixes, -⟩ := allowsSuffix_cases h harbitrary
  unfold allowsOpacity
  rw [harbitrary, hsuffixes, Bool.false_or, Option.any_some, Bool.eq_false_iff]
  intro hcolors
  have hrow := (table_checks.2 _ (mem_colorStems hsuffixes hcolors)).2.2
  have hafter : (stem ++ '-' :: suffix).after? (stem ++ ['-']) = some suffix :=
    Text.after?_eq_some_iff.2 (by simp)
  rw [hrow _ hname suffix hafter] at h
  cases h

end ClassAudit.Utility
