import ClassAudit.Proofs.Utility.TableSplits
import ClassAudit.Proofs.Utility.TopLevel
/-!
# Utility classes as derivations

A grammar of utility classes without an order of search: a base may be cut at
any hyphen, and being a whole entry of the table does not exclude a cut.  The
recogniser, which stops at the first cut it can take and looks for an opacity
at that cut only, accepts exactly what the grammar derives.
-/

namespace ClassAudit.Utility

open UtilityTable

/-! ## The grammar -/

/-- A token and what is left of it without its marks of importance. -/
inductive Marked (core : Text) : Text → Prop
  | front (count : Nat) (hhead : core.head? ≠ some '!') (hlast : core.getLast? ≠ some '!') :
      Marked core (List.replicate count '!' ++ core)
  | both (count : Nat) (hhead : core.head? ≠ some '!') (hcore : core ≠ []) :
      Marked core (List.replicate count '!' ++ core ++ ['!'])

/-- A hyphen of a base at which the table accepts the stem and the suffix around it.  After a sign
the stem has to take negative values. -/
inductive Cut (stem suffix : Text) : Text → Prop
  | positive (hstem : stem ≠ []) (hsuffix : suffix ≠ []) (hsign : stem.head? ≠ some '-')
      (hallows : allowsSuffix stem suffix = true) : Cut stem suffix (stem ++ '-' :: suffix)
  | negative (hstem : stem ≠ []) (hsuffix : suffix ≠ []) (hsign : takesNegative stem = true)
      (hallows : allowsSuffix stem suffix = true) : Cut stem suffix ('-' :: (stem ++ '-' :: suffix))

/-- The bases of utility classes. -/
inductive DerivesBase : Text → Prop
  | elementPart {name : Text} (hname : name ∈ Variant.elementParts) : DerivesBase name
  | arbitraryProperty {property value : Text} (hproperty : property ≠ []) (hvalue : value ≠ [])
      (hchars : ∀ c ∈ property, c.isAlphanum = true ∨ c = '-') :
      DerivesBase ('[' :: (property ++ ':' :: value ++ [']']))
  | container : DerivesBase "@container".toList
  | namedContainer {name : Text} (hname : name ≠ [])
      (hchars : ∀ c ∈ name, Text.isPlainNameChar c = true) :
      DerivesBase ("@container".toList ++ '/' :: name)
  | whole {base : Text} (hsign : base.head? ≠ some '-') (hcomplete : isComplete base = true) :
      DerivesBase base
  | pair {base stem suffix : Text} (hcut : Cut stem suffix base) : DerivesBase base
  | tinted {head stem suffix opacity : Text} (hclosed : ClosedFrom 0 '/' head)
      (hcut : Cut stem suffix head) (htakes : allowsOpacity stem suffix = true)
      (hopacity : isOpacity opacity = true) : DerivesBase (head ++ '/' :: opacity)

/-- The utility classes: variants, each before a colon outside brackets, and a base.  Marks of
importance may stand around the token and around its base. -/
inductive Derives : Text → Prop
  | intro {token base core : Text} {modifiers : List Text}
      (htoken : Marked (modifiers.flatMap (· ++ [':']) ++ base) token)
      (hmodifiers : ∀ modifier ∈ modifiers,
        ClosedFrom 0 ':' modifier ∧ Variant.isValid modifier = true)
      (hbase : HidesFrom 0 ':' base) (hmarked : Marked core base) (hcore : core ≠ [])
      (hderives : DerivesBase core) : Derives token

/-! ## Marks of importance -/

theorem exists_leading_marks (token : Text) :
    ∃ count rest, token = List.replicate count '!' ++ rest ∧ rest.head? ≠ some '!' := by
  induction token with
  | nil => exact ⟨0, [], rfl, by simp⟩
  | cons c token ih =>
    by_cases hc : c = '!'
    · obtain ⟨count, rest, rfl, hhead⟩ := ih
      exact ⟨count + 1, rest, by rw [hc]; rfl, hhead⟩
    · exact ⟨0, c :: token, rfl, by simpa using hc⟩

theorem dropImportance_leading {rest : Text} (count : Nat) (hhead : rest.head? ≠ some '!') :
    dropImportance (List.replicate count '!' ++ rest) = (Text.before? rest ['!']).getD rest := by
  have hrest : (List.replicate count '!' ++ rest).dropWhile (· == '!') = rest := by
    rw [List.dropWhile_append_of_pos (by simp)]
    cases rest with
    | nil => rfl
    | cons c rest => exact List.dropWhile_cons_of_neg (by simpa using hhead)
  unfold dropImportance
  simp only [hrest]

theorem marked_dropImportance (token : Text) : Marked (dropImportance token) token := by
  obtain ⟨count, rest, rfl, hhead⟩ := exists_leading_marks token
  rw [dropImportance_leading count hhead]
  cases hbefore : Text.before? rest ['!'] with
  | none =>
    refine .front count hhead fun hlast => ?_
    obtain ⟨front, hrest⟩ := List.getLast?_eq_some_iff.1 hlast
    rw [Option.getD_none] at hrest
    rw [Text.before?_eq_some_iff.2 hrest] at hbefore
    cases hbefore
  | some core =>
    obtain rfl := Text.before?_eq_some_iff.1 hbefore
    rw [Option.getD_some, ← List.append_assoc]
    cases core with
    | nil => exact absurd rfl hhead
    | cons c core => exact .both count hhead (List.cons_ne_nil c core)

theorem dropImportance_of_marked {core token : Text} (h : Marked core token) :
    dropImportance token = core := by
  cases h with
  | front count hhead hlast =>
    rw [dropImportance_leading count hhead]
    cases hbefore : Text.before? core ['!'] with
    | none => rfl
    | some front =>
      rw [Text.before?_eq_some_iff.1 hbefore] at hlast
      exact absurd (by simp) hlast
  | both count hhead hcore =>
    have hrest : (core ++ ['!']).head? ≠ some '!' := by
      cases core with
      | nil => exact absurd rfl hcore
      | cons c core => exact hhead
    rw [List.append_assoc, dropImportance_leading count hrest, Text.before?_eq_some_iff.2 rfl]
    rfl

theorem dropImportance_eq_iff {core token : Text} :
    dropImportance token = core ↔ Marked core token :=
  ⟨fun h => h ▸ marked_dropImportance token, dropImportance_of_marked⟩

/-! ## Special forms -/

theorem bracketContent?_eq_some_iff {base content : Text} :
    bracketContent? base = some content ↔ base = '[' :: (content ++ [']']) := by
  unfold bracketContent?
  simp only [Option.bind_eq_some_iff, Text.after?_eq_some_iff, Text.before?_eq_some_iff]
  simp

theorem isArbitraryProperty_iff {base : Text} :
    isArbitraryProperty base = true ↔ ∃ property value, property ≠ [] ∧ value ≠ [] ∧
      (∀ c ∈ property, c.isAlphanum = true ∨ c = '-') ∧
      base = '[' :: (property ++ ':' :: value ++ [']']) := by
  unfold isArbitraryProperty
  constructor
  · intro h
    split at h
    · rename_i property value hcut
      obtain ⟨content, hcontent, hcut⟩ := Option.bind_eq_some_iff.1 hcut
      obtain ⟨rfl, -⟩ := Text.cut?_eq_some_iff.1 hcut
      refine ⟨property, value, ?_, ?_, ?_, bracketContent?_eq_some_iff.1 hcontent⟩
      all_goals simp_all
    · cases h
  · rintro ⟨property, value, hproperty, hvalue, hchars, hbase⟩
    have hcolon : ':' ∉ property := by
      intro hmem
      rcases hchars _ hmem with h | h
      · exact absurd h (by decide)
      · exact absurd h (by decide)
    rw [bracketContent?_eq_some_iff.2 hbase, Option.bind_some,
      Text.cut?_eq_some_iff.2 ⟨rfl, hcolon⟩]
    simpa [hproperty, hvalue] using hchars

theorem cutScope?_container : cutScope? "@container".toList = none := by
  decide

theorem cutScope?_namedContainer (name : Text) :
    cutScope? ("@container".toList ++ '/' :: name) = some ("@container".toList, name) := by
  rfl

theorem isContainerBase_iff {base : Text} :
    (scopeHead base == "@container".toList && (scopeName? base).all Variant.isScopeName) = true ↔
      base = "@container".toList ∨ ∃ name, name ≠ [] ∧
        (∀ c ∈ name, Text.isPlainNameChar c = true) ∧
        base = "@container".toList ++ '/' :: name := by
  unfold scopeHead scopeName?
  constructor
  · intro h
    rw [Bool.and_eq_true, beq_iff_eq] at h
    obtain ⟨hhead, hname⟩ := h
    cases hcut : cutScope? base with
    | none =>
      rw [hcut] at hhead
      exact Or.inl hhead
    | some parts =>
      obtain ⟨head, name⟩ := parts
      rw [hcut] at hhead hname
      obtain rfl : head = "@container".toList := hhead
      have hscope : !name.isEmpty && name.all Text.isPlainNameChar := hname
      rw [Bool.and_eq_true] at hscope
      refine Or.inr ⟨name, by simpa using hscope.1, List.all_eq_true.1 hscope.2, ?_⟩
      exact (cutScope?_eq_some_iff.1 hcut).1
  · rintro (rfl | ⟨name, hname, hchars, rfl⟩)
    · rw [cutScope?_container]
      rfl
    · rw [cutScope?_namedContainer]
      simpa [Variant.isScopeName, hname] using hchars

/-! ## Cuts and the first of them -/

theorem head?_cut {stem : Text} (suffix : Text) (hstem : stem ≠ []) :
    (stem ++ '-' :: suffix).head? = stem.head? := by
  cases stem with
  | nil => exact absurd rfl hstem
  | cons c stem => rfl

theorem findPair?_positive {base : Text} (h : base.head? ≠ some '-') :
    findPair? base = (dashSplits base).find? fun parts =>
      !parts.1.isEmpty && !parts.2.isEmpty && allowsSuffix parts.1 parts.2 := by
  have hunsigned : unsigned base = (base, false) := by
    unfold unsigned
    split
    · exact absurd rfl h
    · rfl
  unfold findPair?
  rw [hunsigned]
  simp

theorem findPair?_negative (positive : Text) :
    findPair? ('-' :: positive) = (dashSplits positive).find? fun parts =>
      !parts.1.isEmpty && !parts.2.isEmpty && takesNegative parts.1 &&
        allowsSuffix parts.1 parts.2 := by
  rfl

theorem cut_of_findPair? {base stem suffix : Text} (h : findPair? base = some (stem, suffix)) :
    Cut stem suffix base := by
  by_cases hsign : base.head? = some '-'
  · obtain ⟨positive, rfl⟩ := List.head?_eq_some_iff.1 hsign
    rw [findPair?_negative] at h
    have hbase := mem_dashSplits.1 (List.mem_of_find?_eq_some h)
    have htest := List.find?_some h
    simp only [Bool.and_eq_true, Bool.not_eq_true', List.isEmpty_eq_false_iff] at htest
    obtain ⟨⟨⟨hstem, hsuffix⟩, hnegative⟩, hallows⟩ := htest
    rw [hbase]
    exact .negative hstem hsuffix hnegative hallows
  · rw [findPair?_positive hsign] at h
    have hbase := mem_dashSplits.1 (List.mem_of_find?_eq_some h)
    have htest := List.find?_some h
    simp only [Bool.and_eq_true, Bool.not_eq_true', List.isEmpty_eq_false_iff] at htest
    obtain ⟨⟨hstem, hsuffix⟩, hallows⟩ := htest
    rw [hbase, head?_cut suffix hstem] at hsign
    rw [hbase]
    exact .positive hstem hsuffix hsign hallows

theorem exists_findPair?_of_cut {base stem suffix : Text} (h : Cut stem suffix base) :
    ∃ found, findPair? base = some found := by
  apply Option.isSome_iff_exists.1
  cases h with
  | positive hstem hsuffix hsign hallows =>
    rw [← head?_cut suffix hstem] at hsign
    rw [findPair?_positive hsign]
    apply List.find?_isSome.2
    exact ⟨(stem, suffix), mem_dashSplits.2 rfl, by simp [hstem, hsuffix, hallows]⟩
  | negative hstem hsuffix hsign hallows =>
    rw [findPair?_negative]
    apply List.find?_isSome.2
    exact ⟨(stem, suffix), mem_dashSplits.2 rfl, by simp [hstem, hsuffix, hsign, hallows]⟩

theorem isSome_findPair?_iff {base : Text} :
    (findPair? base).isSome = true ↔ ∃ stem suffix, Cut stem suffix base := by
  rw [Option.isSome_iff_exists]
  constructor
  · rintro ⟨⟨stem, suffix⟩, hfound⟩
    exact ⟨stem, suffix, cut_of_findPair? hfound⟩
  · rintro ⟨stem, suffix, hcut⟩
    exact exists_findPair?_of_cut hcut

/-! ## The choice of a cut does not matter -/

theorem allowsOpacity_eq_of_extends {stem extra suffix suffix' : Text}
    (hrest : '-' :: suffix = extra ++ '-' :: suffix') (hallows : allowsSuffix stem suffix = true)
    (hallows' : allowsSuffix (stem ++ extra) suffix' = true) :
    allowsOpacity stem suffix = allowsOpacity (stem ++ extra) suffix' := by
  cases extra with
  | nil =>
    obtain ⟨-, rfl⟩ := List.cons.inj hrest
    rw [List.append_nil]
  | cons c mid =>
    rw [List.cons_append, List.cons.injEq] at hrest
    obtain ⟨rfl, rfl⟩ := hrest
    obtain ⟨hfirst, hsecond⟩ := allowsOpacity_eq_false_of_two_cuts hallows hallows'
    rw [hfirst, hsecond]

theorem allowsOpacity_eq_of_append_eq {stem suffix stem' suffix' : Text}
    (h : stem ++ '-' :: suffix = stem' ++ '-' :: suffix')
    (hallows : allowsSuffix stem suffix = true)
    (hallows' : allowsSuffix stem' suffix' = true) :
    allowsOpacity stem suffix = allowsOpacity stem' suffix' := by
  -- One of the two stems extends the other.
  rcases List.append_eq_append_iff.1 h with ⟨extra, rfl, hrest⟩ | ⟨extra, rfl, hrest⟩
  · exact allowsOpacity_eq_of_extends hrest hallows hallows'
  · exact (allowsOpacity_eq_of_extends hrest hallows' hallows).symm

/-- All cuts of a base agree on opacities. -/
theorem Cut.allowsOpacity_eq {base stem suffix stem' suffix' : Text} (h : Cut stem suffix base)
    (h' : Cut stem' suffix' base) : allowsOpacity stem suffix = allowsOpacity stem' suffix' := by
  cases h with
  | positive hstem hsuffix hsign hallows =>
    generalize hbase : stem ++ '-' :: suffix = base at h'
    cases h' with
    | positive hstem' hsuffix' hsign' hallows' =>
      exact allowsOpacity_eq_of_append_eq hbase hallows hallows'
    | negative =>
      rw [← head?_cut suffix hstem, hbase] at hsign
      exact absurd rfl hsign
  | negative hstem hsuffix hsign hallows =>
    generalize hbase : '-' :: (stem ++ '-' :: suffix) = base at h'
    cases h' with
    | positive hstem' hsuffix' hsign' hallows' =>
      rw [← head?_cut suffix' hstem', ← hbase] at hsign'
      exact absurd rfl hsign'
    | negative hstem' hsuffix' hsign' hallows' =>
      exact allowsOpacity_eq_of_append_eq (List.cons.inj hbase).2 hallows hallows'

-- Two cuts of one base: the table lists the longer suffix, and has the longer stem as well.
example : Cut "flex".toList "grow-0".toList "flex-grow-0".toList ∧
    Cut "flex-grow".toList "0".toList "flex-grow-0".toList :=
  ⟨.positive (by decide) (by decide) (by decide) (by decide +kernel),
    .positive (by decide) (by decide) (by decide) (by decide +kernel)⟩

/-- A base with a cut that takes an opacity is no whole entry. -/
theorem Cut.isWholeEntry_eq_false {base stem suffix : Text} (h : Cut stem suffix base)
    (htakes : allowsOpacity stem suffix = true) : isWholeEntry base = false := by
  rw [Bool.eq_false_iff]
  intro hwhole
  unfold isWholeEntry at hwhole
  simp only [Bool.and_eq_true, Bool.not_eq_true'] at hwhole
  obtain ⟨⟨-, hsign⟩, hcomplete⟩ := hwhole
  cases h with
  | positive _ _ _ hallows =>
    rw [allowsOpacity_eq_false_of_isComplete hcomplete hallows] at htakes
    cases htakes
  | negative => cases hsign

theorem Cut.base_ne_nil {base stem suffix : Text} (h : Cut stem suffix base) : base ≠ [] := by
  cases h <;> simp

theorem Cut.allowsSuffix {base stem suffix : Text} (h : Cut stem suffix base) :
    Utility.allowsSuffix stem suffix = true := by
  cases h with
  | positive _ _ _ hallows => exact hallows
  | negative _ _ _ hallows => exact hallows

theorem cutOpacity?_eq_some_iff {base head opacity : Text} :
    cutOpacity? base = some (head, opacity) ↔
      base = head ++ '/' :: opacity ∧ ClosedFrom 0 '/' head ∧ head ≠ [] := by
  unfold cutOpacity?
  rw [Option.filter_eq_some_iff, cutScope?_eq_some_iff, and_assoc]
  simp

theorem isTinted_iff {base : Text} :
    isTinted base = true ↔ ∃ head stem suffix opacity, ClosedFrom 0 '/' head ∧
      Cut stem suffix head ∧ allowsOpacity stem suffix = true ∧ isOpacity opacity = true ∧
      base = head ++ '/' :: opacity := by
  unfold isTinted
  constructor
  · intro h
    split at h
    · rename_i head opacity hcut
      obtain ⟨rfl, hclosed, -⟩ := cutOpacity?_eq_some_iff.1 hcut
      simp only [Bool.and_eq_true] at h
      obtain ⟨⟨hopacity, -⟩, hpair⟩ := h
      obtain ⟨⟨stem, suffix⟩, hfound, htakes⟩ := (Option.any_eq_true _ _).1 hpair
      exact ⟨head, stem, suffix, opacity, hclosed, cut_of_findPair? hfound, htakes, hopacity, rfl⟩
    · cases h
  · rintro ⟨head, stem, suffix, opacity, hclosed, hcut, htakes, hopacity, rfl⟩
    obtain ⟨⟨first, rest⟩, hfound⟩ := exists_findPair?_of_cut hcut
    -- The cut that was found may be another one; it takes the opacity all the same.
    have hfirst : allowsOpacity first rest = true := by
      rw [← hcut.allowsOpacity_eq (cut_of_findPair? hfound)]
      exact htakes
    rw [cutOpacity?_eq_some_iff.2 ⟨rfl, hclosed, hcut.base_ne_nil⟩]
    simp [hopacity, hcut.isWholeEntry_eq_false htakes, hfound, hfirst]

/-! ## The recogniser and the grammar -/

theorem isWholeEntry_iff {base : Text} (hbase : base ≠ []) :
    isWholeEntry base = true ↔ base.head? ≠ some '-' ∧ isComplete base = true := by
  unfold isWholeEntry unsigned
  split
  · simp
  · rename_i hsign
    have hhead : base.head? ≠ some '-' := by
      intro hhead
      obtain ⟨rest, rfl⟩ := List.head?_eq_some_iff.1 hhead
      exact hsign rest rfl
    simp [hbase, hhead]

theorem isSpecial_iff {base : Text} :
    isSpecial base = true ↔ base ∈ Variant.elementParts ∨ isArbitraryProperty base = true ∨
      (scopeHead base == "@container".toList &&
        (scopeName? base).all Variant.isScopeName) = true := by
  unfold isSpecial
  rw [Bool.or_eq_true, Bool.or_eq_true, List.contains_iff_mem, or_assoc]

theorem derivesBase_of_isUtilityBase {base : Text} (hbase : base ≠ [])
    (h : isUtilityBase base = true) : DerivesBase base := by
  unfold isUtilityBase at h
  rw [Bool.or_eq_true, Bool.or_eq_true, Bool.or_eq_true, isSpecial_iff, isArbitraryProperty_iff,
    isContainerBase_iff, isWholeEntry_iff hbase, isSome_findPair?_iff, isTinted_iff] at h
  rcases h with ((hspecial | ⟨hsign, hcomplete⟩) | ⟨stem, suffix, hcut⟩) |
    ⟨head, stem, suffix, opacity, hclosed, hcut, htakes, hopacity, rfl⟩
  · rcases hspecial with hname | ⟨property, value, hproperty, hvalue, hchars, rfl⟩ |
      (rfl | ⟨name, hname, hchars, rfl⟩)
    · exact .elementPart hname
    · exact .arbitraryProperty hproperty hvalue hchars
    · exact .container
    · exact .namedContainer hname hchars
  · exact .whole hsign hcomplete
  · exact .pair hcut
  · exact .tinted hclosed hcut htakes hopacity

theorem isUtilityBase_of_derivesBase {base : Text} (hbase : base ≠ []) (h : DerivesBase base) :
    isUtilityBase base = true := by
  unfold isUtilityBase
  rw [Bool.or_eq_true, Bool.or_eq_true, Bool.or_eq_true, isSpecial_iff]
  cases h with
  | elementPart hname => exact .inl (.inl (.inl (.inl hname)))
  | arbitraryProperty hproperty hvalue hchars =>
    have hform := isArbitraryProperty_iff.2 ⟨_, _, hproperty, hvalue, hchars, rfl⟩
    exact .inl (.inl (.inl (.inr (.inl hform))))
  | container =>
    have hform := isContainerBase_iff.2 (.inl rfl)
    exact .inl (.inl (.inl (.inr (.inr hform))))
  | namedContainer hname hchars =>
    have hform := isContainerBase_iff.2 (.inr ⟨_, hname, hchars, rfl⟩)
    exact .inl (.inl (.inl (.inr (.inr hform))))
  | whole hsign hcomplete =>
    exact .inl (.inl (.inr ((isWholeEntry_iff hbase).2 ⟨hsign, hcomplete⟩)))
  | pair hcut => exact .inl (.inr (isSome_findPair?_iff.2 ⟨_, _, hcut⟩))
  | tinted hclosed hcut htakes hopacity =>
    exact .inr (isTinted_iff.2 ⟨_, _, _, _, hclosed, hcut, htakes, hopacity, rfl⟩)

theorem base?_eq_some_iff {token core : Text} :
    base? token = some core ↔ ∃ (modifiers : List Text) (base : Text),
      Marked (modifiers.flatMap (· ++ [':']) ++ base) token ∧
      (∀ modifier ∈ modifiers, ClosedFrom 0 ':' modifier ∧ Variant.isValid modifier = true) ∧
      HidesFrom 0 ':' base ∧ Marked core base ∧ core ≠ [] := by
  unfold base?
  constructor
  · intro h
    simp only [Option.ite_none_right_eq_some, Bool.and_eq_true, List.all_eq_true,
      Bool.not_eq_true', List.isEmpty_eq_false_iff, Option.some.injEq] at h
    obtain ⟨⟨hvalid, hcore⟩, rfl⟩ := h
    have hread := Eq.refl (ModifiedToken.split (dropImportance token))
    obtain ⟨htext, hclosed, hbase⟩ := ModifiedToken.split_eq_iff.1 hread
    refine ⟨_, _, dropImportance_eq_iff.1 htext, fun modifier hmem => ?_, hbase,
      marked_dropImportance _, hcore⟩
    exact ⟨hclosed modifier hmem, hvalid modifier hmem⟩
  · rintro ⟨modifiers, base, htoken, hmodifiers, hbase, hmarked, hcore⟩
    have hsplit : ModifiedToken.split (dropImportance token) = ⟨modifiers, base⟩ := by
      rw [dropImportance_of_marked htoken]
      exact ModifiedToken.split_render (fun modifier hmem => (hmodifiers modifier hmem).1) hbase
    have hvalid : modifiers.all Variant.isValid = true := by
      rw [List.all_eq_true]
      exact fun modifier hmem => (hmodifiers modifier hmem).2
    simp only [hsplit, hvalid, dropImportance_of_marked hmarked]
    simp [hcore]

/-- The recogniser accepts the tokens that the grammar derives. -/
theorem isUtility_iff_derives (token : Text) : isUtility token = true ↔ Derives token := by
  unfold isUtility
  rw [Option.any_eq_true]
  constructor
  · rintro ⟨core, hbase, hutility⟩
    obtain ⟨modifiers, base, htoken, hmodifiers, hhides, hmarked, hcore⟩ :=
      base?_eq_some_iff.1 hbase
    exact .intro htoken hmodifiers hhides hmarked hcore
      (derivesBase_of_isUtilityBase hcore hutility)
  · rintro ⟨htoken, hmodifiers, hhides, hmarked, hcore, hderives⟩
    refine ⟨_, ?_, isUtilityBase_of_derivesBase hcore hderives⟩
    exact base?_eq_some_iff.2 ⟨_, _, htoken, hmodifiers, hhides, hmarked, hcore⟩

end ClassAudit.Utility
