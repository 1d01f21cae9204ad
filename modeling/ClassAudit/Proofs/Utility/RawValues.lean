import ClassAudit.Proofs.Utility.Derivation
/-!
# Raw values in brackets

The looser recogniser reads a base as a stem and a raw value in brackets, with
a sign in front and an opacity behind that it sets aside without a look at
them.  Every stem it knows takes arbitrary values.  Such a base is therefore a
utility class exactly when its sign and its opacity fit, and these two are all
that the looser recogniser lets through beside utility classes.
-/

namespace ClassAudit.Utility

open UtilityTable

set_option maxRecDepth 10000 in
theorem rawValueStems_subset : ∀ stem ∈ rawValueStems, takesArbitrary stem = true := by
  decide +kernel

set_option maxRecDepth 10000 in
theorem arbitraryStems_start : ∀ stem ∈ arbitraryStems, stem.head?.any Char.isAlpha = true := by
  decide +kernel

theorem exists_letter_of_takesArbitrary {stem : Text} (h : takesArbitrary stem = true) :
    ∃ c rest, stem = c :: rest ∧ c.isAlpha = true := by
  have hstart := arbitraryStems_start stem (List.contains_iff_mem.1 h)
  cases stem with
  | nil => cases hstart
  | cons c rest => exact ⟨c, rest, rfl, hstart⟩

theorem bracket_not_mem_of_takesArbitrary {stem : Text} (h : takesArbitrary stem = true) :
    '[' ∉ stem ∧ '(' ∉ stem :=
  arbitraryStems_unbracketed stem (List.contains_iff_mem.1 h)

/-! ## Forms -/

/-- A stem, a hyphen and a value in brackets. -/
def bracketed (stem value : Text) : Text :=
  stem ++ '-' :: '[' :: (value ++ [']'])

/-- The mark of a negated base. -/
def signMark (signed : Bool) : Text :=
  if signed then ['-'] else []

/-- A stem with a raw value in brackets, maybe behind a sign and before an opacity.  The slash of
the opacity is the first one outside brackets. -/
structure RawForm where
  signed : Bool
  stem : Text
  value : Text
  opacity : Option Text
  takes : takesArbitrary stem = true
  raw : isRawValue value = true
  hides : HidesFrom 0 '/' (bracketed stem value)
  closes : opacity ≠ none → nestingBehind 0 (bracketed stem value) = 0

namespace RawForm

/-- What stands behind the closing bracket of the value. -/
def tail (form : RawForm) : Text :=
  (form.opacity.map ('/' :: ·)).getD []

/-- The base that the form is read from. -/
def text (form : RawForm) : Text :=
  signMark form.signed ++ (bracketed form.stem form.value ++ form.tail)

/-- The sign stands before a stem that takes negative values, and the opacity is one, or ends in a
bracket as if it belonged to the value. -/
def Fits (form : RawForm) : Prop :=
  (form.signed = true → takesNegative form.stem = true) ∧
    ∀ opacity ∈ form.opacity, isOpacity opacity = true ∨ opacity.getLast? = some ']'

theorem value_ne_nil (form : RawForm) : form.value ≠ [] := by
  intro hnil
  have hraw := form.raw
  rw [hnil] at hraw
  exact absurd hraw (by decide)

end RawForm

theorem breakOn?_bracketed {stem : Text} (h : '[' ∉ stem) (rest : Text) :
    Text.breakOn? (stem ++ '-' :: '[' :: rest) ['-', '['] = some (stem, rest) := by
  induction stem with
  | nil => simp [Text.breakOn?, Text.after?]
  | cons c stem ih =>
    obtain ⟨hc, hstem⟩ := not_or.1 (mt List.mem_cons.2 h)
    have hnone : Text.after? (c :: (stem ++ '-' :: '[' :: rest)) ['-', '['] = none := by
      rw [Option.eq_none_iff_forall_ne_some]
      intro later hlater
      obtain ⟨-, hnext⟩ := List.cons.inj (Text.after?_eq_some_iff.1 hlater)
      cases stem with
      | nil => exact absurd (List.cons.inj hnext).1 (by decide)
      | cons d stem => exact hstem (by rw [(List.cons.inj hnext).1]; simp)
    rw [List.cons_append, Text.breakOn?, hnone, ih hstem]
    rfl

theorem signMark_append_unsigned (base : Text) :
    signMark (unsigned base).2 ++ (unsigned base).1 = base := by
  unfold unsigned
  split <;> rfl

theorem unsigned_signMark {signed : Bool} {positive : Text} (h : positive.head? ≠ some '-') :
    unsigned (signMark signed ++ positive) = (positive, signed) := by
  cases signed with
  | true => rfl
  | false =>
    show unsigned positive = _
    unfold unsigned
    split
    · exact absurd rfl h
    · rfl

theorem head?_bracketed {stem : Text} (h : takesArbitrary stem = true) (value tail : Text) :
    ∃ c, (bracketed stem value ++ tail).head? = some c ∧ c.isAlpha = true := by
  obtain ⟨c, rest, rfl, hc⟩ := exists_letter_of_takesArbitrary h
  exact ⟨c, rfl, hc⟩

/-- Without an opacity to cut off, all slashes of a base stand in brackets. -/
theorem hidesFrom_of_cutOpacity? {base : Text} (hhead : base.head? ≠ some '/')
    (h : cutOpacity? base = none) : HidesFrom 0 '/' base := by
  refine Decidable.byContradiction fun hslash => ?_
  obtain ⟨front, back, rfl, hclosed⟩ := exists_closedFrom_of_not_hidesFrom hslash
  have hfront : front ≠ [] := by
    rintro rfl
    exact hhead rfl
  rw [cutOpacity?_eq_some_iff.2 ⟨rfl, hclosed, hfront⟩] at h
  cases h

theorem cutOpacity?_of_hidesFrom {base : Text} (h : HidesFrom 0 '/' base) :
    cutOpacity? base = none := by
  rw [Option.eq_none_iff_forall_ne_some]
  rintro ⟨head, opacity⟩ hcut
  obtain ⟨rfl, hclosed, -⟩ := cutOpacity?_eq_some_iff.1 hcut
  exact h head opacity rfl hclosed.1

theorem cutOpacity?_form (form : RawForm) :
    ((cutOpacity? (bracketed form.stem form.value ++ form.tail)).map Prod.fst).getD
      (bracketed form.stem form.value ++ form.tail) = bracketed form.stem form.value := by
  obtain ⟨signed, stem, value, opacity, takes, raw, hides, closes⟩ := form
  cases opacity with
  | none =>
    simp only [RawForm.tail, Option.map_none, Option.getD_none, List.append_nil,
      cutOpacity?_of_hidesFrom hides]
  | some opacity =>
    have hcut : cutOpacity? (bracketed stem value ++ '/' :: opacity) =
        some (bracketed stem value, opacity) :=
      cutOpacity?_eq_some_iff.2 ⟨rfl, ⟨closes (by simp), hides⟩, by simp [bracketed]⟩
    simp only [RawForm.tail, Option.map_some, Option.getD_some, hcut]

theorem exists_form_of_isRawBase {base : Text} (h : isRawBase base = true) :
    ∃ form : RawForm, form.text = base := by
  unfold isRawBase at h
  simp only at h
  split at h
  · rename_i stem rest hbreak
    rw [Bool.and_eq_true] at h
    obtain ⟨value, hvalue, hraw⟩ := (Option.any_eq_true _ _).1 h.2
    have htakes : takesArbitrary stem = true := by
      rcases Bool.or_eq_true _ _ |>.mp h.1 with hstem | hstem
      · exact rawValueStems_subset stem (List.contains_iff_mem.1 hstem)
      · exact hstem
    rw [Bool.and_eq_true] at hraw
    have hcore := Text.breakOn?_eq_append hbreak
    rw [Text.before?_eq_some_iff.1 hvalue, List.append_assoc] at hcore
    rw [← signMark_append_unsigned base]
    cases hcut : cutOpacity? (unsigned base).1 with
    | none =>
      rw [hcut] at hcore
      have hcore : (unsigned base).1 = bracketed stem value := hcore
      have hhead : (bracketed stem value).head? ≠ some '/' := by
        obtain ⟨c, hc, hletter⟩ := head?_bracketed htakes value []
        rw [List.append_nil] at hc
        rw [hc]
        rintro ⟨⟩
        exact absurd hletter (by decide)
      rw [hcore] at hcut ⊢
      refine ⟨⟨(unsigned base).2, stem, value, none, htakes, hraw.2,
        hidesFrom_of_cutOpacity? hhead hcut, fun hnone => absurd rfl hnone⟩, ?_⟩
      simp [RawForm.text, RawForm.tail]
    | some parts =>
      obtain ⟨head, opacity⟩ := parts
      rw [hcut] at hcore
      obtain rfl : head = bracketed stem value := hcore
      obtain ⟨hpositive, hclosed, -⟩ := cutOpacity?_eq_some_iff.1 hcut
      exact ⟨⟨(unsigned base).2, stem, value, some opacity, htakes, hraw.2, hclosed.2,
        fun _ => hclosed.1⟩, by rw [hpositive]; rfl⟩
  · cases h

theorem isRawBase_text (form : RawForm) : isRawBase form.text = true := by
  obtain ⟨c, hc, hletter⟩ := head?_bracketed form.takes form.value form.tail
  have hsign : (bracketed form.stem form.value ++ form.tail).head? ≠ some '-' := by
    rw [hc]
    rintro ⟨⟩
    exact absurd hletter (by decide)
  have hbreak : Text.breakOn? (bracketed form.stem form.value) ['-', '['] =
      some (form.stem, form.value ++ [']']) :=
    breakOn?_bracketed (bracket_not_mem_of_takesArbitrary form.takes).1 _
  unfold isRawBase RawForm.text
  simp only [unsigned_signMark hsign, cutOpacity?_form, hbreak, Text.before?_eq_some_iff.2 rfl,
    form.takes, form.raw, Option.any_some]
  simp [form.value_ne_nil]

/-- A base is read as a raw value exactly when it has such a form. -/
theorem isRawBase_iff {base : Text} :
    isRawBase base = true ↔ ∃ form : RawForm, form.text = base := by
  constructor
  · exact exists_form_of_isRawBase
  · rintro ⟨form, rfl⟩
    exact isRawBase_text form

/-! ## Forms and the grammar -/

theorem isArbitraryValue_bracket (rest : Text) :
    isArbitraryValue ('[' :: rest) = true ↔ 1 < rest.length ∧ rest.getLast? = some ']' := by
  unfold isArbitraryValue Variant.isBracketed
  cases rest with
  | nil => decide
  | cons c rest => simp [Text.startsWith, Text.after?, List.getLast?_cons]

/-- A cut of a base with a bracket behind its stem is the one before that bracket. -/
theorem eq_stem_of_allowsSuffix {stem rest stem' suffix : Text}
    (hstem : takesArbitrary stem = true) (hclose : ']' ∈ rest)
    (hbase : stem' ++ '-' :: suffix = stem ++ '-' :: '[' :: rest)
    (hallows : allowsSuffix stem' suffix = true) :
    stem' = stem ∧ suffix = '[' :: rest ∧ isArbitraryValue suffix = true := by
  obtain ⟨hopen, hparen⟩ := bracket_not_mem_of_takesArbitrary hstem
  have hmem : ']' ∈ suffix → isArbitraryValue suffix = true := by
    intro hmem
    cases harbitrary : isArbitraryValue suffix with
    | true => rfl
    | false => exact absurd hmem (suffix_unclosed hallows harbitrary).1
  rcases List.append_eq_append_iff.1 hbase with ⟨extra, hextra, hrest⟩ | ⟨extra, hextra, hrest⟩
  · cases extra with
    | nil =>
      obtain rfl : suffix = '[' :: rest := (List.cons.inj hrest).2
      exact ⟨by rw [hextra, List.append_nil], rfl, hmem (by simp [hclose])⟩
    | cons c mid =>
      -- A shorter stem leaves a suffix that starts inside the stem, where no bracket is.
      rw [List.cons_append, List.cons.injEq] at hrest
      obtain ⟨rfl, rfl⟩ := hrest
      have hhead := (brackets_of_isArbitraryValue (hmem (by simp [hclose]))).1
      cases mid with
      | nil => simp at hhead
      | cons d mid =>
        rw [List.cons_append, List.head?_cons, Option.some.injEq, Option.some.injEq] at hhead
        rcases hhead with rfl | rfl
        · exact absurd (by rw [hextra]; simp) hopen
        · exact absurd (by rw [hextra]; simp) hparen
  · cases extra with
    | nil =>
      obtain rfl : '[' :: rest = suffix := (List.cons.inj hrest).2
      exact ⟨by rw [hextra, List.append_nil], rfl, hmem (by simp [hclose])⟩
    | cons c mid =>
      obtain ⟨-, hmid⟩ := List.cons.inj hrest
      cases mid with
      | nil => exact absurd (List.cons.inj hmid).1 (by decide)
      | cons d mid =>
        obtain ⟨rfl, -⟩ := List.cons.inj hmid
        exact absurd (by rw [hextra]; simp) (stem_unbracketed hallows).1

theorem head?_signMark (signed : Bool) {positive : Text} {c : Char}
    (hhead : positive.head? = some c) :
    (signMark signed ++ positive).head? = some (if signed then '-' else c) := by
  cases signed with
  | true => rfl
  | false => exact hhead

/-- A cut of a base with a bracket behind its stem allows the sign and ends in a bracket. -/
theorem of_cut_signMark {signed : Bool} {stem rest stem' suffix : Text}
    (hstem : takesArbitrary stem = true) (hclose : ']' ∈ rest)
    (hcut : Cut stem' suffix (signMark signed ++ (stem ++ '-' :: '[' :: rest))) :
    (signed = true → takesNegative stem = true) ∧ rest.getLast? = some ']' := by
  obtain ⟨c, tail, hletter, hc⟩ := exists_letter_of_takesArbitrary hstem
  have hhead : (stem ++ '-' :: '[' :: rest).head? = some c := by rw [hletter]; rfl
  have hsigned := head?_signMark signed hhead
  generalize hbase : signMark signed ++ (stem ++ '-' :: '[' :: rest) = base at hcut hsigned
  cases hcut with
  | positive hstem' hsuffix hsign hallows =>
    rw [head?_cut suffix hstem'] at hsigned
    cases signed with
    | true => exact absurd hsigned hsign
    | false =>
      obtain ⟨-, rfl, harbitrary⟩ :=
        eq_stem_of_allowsSuffix hstem hclose hbase.symm hallows
      exact ⟨fun h => (by cases h), ((isArbitraryValue_bracket rest).1 harbitrary).2⟩
  | negative hstem' hsuffix hnegative hallows =>
    cases signed with
    | true =>
      obtain ⟨rfl, rfl, harbitrary⟩ :=
        eq_stem_of_allowsSuffix hstem hclose (List.cons.inj hbase).2.symm hallows
      exact ⟨fun _ => hnegative, ((isArbitraryValue_bracket rest).1 harbitrary).2⟩
    | false =>
      obtain rfl : '-' = c := Option.some.inj hsigned
      exact absurd hc (by decide)

theorem cut_signMark {signed : Bool} {stem rest : Text} (hstem : takesArbitrary stem = true)
    (hsigned : signed = true → takesNegative stem = true) (hlength : 1 < rest.length)
    (hlast : rest.getLast? = some ']') :
    Cut stem ('[' :: rest) (signMark signed ++ (stem ++ '-' :: '[' :: rest)) := by
  obtain ⟨c, tail, hletter, hc⟩ := exists_letter_of_takesArbitrary hstem
  have hne : stem ≠ [] := by rw [hletter]; simp
  have hallows : allowsSuffix stem ('[' :: rest) = true := by
    unfold allowsSuffix
    rw [if_pos ((isArbitraryValue_bracket rest).2 ⟨hlength, hlast⟩)]
    exact hstem
  cases signed with
  | true => exact .negative hne (by simp) (hsigned rfl) hallows
  | false =>
    refine .positive hne (by simp) ?_ hallows
    rw [hletter]
    rintro ⟨⟩
    exact absurd hc (by decide)

theorem bracket_not_mem_of_isComplete {name : Text} (h : isComplete name = true) : '[' ∉ name := by
  obtain ⟨row, hrow, hname⟩ := List.mem_map.1 (mem_completeNames h)
  have hopen := (name_unbracketed (List.mem_filter.1 hrow).1).1
  rwa [hname] at hopen

theorem bracket_not_mem_elementParts : ∀ name ∈ Variant.elementParts, '[' ∉ name := by
  decide

namespace RawForm

variable (form : RawForm)

theorem text_eq : form.text =
    signMark form.signed ++ (form.stem ++ '-' :: '[' :: (form.value ++ ']' :: form.tail)) := by
  simp [text, bracketed]

theorem bracket_mem_text : '[' ∈ form.text := by
  rw [text_eq]
  simp

theorem text_ne_nil : form.text ≠ [] :=
  List.ne_nil_of_mem form.bracket_mem_text

/-- A form starts with a sign or a letter. -/
theorem head?_text : ∃ c, form.text.head? = some c ∧ (c = '-' ∨ c.isAlpha = true) := by
  obtain ⟨c, hc, hletter⟩ := head?_bracketed form.takes form.value form.tail
  refine ⟨_, head?_signMark form.signed hc, ?_⟩
  split
  · exact .inl rfl
  · exact .inr hletter

/-- What stands before the slash of an opacity. -/
theorem hidesFrom_head : HidesFrom 0 '/' (signMark form.signed ++ bracketed form.stem form.value) ∧
    nestingBehind 0 (signMark form.signed ++ bracketed form.stem form.value) =
      nestingBehind 0 (bracketed form.stem form.value) := by
  have hsign : nestingBehind 0 (signMark form.signed) = 0 ∧
      HidesFrom 0 '/' (signMark form.signed) := by
    cases form.signed <;> decide
  rw [hidesFrom_append, nestingBehind_append, hsign.1]
  exact ⟨⟨hsign.2, form.hides⟩, rfl⟩

/-- A tinted form is cut at the slash of its opacity. -/
theorem exists_opacity_of_text_eq {head opacity : Text} (h : form.text = head ++ '/' :: opacity)
    (hclosed : ClosedFrom 0 '/' head) :
    form.opacity = some opacity ∧
      head = signMark form.signed ++ bracketed form.stem form.value := by
  obtain ⟨hhides, hnesting⟩ := form.hidesFrom_head
  have hcut := cutScope?_eq_some_iff.2 ⟨h, hclosed⟩
  unfold text tail at h hcut
  rw [← List.append_assoc] at h hcut
  cases hopacity : form.opacity with
  | none =>
    rw [hopacity] at h
    rw [Option.map_none, Option.getD_none, List.append_nil] at h
    exact absurd hclosed.1 (hhides head opacity h)
  | some other =>
    rw [hopacity] at hcut
    have hown : cutScope? (signMark form.signed ++ bracketed form.stem form.value ++
        '/' :: other) = some (signMark form.signed ++ bracketed form.stem form.value, other) :=
      cutScope?_eq_some_iff.2
        ⟨rfl, hnesting.trans (form.closes (by simp [hopacity])), hhides⟩
    rw [Option.map_some, Option.getD_some, hown] at hcut
    obtain ⟨rfl, rfl⟩ := Prod.mk.inj (Option.some.inj hcut)
    exact ⟨rfl, rfl⟩

theorem fits_of_cut {stem suffix : Text} (h : Cut stem suffix form.text) : form.Fits := by
  rw [text_eq] at h
  obtain ⟨hsigned, hlast⟩ := of_cut_signMark form.takes (by simp) h
  refine ⟨hsigned, fun opacity hopacity => ?_⟩
  have hopacity : form.opacity = some opacity := hopacity
  have htail : form.tail = '/' :: opacity := by simp [tail, hopacity]
  rw [htail] at hlast
  right
  cases opacity with
  | nil => simp at hlast
  | cons c opacity => simpa [List.getLast?_cons] using hlast

theorem fits_of_tinted {head stem suffix opacity : Text} (h : form.text = head ++ '/' :: opacity)
    (hclosed : ClosedFrom 0 '/' head) (hcut : Cut stem suffix head)
    (hopacity : isOpacity opacity = true) : form.Fits := by
  obtain ⟨hown, rfl⟩ := form.exists_opacity_of_text_eq h hclosed
  unfold bracketed at hcut
  refine ⟨(of_cut_signMark form.takes (by simp) hcut).1, fun other hother => ?_⟩
  obtain rfl : opacity = other := Option.some.inj (hown.symm.trans hother)
  exact .inl hopacity

theorem fits_of_derivesBase (h : DerivesBase form.text) : form.Fits := by
  obtain ⟨c, hhead, hc⟩ := form.head?_text
  have hopen := form.bracket_mem_text
  generalize hbase : form.text = base at h hhead hopen
  cases h with
  | elementPart hname => exact absurd hopen (bracket_not_mem_elementParts _ hname)
  | arbitraryProperty =>
    cases hhead
    exact absurd hc (by decide)
  | container => exact absurd hopen (by decide)
  | namedContainer =>
    cases hhead
    exact absurd hc (by decide)
  | whole hsign hcomplete => exact absurd hopen (bracket_not_mem_of_isComplete hcomplete)
  | pair hcut =>
    rw [← hbase] at hcut
    exact form.fits_of_cut hcut
  | tinted hclosed hcut htakes hopacity => exact form.fits_of_tinted hbase hclosed hcut hopacity

theorem derivesBase_of_fits (h : form.Fits) : DerivesBase form.text := by
  have hlength : 0 < form.value.length := List.length_pos_iff.2 form.value_ne_nil
  have hcore : Cut form.stem ('[' :: (form.value ++ [']']))
      (signMark form.signed ++ bracketed form.stem form.value) :=
    cut_signMark form.takes h.1 (by simp; omega) (by simp)
  cases hopacity : form.opacity with
  | none =>
    have htext : form.text = signMark form.signed ++ bracketed form.stem form.value := by
      simp [text, tail, hopacity]
    rw [htext]
    exact .pair hcore
  | some opacity =>
    obtain ⟨hhides, hnesting⟩ := form.hidesFrom_head
    rcases h.2 opacity hopacity with hvalid | hlast
    · have htext : form.text =
          signMark form.signed ++ bracketed form.stem form.value ++ '/' :: opacity := by
        simp [text, tail, hopacity]
      rw [htext]
      refine .tinted ⟨hnesting.trans (form.closes (by simp [hopacity])), hhides⟩ hcore ?_ hvalid
      unfold allowsOpacity
      rw [(isArbitraryValue_bracket _).2 ⟨by simp; omega, by simp⟩]
      rfl
    · -- The bracket at the end closes a value that holds the slash.
      rw [text_eq]
      refine .pair (cut_signMark form.takes h.1 (by simp; omega) ?_)
      simp [tail, hopacity, List.getLast?_append, List.getLast?_cons, hlast]

/-- A base with a raw value is a utility class exactly when its sign and its opacity fit. -/
theorem isUtilityBase_text_iff : isUtilityBase form.text = true ↔ form.Fits := by
  constructor
  · intro h
    exact form.fits_of_derivesBase (derivesBase_of_isUtilityBase form.text_ne_nil h)
  · intro h
    exact isUtilityBase_of_derivesBase form.text_ne_nil (form.derivesBase_of_fits h)

end RawForm

/-! ## Tokens -/

theorem isDynamic_iff {token : Text} (h : hasPlaceholder token = false) :
    isDynamic token = true ↔ ∃ base, base? token = some base ∧
      (isArbitraryProperty base = true ∨ ∃ form : RawForm, form.text = base) := by
  unfold isDynamic
  rw [h, Bool.false_or, Option.any_eq_true]
  simp only [Bool.or_eq_true, isRawBase_iff]

theorem RawForm.isUtility_iff {form : RawForm} {token : Text}
    (h : base? token = some form.text) : isUtility token = true ↔ form.Fits := by
  unfold isUtility
  rw [h, Option.any_some]
  exact form.isUtilityBase_text_iff

/-- Without a placeholder, the looser recogniser accepts the properties in brackets and the forms
of raw values behind variants.  Of these tokens only the forms whose sign or opacity does not fit
are no utility classes. -/
theorem isUtility_iff_of_isDynamic {token : Text} (h : hasPlaceholder token = false) :
    (isDynamic token = true ↔ ∃ base, base? token = some base ∧
      (isArbitraryProperty base = true ∨ ∃ form : RawForm, form.text = base)) ∧
    (isDynamic token = true →
      (isUtility token = true ↔ ∀ form : RawForm, base? token = some form.text → form.Fits)) := by
  refine ⟨isDynamic_iff h, fun hdynamic => ?_⟩
  obtain ⟨base, hbase, hread⟩ := (isDynamic_iff h).1 hdynamic
  constructor
  · intro hutility form hform
    exact (RawForm.isUtility_iff hform).1 hutility
  · intro hfits
    rcases hread with hproperty | ⟨form, rfl⟩
    · unfold isUtility
      rw [hbase, Option.any_some]
      simp [isUtilityBase, isSpecial, hproperty]
    · exact (RawForm.isUtility_iff hbase).2 (hfits form hbase)

/-- A colour with a sign. -/
def negatedColor : RawForm where
  signed := true
  stem := "bg".toList
  value := "#fff".toList
  opacity := none
  takes := by decide +kernel
  raw := by decide
  hides := by decide
  closes := fun h => absurd rfl h

/-- A colour with an opacity above one hundred. -/
def overdrawnColor : RawForm where
  signed := false
  stem := "bg".toList
  value := "#fff".toList
  opacity := some "999".toList
  takes := by decide +kernel
  raw := by decide
  hides := by decide
  closes := fun _ => by decide

theorem not_fits_negatedColor : ¬negatedColor.Fits :=
  fun h => absurd (h.1 rfl) (by decide +kernel)

theorem not_fits_overdrawnColor : ¬overdrawnColor.Fits :=
  fun h => absurd (h.2 _ rfl) (by decide)

theorem isUtility_hover_negatedColor :
    hasPlaceholder "hover:-bg-[#fff]".toList = false ∧
      isDynamic "hover:-bg-[#fff]".toList = true ∧
      isUtility "hover:-bg-[#fff]".toList = false := by
  have hplain : hasPlaceholder "hover:-bg-[#fff]".toList = false := by decide
  have hbase : base? "hover:-bg-[#fff]".toList = some negatedColor.text := by decide +kernel
  have hlaw := isUtility_iff_of_isDynamic hplain
  have hdynamic := hlaw.1.2 ⟨_, hbase, .inr ⟨negatedColor, rfl⟩⟩
  refine ⟨hplain, hdynamic, Bool.eq_false_iff.2 fun hutility => ?_⟩
  exact not_fits_negatedColor ((hlaw.2 hdynamic).1 hutility negatedColor hbase)

/-- The looser recogniser lets through what the grammar refuses: a negated colour, and an opacity
that is none. -/
theorem isDynamic_beyond_grammar :
    (hasPlaceholder "-bg-[#fff]".toList = false ∧ isDynamic "-bg-[#fff]".toList = true ∧
      isUtility "-bg-[#fff]".toList = false) ∧
    (hasPlaceholder "bg-[#fff]/999".toList = false ∧ isDynamic "bg-[#fff]/999".toList = true ∧
      isUtility "bg-[#fff]/999".toList = false) := by
  have hnegated : base? "-bg-[#fff]".toList = some negatedColor.text := by decide +kernel
  have hoverdrawn : base? "bg-[#fff]/999".toList = some overdrawnColor.text := by decide +kernel
  refine ⟨⟨by decide, ?_, ?_⟩, by decide, ?_, ?_⟩
  · exact (isDynamic_iff (by decide)).2 ⟨_, hnegated, .inr ⟨negatedColor, rfl⟩⟩
  · exact Bool.eq_false_iff.2 (mt (RawForm.isUtility_iff hnegated).1 not_fits_negatedColor)
  · exact (isDynamic_iff (by decide)).2 ⟨_, hoverdrawn, .inr ⟨overdrawnColor, rfl⟩⟩
  · exact Bool.eq_false_iff.2 (mt (RawForm.isUtility_iff hoverdrawn).1 not_fits_overdrawnColor)

end ClassAudit.Utility
