import ClassAudit.Proofs.Utility.Importance
import Mathlib.Data.Nat.Digits.Lemmas
/-!
# Numbers in utility classes

A number stands in a utility class as an opacity, or behind a stem that takes a
range of integers.  The grammar compares numbers of any size.  A reader with 32
bits, which refuses a number as soon as it does not fit, comes to the same
answers, since every bound is far below what it can hold.
-/

namespace ClassAudit.Utility

open Vocabulary UtilityTable

/-! ## Numbers and words -/

/-- The value of a decimal digit. -/
def digitValue (c : Char) : Nat :=
  c.toNat - '0'.toNat

/-- The number that decimal digits write, the highest digit in front. -/
def numeral (digits : Text) : Nat :=
  Nat.ofDigits 10 (digits.reverse.map digitValue)

/-- A number as a word of 32 bits, if it fits. -/
def word? (value : Nat) : Option UInt32 :=
  if value < UInt32.size then some (.ofNat value) else none

/-- One more digit behind a number; both steps are checked. -/
def pushDigit? (value : UInt32) (c : Char) : Option UInt32 := do
  let shifted ← word? (value.toNat * 10)
  word? (shifted.toNat + digitValue c)

/-- Reads decimal digits into a word. -/
def readWord? (digits : Text) : Option UInt32 :=
  digits.foldlM pushDigit? 0

theorem word?_eq_some_iff {value : Nat} {word : UInt32} :
    word? value = some word ↔ word.toNat = value := by
  unfold word?
  constructor
  · intro h
    split at h
    · rename_i hfits
      rw [← Option.some.inj h, UInt32.toNat_ofNat_of_lt' hfits]
    · cases h
  · rintro rfl
    rw [if_pos word.toNat_lt_size, UInt32.ofNat_toNat]

theorem pushDigit?_eq_some_iff {value word : UInt32} {c : Char} :
    pushDigit? value c = some word ↔ word.toNat = value.toNat * 10 + digitValue c := by
  unfold pushDigit?
  simp only [Option.bind_eq_bind, Option.bind_eq_some_iff, word?_eq_some_iff]
  constructor
  · rintro ⟨shifted, hshifted, hword⟩
    rw [hword, hshifted]
  · intro hword
    have hfits : value.toNat * 10 < UInt32.size := by
      have := word.toNat_lt_size
      omega
    exact ⟨.ofNat (value.toNat * 10), UInt32.toNat_ofNat_of_lt' hfits, by
      rw [hword, UInt32.toNat_ofNat_of_lt' hfits]⟩

/-- The number that digits write behind those of another number. -/
def numeralFrom (value : Nat) (digits : Text) : Nat :=
  digits.foldl (fun value c => value * 10 + digitValue c) value

theorem le_numeralFrom (value : Nat) (digits : Text) : value ≤ numeralFrom value digits := by
  induction digits generalizing value with
  | nil => exact Nat.le_refl value
  | cons c digits ih =>
    have hstep := ih (value * 10 + digitValue c)
    rw [numeralFrom, List.foldl_cons, ← numeralFrom]
    omega

theorem numeral_eq_numeralFrom (digits : Text) : numeral digits = numeralFrom 0 digits := by
  induction digits using List.reverseRecOn with
  | nil => rfl
  | append_singleton digits c ih =>
    have hnumeral : numeral (digits ++ [c]) = digitValue c + 10 * numeral digits := by
      unfold numeral
      rw [List.reverse_append, List.reverse_singleton, List.singleton_append, List.map_cons,
        Nat.ofDigits_cons]
    rw [hnumeral, ih, numeralFrom, numeralFrom, List.foldl_append, List.foldl_cons, List.foldl_nil]
    omega

theorem foldlM_pushDigit?_eq_some_iff {digits : Text} {value word : UInt32} :
    digits.foldlM pushDigit? value = some word ↔ word.toNat = numeralFrom value.toNat digits := by
  induction digits generalizing value with
  | nil =>
    show some value = some word ↔ word.toNat = value.toNat
    rw [Option.some.injEq, UInt32.toNat_inj, eq_comm]
  | cons c digits ih =>
    rw [List.foldlM_cons, numeralFrom, List.foldl_cons, ← numeralFrom, Option.bind_eq_bind,
      Option.bind_eq_some_iff]
    simp only [ih, pushDigit?_eq_some_iff]
    constructor
    · rintro ⟨next, hnext, hword⟩
      rw [hword, hnext]
    · intro hword
      -- What the first digits write is below what all of them write, so it fits.
      have hfits : value.toNat * 10 + digitValue c < UInt32.size := by
        have hle := le_numeralFrom (value.toNat * 10 + digitValue c) digits
        have := word.toNat_lt_size
        omega
      refine ⟨.ofNat (value.toNat * 10 + digitValue c), UInt32.toNat_ofNat_of_lt' hfits, ?_⟩
      rw [hword, UInt32.toNat_ofNat_of_lt' hfits]

/-- A number that fits is read as it is, and no other number is read. -/
theorem readWord?_eq_some_iff {digits : Text} {word : UInt32} :
    readWord? digits = some word ↔ word.toNat = numeral digits := by
  rw [numeral_eq_numeralFrom]
  exact foldlM_pushDigit?_eq_some_iff

theorem readWord?_eq_none {digits : Text} (h : UInt32.size ≤ numeral digits) :
    readWord? digits = none := by
  rw [Option.eq_none_iff_forall_ne_some]
  intro word hword
  have hvalue := readWord?_eq_some_iff.1 hword
  have := word.toNat_lt_size
  omega

theorem any_readWord? {digits : Text} {test : Nat → Bool}
    (htest : ∀ value, test value = true → value < UInt32.size) :
    ((readWord? digits).any fun word => test word.toNat) = test (numeral digits) := by
  rw [Bool.eq_iff_iff, Option.any_eq_true]
  constructor
  · rintro ⟨word, hword, hpass⟩
    rwa [← readWord?_eq_some_iff.1 hword]
  · intro hpass
    have hvalue : (UInt32.ofNat (numeral digits)).toNat = numeral digits :=
      UInt32.toNat_ofNat_of_lt' (htest _ hpass)
    exact ⟨.ofNat (numeral digits), readWord?_eq_some_iff.2 hvalue, by rwa [hvalue]⟩

theorem numeral_zeros (count : Nat) (digits : Text) :
    numeral (List.replicate count '0' ++ digits) = numeral digits := by
  unfold numeral
  rw [List.reverse_append, List.reverse_replicate, List.map_append, List.map_replicate]
  exact Nat.ofDigits_append_replicate_zero _

theorem hexValue?_of_isDigit {c : Char} (h : c.isDigit = true) :
    Text.hexValue? c = some (digitValue c) := by
  simp only [Char.isDigit, ge_iff_le, Bool.and_eq_true, decide_eq_true_eq,
    UInt32.le_iff_toNat_le] at h
  exact if_pos h

theorem decimal_eq_numeral {digits : Text} (h : digits.all Char.isDigit = true) :
    Text.decimal digits = numeral digits := by
  rw [numeral_eq_numeralFrom]
  unfold Text.decimal Text.valueIn numeralFrom
  apply List.foldl_ext
  intro value c hc
  rw [hexValue?_of_isDigit (List.all_eq_true.1 h c hc), Option.getD_some]

/-! ## Stems with a range of integers -/

/-- The stems that take a range of integers. -/
def rangeStems : List Text :=
  Text.table ["order", "columns", "grid-cols", "grid-rows"]

/-- The range of integers that a row gives. -/
def rangeIn : Entry → Option (Nat × Nat)
  | .stem suffixes => suffixes.integers
  | .alone => none

set_option maxRecDepth 10000 in
/-- What is checked row by row: which rows have a range, and that no whole entry holds a digit. -/
theorem range_checks :
    (∀ row ∈ entries, (rangeIn row.2).isSome = true → row.1 ∈ rangeStems) ∧
      ∀ name ∈ completeNames, ∀ c ∈ name, c.isDigit = false := by
  decide +kernel

set_option maxRecDepth 10000 in
/-- What is checked of the stems with a range: their suffixes, that no front of theirs is a stem,
and their characters. -/
theorem rangeStems_checks : ∀ stem ∈ rangeStems,
    (∃ scale ∈ suffixes? stem, scale.integers = some (1, 12) ∧ scale.colors = false ∧
      scale.narrow = false ∧ ∀ value ∈ scale.values, isDigits value = true →
        1 ≤ Text.decimal value ∧ Text.decimal value ≤ 12) ∧
    (∀ parts ∈ dashSplits stem, suffixes? parts.1 = none) ∧
    (∀ c ∈ stem, c ≠ '!' ∧ c ≠ ':' ∧ c ≠ '/') ∧
    stem.head?.any Char.isLower = true := by
  decide +kernel

theorem mem_rangeStems_iff {stem : Text} :
    stem ∈ rangeStems ↔ ∃ scale, suffixes? stem = some scale ∧ scale.integers.isSome = true := by
  constructor
  · intro hstem
    obtain ⟨⟨scale, hscale, hrange, -⟩, -⟩ := rangeStems_checks stem hstem
    exact ⟨scale, hscale, by rw [hrange]; rfl⟩
  · rintro ⟨scale, hscale, hrange⟩
    exact range_checks.1 _ (mem_entries_of_suffixes? hscale) hrange

/-- A word gives the same answer as the number, for every range of the table. -/
theorem acceptsInteger_readWord? {stem : Text} {scale : Suffixes}
    (hscale : suffixes? stem = some scale) (digits : Text) :
    ((readWord? digits).any fun word => scale.acceptsInteger word.toNat) =
      scale.acceptsInteger (numeral digits) := by
  apply any_readWord?
  intro value haccepts
  obtain ⟨range, hrange, hwithin⟩ := (Option.any_eq_true _ _).1 haccepts
  have hstem : stem ∈ rangeStems := mem_rangeStems_iff.2 ⟨scale, hscale, by rw [hrange]; rfl⟩
  obtain ⟨⟨other, hother, hbounds, -⟩, -⟩ := rangeStems_checks stem hstem
  obtain rfl : scale = other := Option.some.inj (hscale.symm.trans hother)
  obtain rfl : range = (1, 12) := Option.some.inj (hrange.symm.trans hbounds)
  simp only [Bool.and_eq_true, decide_eq_true_eq] at hwithin
  have hsize : 12 < UInt32.size := by decide
  omega

/-! ## Digits behind a stem -/

section Digits

variable {digits : Text} (hdigits : isDigits digits = true)

include hdigits

theorem ne_nil_of_isDigits : digits ≠ [] := by
  rw [isDigits, Bool.and_eq_true, Bool.not_eq_true', List.isEmpty_eq_false_iff] at hdigits
  exact hdigits.1

theorem all_of_isDigits : digits.all Char.isDigit = true := by
  rw [isDigits, Bool.and_eq_true] at hdigits
  exact hdigits.2

theorem not_mem_of_isDigits {c : Char} (hc : c.isDigit = false) : c ∉ digits := by
  intro hmem
  have hdigit := List.all_eq_true.1 (all_of_isDigits hdigits) c hmem
  rw [hc] at hdigit
  cases hdigit

theorem not_isArbitraryValue_of_isDigits : isArbitraryValue digits = false := by
  rw [Bool.eq_false_iff]
  intro harbitrary
  rcases (brackets_of_isArbitraryValue harbitrary).1 with hhead | hhead
  · exact not_mem_of_isDigits hdigits (by decide) (List.mem_of_head? hhead)
  · exact not_mem_of_isDigits hdigits (by decide) (List.mem_of_head? hhead)

theorem not_isFraction_of_isDigits : isFraction digits = false := by
  have hslash : Text.cut? '/' digits = none :=
    Text.cut?_eq_none_iff.2 (not_mem_of_isDigits hdigits (by decide))
  unfold isFraction
  rw [hslash]

theorem isOpacity_iff_of_isDigits : isOpacity digits = true ↔ numeral digits ≤ 100 := by
  unfold isOpacity
  rw [if_pos hdigits, decide_eq_true_eq, decimal_eq_numeral (all_of_isDigits hdigits)]

theorem isOpacity_eq_readWord? :
    isOpacity digits = (readWord? digits).any fun word => decide (word.toNat ≤ 100) := by
  have hword := @any_readWord? digits (fun value => decide (value ≤ 100)) (by
    intro value hvalue
    have hsize : 100 < UInt32.size := by decide
    have := of_decide_eq_true hvalue
    omega)
  rw [hword, Bool.eq_iff_iff, isOpacity_iff_of_isDigits hdigits, decide_eq_true_eq]

variable {stem : Text} (hstem : stem ∈ rangeStems)

include hstem

theorem allowsSuffix_digits_iff :
    allowsSuffix stem digits = true ↔
      (1 ≤ numeral digits ∧ numeral digits ≤ 12) ∨ digits ∈ spacing := by
  obtain ⟨⟨scale, hscale, hrange, hcolors, hnarrow, hvalues⟩, -⟩ := rangeStems_checks stem hstem
  have hall := all_of_isDigits hdigits
  have hnumeral := decimal_eq_numeral hall
  have hscale : suffixes? stem = some scale := hscale
  have haccepts : scale.acceptsInteger (numeral digits) = true ↔
      1 ≤ numeral digits ∧ numeral digits ≤ 12 := by
    unfold Suffixes.acceptsInteger
    rw [hrange]
    simp
  unfold allowsSuffix
  rw [not_isArbitraryValue_of_isDigits hdigits, if_neg (by decide), hscale, Option.any_some,
    hcolors, hnarrow, hall, hnumeral, not_isFraction_of_isDigits hdigits]
  simp only [Bool.false_and, Bool.or_false, Bool.not_false, Bool.true_and, Bool.or_eq_true,
    haccepts]
  constructor
  · rintro ((hlisted | hspacing) | hwithin)
    · have hvalue := hvalues digits (List.contains_iff_mem.1 hlisted) hdigits
      rw [hnumeral] at hvalue
      exact .inl hvalue
    · exact .inr (List.contains_iff_mem.1 hspacing)
    · exact .inl hwithin
  · rintro (hwithin | hspacing)
    · exact .inr hwithin
    · exact .inl (.inr (List.contains_iff_mem.2 hspacing))

theorem not_mem_rangeToken {c : Char} (hc : c.isDigit = false)
    (hother : c = '!' ∨ c = ':' ∨ c = '/') : c ∉ stem ++ '-' :: digits := by
  obtain ⟨-, -, hchars, -⟩ := rangeStems_checks stem hstem
  intro hmem
  rcases List.mem_append.1 hmem with hmem | hmem
  · have := hchars c hmem
    tauto
  · rcases List.mem_cons.1 hmem with rfl | hmem
    · revert hother
      decide
    · exact not_mem_of_isDigits hdigits hc hmem

theorem base?_rangeToken : base? (stem ++ '-' :: digits) = some (stem ++ '-' :: digits) := by
  have hmark := not_mem_rangeToken hdigits hstem (c := '!') (by decide) (by decide)
  have hcolon := not_mem_rangeToken hdigits hstem (c := ':') (by decide) (by decide)
  have hplain : Marked (stem ++ '-' :: digits) (stem ++ '-' :: digits) := by
    have hmarked := marked_dropImportance (stem ++ '-' :: digits)
    rwa [dropImportance_plain hmark] at hmarked
  exact base?_eq_some_iff.2 ⟨[], _, hplain, List.forall_mem_nil _, hidesFrom_of_not_mem hcolon,
    hplain, by simp⟩

omit hdigits in
theorem exists_letter_of_mem_rangeStems :
    ∃ first rest, stem = first :: rest ∧ first.isLower = true := by
  obtain ⟨-, -, -, hstart⟩ := rangeStems_checks stem hstem
  obtain ⟨first, hfirst, hlower⟩ := (Option.any_eq_true _ _).1 hstart
  obtain ⟨rest, hrest⟩ := List.head?_eq_some_iff.1 hfirst
  exact ⟨first, rest, hrest, hlower⟩

/-- A front of a stem with a range is no stem for the rest of it and digits. -/
theorem not_allowsSuffix_front {front mid : Text} (hfront : stem = front ++ '-' :: mid) :
    allowsSuffix front (mid ++ '-' :: digits) = false := by
  obtain ⟨-, hfronts, -⟩ := rangeStems_checks stem hstem
  have harbitrary : isArbitraryValue (mid ++ '-' :: digits) = false := by
    rw [Bool.eq_false_iff]
    intro harbitrary
    have hlast : (mid ++ '-' :: digits).getLast? = digits.getLast? := by
      rw [List.getLast?_append_of_ne_nil _ (by simp),
        List.getLast?_cons_of_ne_nil (ne_nil_of_isDigits hdigits)]
    rcases (brackets_of_isArbitraryValue harbitrary).2 with hend | hend
    · rw [hlast] at hend
      exact not_mem_of_isDigits hdigits (by decide) (List.mem_of_getLast? hend)
    · rw [hlast] at hend
      exact not_mem_of_isDigits hdigits (by decide) (List.mem_of_getLast? hend)
  rw [Bool.eq_false_iff]
  intro hallows
  obtain ⟨scale, hscale, -⟩ := allowsSuffix_cases hallows harbitrary
  rw [hfronts (front, mid) (mem_dashSplits.2 hfront)] at hscale
  cases hscale

/-- Digits behind a stem with a range are cut off at one hyphen only. -/
theorem eq_of_cut_rangeToken {other suffix : Text} (h : Cut other suffix (stem ++ '-' :: digits)) :
    other = stem ∧ suffix = digits := by
  generalize htoken : stem ++ '-' :: digits = token at h
  cases h with
  | positive _ _ _ hallows =>
    rcases List.append_eq_append_iff.1 htoken with ⟨extra, rfl, hrest⟩ | ⟨extra, hfront, hrest⟩
    · cases extra with
      | nil =>
        obtain ⟨-, rfl⟩ := List.cons.inj hrest
        exact ⟨List.append_nil stem, rfl⟩
      | cons c extra =>
        have hhyphen : '-' ∈ digits := by
          rw [(List.cons.inj hrest).2]
          simp
        exact absurd hhyphen (not_mem_of_isDigits hdigits (by decide))
    · cases extra with
      | nil =>
        obtain ⟨-, rfl⟩ := List.cons.inj hrest
        exact ⟨by rw [hfront, List.append_nil], rfl⟩
      | cons c extra =>
        rw [List.cons_append, List.cons.injEq] at hrest
        obtain ⟨rfl, rfl⟩ := hrest
        rw [not_allowsSuffix_front hdigits hstem hfront] at hallows
        cases hallows
  | negative =>
    obtain ⟨first, rest, rfl, hlower⟩ := exists_letter_of_mem_rangeStems hstem
    obtain ⟨rfl, -⟩ := List.cons.inj htoken
    exact absurd hlower (by decide)

theorem derivesBase_rangeToken_iff :
    DerivesBase (stem ++ '-' :: digits) ↔ allowsSuffix stem digits = true := by
  obtain ⟨first, rest, hfirst, hlower⟩ := exists_letter_of_mem_rangeStems hstem
  obtain ⟨c, hc⟩ := List.exists_mem_of_ne_nil digits (ne_nil_of_isDigits hdigits)
  have hdigit := List.all_eq_true.1 (all_of_isDigits hdigits) c hc
  have hslash := not_mem_rangeToken hdigits hstem (c := '/') (by decide) (by decide)
  constructor
  · intro h
    have hstart : (stem ++ '-' :: digits).head? = some first := by rw [hfirst]; rfl
    have hmem : c ∈ stem ++ '-' :: digits := by simp [hc]
    generalize htoken : stem ++ '-' :: digits = token at h hslash hstart hmem
    -- No special form starts with a letter and holds a digit, and no whole entry holds one.
    cases h with
    | elementPart hname =>
      have hnames : ∀ name ∈ Variant.elementParts, ∀ c ∈ name, c.isDigit = false := by decide
      rw [hnames _ hname c hmem] at hdigit
      cases hdigit
    | arbitraryProperty =>
      obtain rfl := Option.some.inj hstart
      exact absurd hlower (by decide)
    | container =>
      obtain rfl := Option.some.inj hstart
      exact absurd hlower (by decide)
    | namedContainer => exact absurd (by simp) hslash
    | whole _ hcomplete =>
      rw [range_checks.2 _ (mem_completeNames hcomplete) c hmem] at hdigit
      cases hdigit
    | pair hcut =>
      rw [← htoken] at hcut
      obtain ⟨rfl, rfl⟩ := eq_of_cut_rangeToken hdigits hstem hcut
      exact hcut.allowsSuffix
    | tinted => exact absurd (by simp) hslash
  · intro hallows
    rw [hfirst] at hallows ⊢
    refine .pair (.positive (List.cons_ne_nil _ _) (ne_nil_of_isDigits hdigits) ?_ hallows)
    rw [List.head?_cons, Ne, Option.some.injEq]
    rintro rfl
    exact absurd hlower (by decide)

theorem isUtility_rangeToken_iff :
    isUtility (stem ++ '-' :: digits) = true ↔
      (1 ≤ numeral digits ∧ numeral digits ≤ 12) ∨ digits ∈ spacing := by
  have hne : stem ++ '-' :: digits ≠ [] := by simp
  have hbase : isUtilityBase (stem ++ '-' :: digits) = true ↔ DerivesBase (stem ++ '-' :: digits) :=
    ⟨derivesBase_of_isUtilityBase hne, isUtilityBase_of_derivesBase hne⟩
  unfold isUtility
  rw [base?_rangeToken hdigits hstem, Option.any_some, hbase,
    derivesBase_rangeToken_iff hdigits hstem, allowsSuffix_digits_iff hdigits hstem]

end Digits

/-- Numbers count by their value, however long they are written.  Digits are an opacity up to one
hundred, and a stem takes them as an integer from one to twelve or as a spacing step by its very
spelling; the stems with a range are the four listed.  Reading the digits into 32 bits decides the
same: a number that does not fit is refused and never taken for another one, and zeros in front
change nothing. -/
theorem numbers_count_by_value {digits : Text} (hdigits : isDigits digits = true) :
    (isOpacity digits = true ↔ numeral digits ≤ 100) ∧
    (∀ stem, stem ∈ rangeStems ↔
      ∃ scale, suffixes? stem = some scale ∧ scale.integers.isSome = true) ∧
    (∀ stem ∈ rangeStems, isUtility (stem ++ '-' :: digits) = true ↔
      (1 ≤ numeral digits ∧ numeral digits ≤ 12) ∨ digits ∈ spacing) ∧
    ((∀ word, readWord? digits = some word ↔ word.toNat = numeral digits) ∧
      isOpacity digits = ((readWord? digits).any fun word => decide (word.toNat ≤ 100)) ∧
      ∀ stem scale, suffixes? stem = some scale →
        scale.acceptsInteger (Text.decimal digits) =
          (readWord? digits).any fun word => scale.acceptsInteger word.toNat) ∧
    (UInt32.size ≤ numeral digits → readWord? digits = none ∧ isOpacity digits = false ∧
      ∀ stem ∈ rangeStems, isUtility (stem ++ '-' :: digits) = false) ∧
    ∀ count, numeral (List.replicate count '0' ++ digits) = numeral digits ∧
      readWord? (List.replicate count '0' ++ digits) = readWord? digits := by
  refine ⟨isOpacity_iff_of_isDigits hdigits, fun _ => mem_rangeStems_iff,
    fun stem hstem => isUtility_rangeToken_iff hdigits hstem,
    ⟨fun _ => readWord?_eq_some_iff, isOpacity_eq_readWord? hdigits, ?_⟩, ?_, ?_⟩
  · intro stem scale hscale
    rw [acceptsInteger_readWord? hscale, decimal_eq_numeral (all_of_isDigits hdigits)]
  · intro hlarge
    have hsize : 100 < UInt32.size := by decide
    refine ⟨readWord?_eq_none hlarge, ?_, ?_⟩
    · rw [Bool.eq_false_iff, Ne, isOpacity_iff_of_isDigits hdigits]
      omega
    · intro stem hstem
      rw [Bool.eq_false_iff, Ne, isUtility_rangeToken_iff hdigits hstem]
      rintro (hwithin | hspacing)
      · omega
      · have hsteps : ∀ step ∈ spacing, numeral step < UInt32.size := by decide +kernel
        have := hsteps digits hspacing
        omega
  · intro count
    refine ⟨numeral_zeros count digits, Option.ext fun word => ?_⟩
    rw [readWord?_eq_some_iff, readWord?_eq_some_iff, numeral_zeros]

/-- Zeros in front of a small number, a number of which 32 bits keep a five, and a spacing step
beyond the range with and without a zero in front. -/
theorem numbers_count_by_value_padded :
    isUtility "order-0000000000000012".toList = true ∧
      (isUtility "columns-4294967301".toList = false ∧ isOpacity "4294967301".toList = false) ∧
      isUtility "grid-cols-96".toList = true ∧ isUtility "grid-rows-096".toList = false := by
  obtain ⟨-, -, hpadded, -⟩ := @numbers_count_by_value "0000000000000012".toList (by decide)
  obtain ⟨-, -, -, -, hwide, -⟩ := @numbers_count_by_value "4294967301".toList (by decide)
  obtain ⟨-, -, hstep, -⟩ := @numbers_count_by_value "96".toList (by decide)
  obtain ⟨-, -, hspelled, -⟩ := @numbers_count_by_value "096".toList (by decide)
  obtain ⟨-, hopacity, hrefused⟩ := hwide (by decide)
  refine ⟨(hpadded "order".toList (by decide)).2 (by decide),
    ⟨hrefused "columns".toList (by decide), hopacity⟩,
    (hstep "grid-cols".toList (by decide)).2 (by decide), ?_⟩
  rw [Bool.eq_false_iff]
  exact mt (hspelled "grid-rows".toList (by decide)).1 (by decide)

end ClassAudit.Utility
