import ClassAudit.Css.Component
import ClassAudit.Proofs.Css.StoppedNames
import ClassAudit.Proofs.Pattern.Scans
/-!
# The loose scan finds every class

A sheet that is refused is scanned for dots and names instead.  The scan reads
the source with its comments and strings, and knows nothing of rules.  Yet in a
sheet of ASCII without escapes it finds every class that the rules have, since
no earlier name swallows a dot and names stop at the same characters.
-/

namespace ClassAudit.Css

/-! ## The scan as matches of an expression -/

/-- Whether a character starts a name of the loose scan. -/
def startsLoose (c : Char) : Bool :=
  c.isAlpha || c == '_' || c == '-'

/-- Whether a character goes on with a name of the loose scan. -/
def continuesLoose (c : Char) : Bool :=
  Text.isWordChar c || c == '-'

open Regex in
/-- A dot and a name. -/
def dottedName : Regex Char :=
  concat [symbol '.', item startsLoose, star (item continuesLoose)]

theorem looseName?_cons (c : Char) (rest : Text) :
    looseName? (c :: rest) =
      if startsLoose c then some (c :: rest.takeWhile continuesLoose) else none := rfl

/-- What a match of a dot and a name reads. -/
theorem exists_read_of_runs_dottedName {place later : Regex.Place Char}
    (h : Regex.Runs dottedName place later) :
    ∃ first run, place.rest = '.' :: first :: (run ++ later.rest) ∧ startsLoose first = true ∧
      ∀ c ∈ run, continuesLoose c = true := by
  obtain ⟨_, hdot, h⟩ := Regex.runs_seq_iff.1 h
  obtain ⟨_, hfirst, h⟩ := Regex.runs_seq_iff.1 h
  obtain ⟨_, hrun, h⟩ := Regex.runs_seq_iff.1 h
  obtain rfl := Regex.runs_empty_iff.1 h
  obtain ⟨run, hread, htest⟩ := Regex.exists_read_of_runs_star_item hrun
  cases hdot with
  | item hdot =>
    cases hfirst with
    | @item _ _ first _ hfirst =>
      refine ⟨first, run, ?_, hfirst, htest⟩
      rw [← hread, beq_iff_eq.1 hdot]

theorem runs_dottedName {first : Char} {run : Text} (hfirst : startsLoose first = true)
    (hrun : ∀ c ∈ run, continuesLoose c = true) (previous : Option Char) (rest : Text) :
    Regex.Runs dottedName ⟨previous, ('.' :: first :: run) ++ rest⟩
      ⟨('.' :: first :: run).getLast?, rest⟩ := by
  have hstar := Regex.runs_star_item hrun (some first) rest
  have hlast : ('.' :: first :: run).getLast? = run.getLast?.or (some first) := by
    rw [List.getLast?_cons_cons, List.getLast?_cons]
    cases run.getLast? <;> rfl
  rw [hlast]
  exact .seq (.item rfl) (.seq (.item hfirst) (.seq hstar .empty))

theorem looseNames_append {front : Text} (h : '.' ∉ front) (rest : Text) :
    looseNames (front ++ rest) = looseNames rest := by
  induction front with
  | nil => rfl
  | cons c front ih =>
    rw [List.mem_cons, not_or] at h
    rw [List.cons_append, looseNames, if_neg (Ne.symm h.1), ih h.2]
    rfl

theorem looseNames_suffix (front rest : Text) : looseNames rest <:+ looseNames (front ++ rest) := by
  induction front with
  | nil => exact List.suffix_refl _
  | cons c front ih =>
    rw [List.cons_append, looseNames]
    exact ih.trans (List.suffix_append _ _)

/-- Behind a dot the scan gives the name and goes on after it. -/
theorem looseNames_dot {first : Char} (hfirst : startsLoose first = true) (rest : Text) :
    looseNames ('.' :: first :: rest) =
      (first :: rest.takeWhile continuesLoose) :: looseNames (rest.dropWhile continuesLoose) := by
  have hname : '.' ∉ first :: rest.takeWhile continuesLoose := by
    intro hdot
    rcases List.mem_cons.1 hdot with rfl | hdot
    · exact absurd hfirst (by decide)
    · exact absurd (List.mem_takeWhile_imp hdot) (by decide +kernel)
  have hsplit : first :: rest =
      (first :: rest.takeWhile continuesLoose) ++ rest.dropWhile continuesLoose := by
    rw [List.cons_append, List.takeWhile_append_dropWhile]
  rw [looseNames, if_pos rfl, looseName?_cons, if_pos hfirst]
  exact congrArg (_ :: ·) ((congrArg looseNames hsplit).trans (looseNames_append hname _))

/-- The loose scan gives the matches of the expression, without their dots. -/
theorem scans_looseNames (previous : Option Char) (css : Text) :
    Regex.Scans dottedName previous css ((looseNames css).map ('.' :: ·)) := by
  induction hlength : css.length using Nat.strongRecOn generalizing previous css with
  | ind length ih =>
    cases css with
    | nil =>
      refine .nil fun later hrun => ?_
      obtain ⟨first, run, hread, -⟩ := exists_read_of_runs_dottedName hrun
      cases hread
    | cons c rest =>
      subst hlength
      by_cases hstarts : c = '.' ∧ ∃ first tail, rest = first :: tail ∧ startsLoose first = true
      · obtain ⟨rfl, first, tail, rfl, hfirst⟩ := hstarts
        have hall : ∀ c ∈ tail.takeWhile continuesLoose, continuesLoose c = true :=
          fun c hc => List.mem_takeWhile_imp hc
        have hsplit : '.' :: first :: tail =
            ('.' :: first :: tail.takeWhile continuesLoose) ++ tail.dropWhile continuesLoose := by
          rw [List.cons_append, List.cons_append, List.takeWhile_append_dropWhile]
        rw [looseNames_dot hfirst, List.map_cons, hsplit]
        refine .found (by simp) (runs_dottedName hfirst hall previous _) ?_ ?_
        · intro later hrun
          rw [← hsplit] at hrun
          obtain ⟨_, run, hread, -, hrun⟩ := exists_read_of_runs_dottedName hrun
          have htail : tail = run ++ later.rest := (List.cons.inj (List.cons.inj hread).2).2
          -- All that the other match reads is dropped here too.
          rw [htail, List.dropWhile_append_of_pos hrun]
          exact (List.dropWhile_suffix _).length_le
        · refine ih _ ?_ _ _ rfl
          have hle := (List.dropWhile_suffix continuesLoose (l := tail)).length_le
          simp only [List.length_cons]
          omega
      · have hlater : looseNames (c :: rest) = looseNames rest := by
          rw [looseNames]
          split
          · rename_i hdot
            cases rest with
            | nil => rfl
            | cons first tail =>
              rw [looseName?_cons, if_neg fun hfirst => hstarts ⟨hdot, first, tail, rfl, hfirst⟩]
              rfl
          · rfl
        rw [hlater]
        refine .skip (fun later hrun => hstarts ?_) (ih _ (by simp) _ _ rfl)
        obtain ⟨first, run, hread, hfirst, -⟩ := exists_read_of_runs_dottedName hrun
        obtain ⟨hdot, hrest⟩ := List.cons.inj hread
        exact ⟨hdot, first, _, hrest, hfirst⟩

/-! ## Classes of the rules -/

/-- The word characters of ASCII are in the first four ranges. -/
theorem isWordChar_of_isAscii {c : Char} (hascii : Text.isAscii c = true) :
    Text.isWordChar c = Text.inRanges (Text.wordRanges.take 4) c.toNat := by
  have hfar : ∀ range ∈ Text.wordRanges.drop 4, 128 ≤ range.1 := by decide +kernel
  have hcode : c.toNat < 128 := of_decide_eq_true hascii
  have hwide : Text.inRanges (Text.wordRanges.drop 4) c.toNat = false := by
    refine List.any_eq_false.2 fun range hrange hin => ?_
    have hle := hfar range hrange
    simp only [Bool.and_eq_true, decide_eq_true_eq] at hin
    omega
  calc Text.isWordChar c
      = Text.inRanges (Text.wordRanges.take 4 ++ Text.wordRanges.drop 4) c.toNat := by
        rw [List.take_append_drop]
        rfl
    _ = (Text.inRanges (Text.wordRanges.take 4) c.toNat ||
          Text.inRanges (Text.wordRanges.drop 4) c.toNat) := List.any_append
    _ = Text.inRanges (Text.wordRanges.take 4) c.toNat := by rw [hwide, Bool.or_false]

theorem continuesLoose_eq {c : Char} (hascii : Text.isAscii c = true) :
    continuesLoose c = Selector.isNameChar c := by
  unfold continuesLoose
  rw [isWordChar_of_isAscii hascii]
  refine forall_isAscii (p := fun c => (Text.inRanges (Text.wordRanges.take 4) c.toNat ||
    c == '-') = Selector.isNameChar c) ?_ hascii
  decide +kernel

theorem startsLoose_of_isNameChar {c : Char} (hascii : Text.isAscii c = true)
    (h : Selector.isNameChar c = true) (hdigit : c.isDigit = false) : startsLoose c = true := by
  refine forall_isAscii (p := fun c => Selector.isNameChar c = true → c.isDigit = false →
    startsLoose c = true) ?_ hascii h hdigit
  decide +kernel

/-- A name between a dot and a stop is found by the loose scan. -/
theorem mem_looseNames {css name : Text} (hascii : ∀ c ∈ css, Text.isAscii c = true)
    (hname : IsUnescaped name) (h : StopsIn css ('.' :: name)) : name ∈ looseNames css := by
  obtain ⟨stop, hstop, front, back, rfl⟩ := h
  obtain ⟨first, rest, rfl, hdigit⟩ := hname.starts
  have hfirst : startsLoose first = true :=
    startsLoose_of_isNameChar (hascii first (by simp)) (hname.chars first (by simp)) hdigit
  have hrest : ∀ c ∈ rest, continuesLoose c = true := by
    intro c hc
    rw [continuesLoose_eq (hascii c (by simp [hc]))]
    exact hname.chars c (List.mem_cons_of_mem first hc)
  have hread : (rest ++ stop :: back).takeWhile continuesLoose = rest := by
    rw [List.takeWhile_append_of_pos hrest, List.takeWhile_cons_of_neg, List.append_nil]
    rw [continuesLoose_eq (hascii stop (by simp)), hstop]
    decide
  have hscan := looseNames_dot hfirst (rest ++ stop :: back)
  rw [hread] at hscan
  have hsplit : front ++ ('.' :: first :: rest ++ [stop]) ++ back =
      front ++ '.' :: first :: (rest ++ stop :: back) := by simp
  rw [hsplit]
  apply (looseNames_suffix front _).subset
  rw [hscan]
  exact List.mem_cons_self

/-- Every class that is found in the masked text is found by the loose scan of the source. -/
theorem mem_looseNames_of_findings? {css shown : Text} {found : List Finding}
    (hascii : ∀ c ∈ css, Text.isAscii c = true) (hescape : '\\' ∉ css)
    (hshown : maskedText css = .ok shown) (hfound : findings? shown css = some found) {name : Text}
    (hname : .className name ∈ found) : name ∈ looseNames css := by
  obtain ⟨hformed, hsource, hmasked⟩ := lexemes_spec hshown
  have hchars : ∀ c ∈ shown, c = ' ' ∨ c = '_' ∨ c ∈ css := by
    intro c hc
    rw [hmasked] at hc
    obtain ⟨lexeme, hlexeme, hc⟩ := List.mem_flatMap.1 hc
    refine lexeme.mem_masked hc |>.imp_right (Or.imp_right fun hc => ?_)
    rw [hsource]
    exact List.mem_flatMap_of_mem hlexeme hc
  have hasciiShown : ∀ c ∈ shown, Text.isAscii c = true := by
    intro c hc
    obtain rfl | rfl | hc := hchars c hc
    · rfl
    · rfl
    · exact hascii c hc
  have hescapeShown : '\\' ∉ shown := fun hmem => by
    obtain h | h | h := hchars '\\' hmem
    · exact absurd h (by decide)
    · exact absurd h (by decide)
    · exact hescape h
  obtain ⟨hplain, hstops⟩ := stopsIn_of_findings? hasciiShown hescapeShown hfound hname
  rw [hmasked] at hstops
  have hstops := stopsIn_of_masked hformed hplain.chars hstops
  rw [← hsource] at hstops
  exact mem_looseNames hascii hplain hstops

/-- In a sheet of ASCII without escapes the loose scan, which gives the matches of its expression
from left to right, finds every class of the sheet.  So it does where a sheet is refused and the
scan is taken for it: no class is lost that is found by the rules of the masked text. -/
theorem looseNames_cover_classes {css : Text} (hascii : ∀ c ∈ css, Text.isAscii c = true)
    (hescape : '\\' ∉ css) :
    (∀ sheet, Stylesheet.parse css = .ok sheet → ∀ name ∈ sheet.classes, name ∈ looseNames css) ∧
    (∀ fault, Stylesheet.parse css = .error fault → blockNames css = looseNames css ∧
      ∀ shown found, maskedText css = .ok shown → findings? shown css = some found →
        ∀ name, .className name ∈ found → name ∈ blockNames css) ∧
    ∀ parts, Regex.Scans dottedName none css parts ↔ parts = (looseNames css).map ('.' :: ·) := by
  refine ⟨?_, ?_, fun parts => ⟨?_, ?_⟩⟩
  · intro sheet hsheet name hname
    obtain ⟨shown, found, hshown, hfound, rfl⟩ := exists_findings?_of_parse hsheet
    exact mem_looseNames_of_findings? hascii hescape hshown hfound
      (Stylesheet.mem_classes_ofFindings.1 hname)
  · intro fault hfault
    have hloose : blockNames css = looseNames css := by
      unfold blockNames
      rw [hfault]
    refine ⟨hloose, fun shown found hshown hfound name hname => ?_⟩
    rw [hloose]
    exact mem_looseNames_of_findings? hascii hescape hshown hfound hname
  · exact fun hparts => hparts.unique (scans_looseNames none css)
  · rintro rfl
    exact scans_looseNames none css

/-- A sheet with classes beside a comment, a string, a pseudo-class and a nested rule. -/
def besideSample : Text :=
  ".a/*.z*/.b:not(.c)\x7b.d-1\x7bcontent:'.q'\x7d\x7d@media x\x7b.e,.f>g\x7b\x7d\x7d".toList

/-- A sheet with a brace too many between two rules. -/
def brokenSample : Text :=
  ".a\x7b\x7d\x7d.b\x7b\x7d".toList

theorem looseNames_cover_classes_beside :
    ((∀ c ∈ besideSample, Text.isAscii c = true) ∧ '\\' ∉ besideSample) ∧
    (∃ sheet, Stylesheet.parse besideSample = .ok sheet ∧ ['d', '-', '1'] ∈ sheet.classes ∧
      ['d', '-', '1'] ∈ looseNames besideSample) ∧
    (Stylesheet.parse brokenSample = .error (.unbalancedBrace 4) ∧
      findings? brokenSample brokenSample = some [.className ['a'], .className ['b']] ∧
      ['b'] ∈ blockNames brokenSample) ∧
    Regex.Scans dottedName none brokenSample ((looseNames brokenSample).map ('.' :: ·)) := by
  have hascii : ∀ c ∈ besideSample, Text.isAscii c = true := by decide
  have hescape : '\\' ∉ besideSample := by decide
  have hparse : Stylesheet.parse besideSample = .ok (.ofFindings
      [.className ['a'], .className ['b'], .className ['c'], .className ['d', '-', '1'],
        .className ['e'], .className ['f']]) := by decide +kernel
  have hclass : ['d', '-', '1'] ∈ (Stylesheet.ofFindings
      [.className ['a'], .className ['b'], .className ['c'], .className ['d', '-', '1'],
        .className ['e'], .className ['f']]).classes :=
    Stylesheet.mem_classes_ofFindings.2 (by decide)
  have hbroken : Stylesheet.parse brokenSample = .error (.unbalancedBrace 4) := by decide +kernel
  have hmask : maskedText brokenSample = .ok brokenSample := by decide +kernel
  have hfound : findings? brokenSample brokenSample =
      some [.className ['a'], .className ['b']] := by decide +kernel
  obtain ⟨-, hrefused, hscans⟩ :=
    looseNames_cover_classes (show ∀ c ∈ brokenSample, Text.isAscii c = true by decide) (by decide)
  exact ⟨⟨hascii, hescape⟩,
    ⟨_, hparse, hclass, (looseNames_cover_classes hascii hescape).1 _ hparse _ hclass⟩,
    ⟨hbroken, hfound, (hrefused _ hbroken).2 _ _ hmask hfound ['b'] (by decide)⟩,
    (hscans _).2 rfl⟩

end ClassAudit.Css
