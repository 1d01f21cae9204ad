import ClassAudit.Css.Block
import ClassAudit.Css.Selector
import ClassAudit.NameSet
import ClassAudit.Text.Blank
/-!
# Style sheets

What a style sheet defines: the class names of its selectors at any depth of nesting and the names
of its keyframes. A selector that cannot be read is skipped and reported; a sheet whose comments,
strings or braces do not close is refused.
-/

namespace ClassAudit.Css

/-- What stands before an opening brace. -/
inductive Header where
  /-- A keyframes rule and its name. -/
  | keyframes (name : Text)
  /-- Any other at-rule. -/
  | grouping
  /-- A list of selectors. -/
  | selectors (list : Text)
  deriving DecidableEq

namespace Header

/-- The words that start a keyframes rule. -/
def keyframesWords : List Text :=
  Text.table ["@keyframes", "@-webkit-keyframes", "@-moz-keyframes", "@-o-keyframes"]

/-- Whether a character ends the first word of an at-rule. -/
def endsWord (c : Char) : Bool :=
  Text.isBlank c || c == '('

/-- The cells of a header: what follows the last semicolon, without blanks in front. -/
def cellsOf (front : List Cell) : List Cell :=
  (front.reverse.takeWhile fun cell => cell.shown ≠ ';').reverse.dropWhile fun cell =>
    Text.isBlank cell.shown

/-- The name of a keyframes rule, read from its source: without blanks and quotes around it. -/
def keyframesName (source : Text) : Text :=
  let isQuote := fun c : Char => c == '"' || c == '\''
  Text.dropEndWhile isQuote ((Text.trim source).dropWhile isQuote)

/-- Reads the header before an opening brace. -/
def ofFront (front : List Cell) : Header :=
  let cells := cellsOf front
  let word := (cells.map Cell.shown).takeWhile fun c => !endsWord c
  if word.head? = some '@' then
    if keyframesWords.contains word then
      .keyframes (keyframesName (sourceOf (cells.drop word.length)))
    else .grouping
  else .selectors (Text.trim (render cells))

end Header

/-- Something that a style sheet is found to hold. -/
inductive Finding where
  | className (name : Text)
  | keyframes (name : Text)
  | skipped (fault : Fault)
  deriving DecidableEq

/-- What one selector holds. -/
def selectorFindings (selector : Text) : List Finding :=
  match Selector.classes selector with
  | .ok names => names.map .className
  | .error cause => [.skipped (.invalidSelector selector cause)]

/-- What a list of selectors holds. -/
def listFindings (list : Text) : List Finding :=
  (((Selector.splitCommas 0 list).map Text.trim).filter fun selector => !selector.isEmpty).flatMap
    selectorFindings

/-- What a block holds, in source order. The body of a keyframes rule is not read. -/
def Block.findings : Block → List Finding
  | .done _ => []
  | .rule front body next =>
    (match Header.ofFront front with
      | .keyframes name => if name.isEmpty then [] else [.keyframes name]
      | .grouping => body.findings
      | .selectors list => listFindings list ++ body.findings) ++ next.findings

/-- What a style sheet defines, and the faults of the selectors left out. -/
structure Stylesheet where
  classes : NameSet := ∅
  keyframes : NameSet := ∅
  skipped : List Fault := []
  deriving DecidableEq

namespace Stylesheet

/-- Collects findings. -/
def ofFindings (findings : List Finding) : Stylesheet where
  classes := .ofList (findings.filterMap fun | .className name => some name | _ => none)
  keyframes := .ofList (findings.filterMap fun | .keyframes name => some name | _ => none)
  skipped := findings.filterMap fun | .skipped fault => some fault | _ => none

@[simp] theorem mem_classes_ofFindings {findings : List Finding} {name : Text} :
    name ∈ (ofFindings findings).classes ↔ .className name ∈ findings := by
  simp only [ofFindings, NameSet.mem_ofList, List.mem_filterMap]
  constructor
  · rintro ⟨_ | _ | _, hmem, h⟩ <;> simp_all
  · exact fun hmem => ⟨_, hmem, rfl⟩

@[simp] theorem mem_keyframes_ofFindings {findings : List Finding} {name : Text} :
    name ∈ (ofFindings findings).keyframes ↔ .keyframes name ∈ findings := by
  simp only [ofFindings, NameSet.mem_ofList, List.mem_filterMap]
  constructor
  · rintro ⟨_ | _ | _, hmem, h⟩ <;> simp_all
  · exact fun hmem => ⟨_, hmem, rfl⟩

theorem skipped_ofFindings_append (front rest : List Finding) :
    (ofFindings (front ++ rest)).skipped =
      (ofFindings front).skipped ++ (ofFindings rest).skipped :=
  List.filterMap_append

/-- Reads a style sheet. -/
def parse (css : Text) : Except Fault Stylesheet := do
  let cells ← mask css
  matchBraces [] 0 cells
  return ofFindings (Block.ofCells cells).findings

theorem parse_of_mask {css : Text} {cells : List Cell} (h : mask css = .ok cells) :
    parse css =
      (matchBraces [] 0 cells).map fun _ => ofFindings (Block.ofCells cells).findings := by
  unfold parse
  rw [h]
  show (matchBraces [] 0 cells).bind _ = _
  cases matchBraces [] 0 cells <;> rfl

/-- The class names, then the keyframes names, each in code point order. -/
def sortedNames (sheet : Stylesheet) : List Text :=
  sheet.classes.toList ++ sheet.keyframes.toList

/-- The class names and keyframes names as one set. -/
def defined (sheet : Stylesheet) : NameSet :=
  sheet.classes ∪ sheet.keyframes

end Stylesheet

end ClassAudit.Css
