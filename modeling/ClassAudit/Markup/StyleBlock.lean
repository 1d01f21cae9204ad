import ClassAudit.Text.Blank
/-!
# Style blocks of a component

The bodies of the `<style>` elements of a component, with tags in any letter case. The first
element that is not closed ends the search.
-/

namespace ClassAudit.StyleBlock

/-- What follows a tag, given in lower case, if the text starts with it in any letter case. -/
def afterTag? : (text tag : Text) → Option Text
  | text, [] => some text
  | [], _ :: _ => none
  | d :: text, c :: tag => if d.toLower = c then afterTag? text tag else none

/-- The parts before and after the first occurrence of a tag in any letter case. -/
def breakTag? (tag : Text) : Text → Option (Text × Text)
  | [] => (afterTag? [] tag).map ([], ·)
  | c :: text =>
    match afterTag? (c :: text) tag with
    | some rest => some ([], rest)
    | none => (breakTag? tag text).map fun parts => (c :: parts.1, parts.2)

/-- The opening of a style element, without its attributes. -/
def openTag : Text := "<style".toList

/-- The closing tag of a style element. -/
def closeTag : Text := "</style>".toList

/-- Whether the name of a tag ends before the text. -/
def endsName (text : Text) : Bool :=
  text.head?.any fun c => Text.isBlank c || c == '>' || c == '/'

theorem length_afterTag? {text tag rest : Text} (h : afterTag? text tag = some rest) :
    text.length = tag.length + rest.length := by
  induction tag generalizing text with
  | nil => simp_all [afterTag?]
  | cons c tag ih =>
    cases text with
    | nil => simp [afterTag?] at h
    | cons d text =>
      simp only [afterTag?] at h
      split at h
      · have := ih h
        simp only [List.length_cons]
        omega
      · exact absurd h (by simp)

theorem length_breakTag? {tag text front rest : Text}
    (h : breakTag? tag text = some (front, rest)) :
    text.length = front.length + tag.length + rest.length := by
  induction text generalizing front with
  | nil =>
    simp only [breakTag?, Option.map_eq_some_iff, Prod.mk.injEq] at h
    obtain ⟨_, h, rfl, rfl⟩ := h
    simpa using length_afterTag? h
  | cons c text ih =>
    simp only [breakTag?] at h
    split at h
    · rename_i h'
      have := length_afterTag? h'
      simp_all
    · simp only [Option.map_eq_some_iff, Prod.mk.injEq] at h
      obtain ⟨⟨front', rest'⟩, h, rfl, rfl⟩ := h
      have := ih h
      simp only [List.length_cons] at this ⊢
      omega

/-- The body of a style element whose name has been read, and the text after the element. -/
def body? (text : Text) : Option (Text × Text) :=
  match Text.cut? '>' text with
  | some (_, content) => breakTag? closeTag content
  | none => none

theorem length_body? {text body rest : Text} (h : body? text = some (body, rest)) :
    rest.length < text.length := by
  simp only [body?] at h
  split at h
  · rename_i front content hcut
    obtain ⟨rfl, -⟩ := Text.cut?_eq_some_iff.1 hcut
    have := length_breakTag? h
    simp only [List.length_append, List.length_cons]
    omega
  · exact absurd h (by simp)

/-- The bodies of the style elements, in order. -/
def bodies (source : Text) : List Text :=
  match _hopen : breakTag? openTag source with
  | none => []
  | some (_, rest) =>
    if endsName rest then
      match _hbody : body? rest with
      | none => []
      | some (body, later) => body :: bodies later
    else bodies rest
termination_by source.length
decreasing_by
  · have := length_breakTag? _hopen
    have := length_body? _hbody
    omega
  · have := length_breakTag? _hopen
    have : 0 < openTag.length := by decide
    omega

end ClassAudit.StyleBlock
