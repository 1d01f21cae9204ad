import ClassAudit.Markup.StyleBlock
/-!
# Style elements of a component

A component is text with style elements in between.  Their tags are searched for in
any letter case.  Each tag starts with the only `<` that it holds, so none begins in
a text and ends in the tag behind that text; and a text may hold longer names, which
the search passes.  So the bodies that are found are those that were written, in the
letter case in which they were written.
-/

namespace ClassAudit.StyleBlock

/-! ## Tags in any letter case -/

/-- A tag, given in lower case, is written in some letter case. -/
def Spells (tag written : Text) : Prop :=
  written.map Char.toLower = tag
deriving Decidable

theorem toLower_cases (c : Char) :
    c.toLower = c ∨ 65 ≤ c.toNat ∧ c.toNat ≤ 90 ∧ c.toLower.toNat = c.toNat + 32 := by
  unfold Char.toLower
  split
  · rename_i hletter
    have hfirst : 65 ≤ c.toNat := UInt32.le_iff_toNat_le.1 hletter.1
    have hlast : c.toNat ≤ 90 := UInt32.le_iff_toNat_le.1 hletter.2
    have hdistance : ('a'.val - 'A'.val).toNat = 32 := rfl
    refine .inr ⟨hfirst, hlast, ?_⟩
    rw [Char.toNat, UInt32.toNat_add, Char.toNat_val, hdistance]
    exact Nat.mod_eq_of_lt (by omega)
  · exact .inl rfl

theorem eq_of_toLower_eq {c : Char} (h : c.toLower = '<') : c = '<' := by
  rcases toLower_cases c with hsame | ⟨hfirst, -, hcode⟩
  · rw [← hsame, h]
  · rw [h] at hcode
    have hopen : '<'.toNat = 60 := rfl
    omega

theorem Spells.head {word written : Text} (h : Spells ('<' :: word) written) (rest : Text) :
    ∀ d ∈ (written ++ rest).head?, d = '<' := by
  cases written with
  | nil => cases h
  | cons c written =>
    rintro d ⟨⟩
    exact eq_of_toLower_eq (List.cons.inj h).1

theorem afterTag?_eq_some_iff {text tag rest : Text} :
    afterTag? text tag = some rest ↔ ∃ written, Spells tag written ∧ text = written ++ rest := by
  unfold Spells
  induction tag generalizing text with
  | nil => simp [afterTag?]
  | cons c tag ih =>
    constructor
    · intro h
      cases text with
      | nil => cases h
      | cons d text =>
        rw [afterTag?] at h
        split at h
        · rename_i hd
          obtain ⟨written, hwritten, rfl⟩ := ih.1 h
          exact ⟨d :: written, by rw [List.map_cons, hd, hwritten], rfl⟩
        · cases h
    · rintro ⟨written, hwritten, rfl⟩
      cases written with
      | nil => cases hwritten
      | cons d written =>
        obtain ⟨hd, hlater⟩ := List.cons.inj hwritten
        rw [List.cons_append, afterTag?, if_pos hd]
        exact ih.2 ⟨written, hlater, rfl⟩

/-- To look for a tag in any letter case is to look for it in the text in lower case. -/
theorem map_afterTag? (text tag : Text) :
    (afterTag? text tag).map (List.map Char.toLower) =
      Text.after? (text.map Char.toLower) tag := by
  induction tag generalizing text with
  | nil => simp [afterTag?, Text.after?]
  | cons c tag ih =>
    cases text with
    | nil => rfl
    | cons d text =>
      rw [afterTag?, List.map_cons, Text.after?]
      by_cases hd : d.toLower = c
      · rw [if_pos hd, if_pos hd.symm, ih]
      · rw [if_neg hd, if_neg (Ne.symm hd)]
        rfl

theorem afterTag?_eq_none_iff {text tag : Text} :
    afterTag? text tag = none ↔ ¬tag <+: text.map Char.toLower := by
  rw [← Text.startsWith_iff, Text.startsWith, ← map_afterTag?, Option.isSome_map,
    Bool.not_eq_true, Option.isSome_eq_false_iff, Option.isNone_iff_eq_none]

/-- A tag that stands at the start of a text lies before a `<` further on. -/
theorem prefix_of_prefix_append {word : Text} (hword : '<' ∉ word) {c : Char} {front rest : Text}
    (hrest : ∀ d ∈ rest.head?, d = '<')
    (h : '<' :: word <+: (c :: (front ++ rest)).map Char.toLower) :
    '<' :: word <+: (c :: front).map Char.toLower := by
  obtain ⟨hc, hlater⟩ := List.cons_prefix_cons.1 h
  refine List.cons_prefix_cons.2 ⟨hc, ?_⟩
  cases rest with
  | nil => rwa [List.append_nil] at hlater
  | cons d rest =>
    obtain rfl := hrest d rfl
    rw [List.map_append] at hlater
    exact Text.prefix_of_prefix_mark hword hlater

theorem breakTag?_spelled {tag written : Text} (h : Spells tag written) (rest : Text) :
    breakTag? tag (written ++ rest) = some ([], rest) := by
  have hafter : afterTag? (written ++ rest) tag = some rest :=
    afterTag?_eq_some_iff.2 ⟨written, h, rfl⟩
  cases htext : written ++ rest with
  | nil =>
    rw [htext] at hafter
    rw [breakTag?, hafter]
    rfl
  | cons c text =>
    rw [htext] at hafter
    rw [breakTag?, hafter]

theorem breakTag?_cons {tag : Text} {c : Char} {text : Text}
    (h : afterTag? (c :: text) tag = none) :
    breakTag? tag (c :: text) =
      (breakTag? tag text).map fun parts => (c :: parts.1, parts.2) := by
  rw [breakTag?, h]

/-! ## The steps of the search -/

theorem bodies_eq (source : Text) :
    bodies source =
      match breakTag? openTag source with
      | none => []
      | some (_, rest) =>
        if endsName rest then
          match body? rest with
          | none => []
          | some (body, later) => body :: bodies later
        else bodies rest := by
  rw [bodies]
  split
  · rename_i hopen
    rw [hopen]
  · rename_i front rest hopen
    rw [hopen]
    simp only
    split
    · split
      · rename_i hbody
        rw [hbody]
      · rename_i hbody
        rw [hbody]
    · rfl

theorem bodies_cons {c : Char} {text : Text} (h : afterTag? (c :: text) openTag = none) :
    bodies (c :: text) = bodies text := by
  rw [bodies_eq (c :: text), bodies_eq text, breakTag?_cons h]
  cases breakTag? openTag text with
  | none => rfl
  | some parts => rfl

/-- A tag with a longer name is passed. -/
theorem bodies_name {written rest : Text} (h : Spells openTag written)
    (hname : endsName rest = false) : bodies (written ++ rest) = bodies rest := by
  rw [bodies_eq, breakTag?_spelled h]
  simp only [hname, Bool.false_eq_true, if_false]

theorem bodies_element {written text body rest : Text} (h : Spells openTag written)
    (hname : endsName text = true) (hbody : body? text = some (body, rest)) :
    bodies (written ++ text) = body :: bodies rest := by
  rw [bodies_eq, breakTag?_spelled h]
  simp only [hname, hbody, if_true]

/-! ## Texts and elements -/

/-- No blank, `>` or `/` of a text follows the opening of a style element in any letter case. -/
def Untagged (text : Text) : Prop :=
  ∀ c ∈ text, Text.isBlank c = true ∨ c = '>' ∨ c = '/' →
    ¬openTag ++ [c] <:+: text.map Char.toLower
deriving Decidable

/-- A style element as it is written. -/
structure Element where
  /-- The opening of the element, up to its name. -/
  opening : Text
  attributes : Text
  body : Text
  closing : Text
  opening_spells : Spells openTag opening
  attributes_apart : attributes = [] ∨ attributes.startsBlank = true
  attributes_open : '>' ∉ attributes
  body_open : ¬closeTag <:+: body.map Char.toLower
  closing_spells : Spells closeTag closing

def Element.render (element : Element) : Text :=
  element.opening ++ (element.attributes ++ '>' :: (element.body ++ element.closing))

theorem Untagged.of_append {front back : Text} (h : Untagged (front ++ back)) : Untagged back := by
  intro c hc hends hinside
  refine h c (List.mem_append_right front hc) hends (hinside.trans ?_)
  rw [List.map_append]
  exact (List.suffix_append _ _).isInfix

theorem toLower_of_ends {c : Char} (h : Text.isBlank c = true ∨ c = '>' ∨ c = '/') :
    c.toLower = c := by
  rcases h with hblank | rfl | rfl
  · simp only [Text.isBlank, Text.blankRanges, List.any_cons, List.any_nil, Bool.or_eq_true,
      Bool.and_eq_true, decide_eq_true_eq, Bool.false_eq_true, or_false] at hblank
    exact (toLower_cases c).resolve_right (by omega)
  · rfl
  · rfl

theorem endsName_cons (c : Char) (rest : Text) :
    endsName (c :: rest) = true ↔ Text.isBlank c = true ∨ c = '>' ∨ c = '/' := by
  simp [endsName, or_assoc]

/-- Behind the opening of a tag in a text, its name goes on. -/
theorem Untagged.endsName {written later rest : Text} (h : Untagged (written ++ later))
    (hwritten : Spells openTag written) (hrest : ∀ d ∈ rest.head?, d = '<') :
    endsName (later ++ rest) = false := by
  cases later with
  | nil =>
    cases rest with
    | nil => rfl
    | cons d rest =>
      obtain rfl := hrest d rfl
      rfl
  | cons c later =>
    rw [List.cons_append, Bool.eq_false_iff, ne_eq, endsName_cons]
    intro hends
    refine h c (by simp) hends ⟨[], later.map Char.toLower, ?_⟩
    rw [List.map_append, List.map_cons, hwritten, toLower_of_ends hends]
    simp

/-- A text is passed, whatever tag stands behind it. -/
theorem bodies_untagged {text : Text} (h : Untagged text) {rest : Text}
    (hrest : ∀ d ∈ rest.head?, d = '<') : bodies (text ++ rest) = bodies rest := by
  -- A tag in the text takes several characters at once, so the induction is on the length.
  induction hlength : text.length using Nat.strongRecOn generalizing text with
  | ind length ih =>
    cases text with
    | nil => rfl
    | cons c text =>
      cases hafter : afterTag? (c :: text) openTag with
      | none =>
        have hpass : afterTag? (c :: (text ++ rest)) openTag = none := by
          rw [afterTag?_eq_none_iff] at hafter ⊢
          exact fun hprefix => hafter (prefix_of_prefix_append (by decide) hrest hprefix)
        have hshorter : text.length < length := by
          rw [← hlength]
          simp
        rw [List.cons_append, bodies_cons hpass]
        have htext : Untagged text := @Untagged.of_append [c] text h
        exact ih _ hshorter htext rfl
      | some later =>
        obtain ⟨written, hwritten, htext⟩ := afterTag?_eq_some_iff.1 hafter
        have hshorter : later.length < length := by
          have hsize := length_afterTag? hafter
          have hopen : openTag.length = 6 := by decide
          omega
        rw [htext] at h ⊢
        rw [List.append_assoc, bodies_name hwritten (h.endsName hwritten hrest)]
        exact ih _ hshorter h.of_append rfl

/-- A body is read up to the tag that closes it. -/
theorem breakTag?_body {body closing : Text} (hbody : ¬closeTag <:+: body.map Char.toLower)
    (hclosing : Spells closeTag closing) (rest : Text) :
    breakTag? closeTag (body ++ (closing ++ rest)) = some (body, rest) := by
  have hhead : ∀ d ∈ (closing ++ rest).head?, d = '<' := hclosing.head rest
  induction body with
  | nil => exact breakTag?_spelled hclosing rest
  | cons c body ih =>
    have hpass : afterTag? (c :: (body ++ (closing ++ rest))) closeTag = none := by
      rw [afterTag?_eq_none_iff]
      exact fun hprefix => hbody (prefix_of_prefix_append (by decide) hhead hprefix).isInfix
    rw [List.cons_append, breakTag?_cons hpass, ih fun hinside => hbody (List.infix_cons hinside)]
    rfl

namespace Element

theorem bodies_render (element : Element) (rest : Text) :
    bodies (element.render ++ rest) = element.body :: bodies rest := by
  have hname : endsName (element.attributes ++ '>' ::
      (element.body ++ (element.closing ++ rest))) = true := by
    rcases element.attributes_apart with hnone | hblank
    · rw [hnone]
      rfl
    · cases hattributes : element.attributes with
      | nil => rfl
      | cons c attributes =>
        rw [hattributes] at hblank
        exact (endsName_cons _ _).2 (.inl hblank)
  have hbody : body? (element.attributes ++ '>' ::
      (element.body ++ (element.closing ++ rest))) = some (element.body, rest) := by
    rw [body?, Text.cut?_eq_some_iff.2 ⟨rfl, element.attributes_open⟩]
    exact breakTag?_body element.body_open element.closing_spells rest
  have hrender : element.render ++ rest = element.opening ++ (element.attributes ++ '>' ::
      (element.body ++ (element.closing ++ rest))) := by
    simp [render]
  rw [hrender, bodies_element element.opening_spells hname hbody]

theorem head_render (element : Element) (rest : Text) :
    ∀ d ∈ (element.render ++ rest).head?, d = '<' := by
  unfold render
  rw [List.append_assoc]
  exact element.opening_spells.head _

end Element

/-! ## Components -/

/-- A component: a text, and style elements each with the text behind it. -/
structure Component where
  lead : Text
  parts : List (Element × Text)
  lead_untagged : Untagged lead
  parts_untagged : ∀ part ∈ parts, Untagged part.2

namespace Component

def source (component : Component) : Text :=
  component.lead ++ component.parts.flatMap fun part => part.1.render ++ part.2

theorem bodies_parts {lead : Text} {parts : List (Element × Text)} (hlead : Untagged lead)
    (hparts : ∀ part ∈ parts, Untagged part.2) :
    bodies (lead ++ parts.flatMap fun part => part.1.render ++ part.2) =
      parts.map fun part => part.1.body := by
  induction parts generalizing lead with
  | nil =>
    rw [List.flatMap_nil, bodies_untagged hlead (by simp), bodies_eq]
    rfl
  | cons part parts ih =>
    obtain ⟨element, text⟩ := part
    have htext : Untagged text := hparts (element, text) List.mem_cons_self
    rw [List.flatMap_cons, List.append_assoc, bodies_untagged hlead (element.head_render _),
      element.bodies_render, ih htext fun other hother => hparts other (by simp [hother])]
    rfl

end Component

/-- The bodies of the style elements of a component are found in order and as they are written,
whatever the texts, attributes and bodies hold. -/
theorem bodies_source (component : Component) :
    bodies component.source = component.parts.map fun part => part.1.body :=
  Component.bodies_parts component.lead_untagged component.parts_untagged

/-- A longer name, tags in several letter cases, and two elements with no text in between. -/
def neighborSample : Component where
  lead := "<styles>é</styles><style".toList
  parts :=
    [({ opening := "<STYLE".toList
        attributes := " lang='ß'".toList
        body := ".Ä, <style>".toList
        closing := "</Style>".toList
        opening_spells := by decide +kernel
        attributes_apart := by decide +kernel
        attributes_open := by decide +kernel
        body_open := by decide +kernel
        closing_spells := by decide +kernel }, []),
      ({ opening := "<style".toList
         attributes := []
         body := "</STYLES>".toList
         closing := "</STYLE>".toList
         opening_spells := by decide +kernel
         attributes_apart := by decide +kernel
         attributes_open := by decide +kernel
         body_open := by decide +kernel
         closing_spells := by decide +kernel }, "end".toList)]
  lead_untagged := by decide +kernel
  parts_untagged := by decide +kernel

theorem bodies_source_neighborSample :
    neighborSample.source = ("<styles>é</styles><style<STYLE lang='ß'>.Ä, <style></Style>" ++
        "<style></STYLES></STYLE>end").toList ∧
      bodies neighborSample.source = [".Ä, <style>".toList, "</STYLES>".toList] :=
  ⟨by decide +kernel, bodies_source neighborSample⟩

end ClassAudit.StyleBlock
