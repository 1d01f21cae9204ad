import ClassAudit.Proofs.Css.SelectorList
import ClassAudit.Proofs.Theme.TopLevelRules
import ClassAudit.Theme.Tokens
/-!
# Declarations and the tokens they make

The body of a theme rule is written as declarations with blanks around them.
Reading it gives their properties back in order.  A property makes a token of the
one namespace it starts with, or a colour without one, and a theme holds the
tokens of its properties and no others.
-/

namespace ClassAudit

namespace Text

theorem exists_last_visible {text : Text} (h : ∃ c ∈ text, isBlank c = false) :
    ∃ front c back, text = front ++ c :: back ∧ isBlank c = false ∧ ∀ d ∈ back, isBlank d := by
  induction text with
  | nil => simp at h
  | cons first rest ih =>
    by_cases hrest : ∃ c ∈ rest, isBlank c = false
    · obtain ⟨front, c, back, rfl, hc, hback⟩ := ih hrest
      exact ⟨first :: front, c, back, rfl, hc, hback⟩
    · have hback : ∀ d ∈ rest, isBlank d := by simpa using hrest
      refine ⟨[], first, rest, rfl, ?_, hback⟩
      obtain ⟨c, hc, hvisible⟩ := h
      rcases List.mem_cons.1 hc with rfl | hc
      · exact hvisible
      · exact absurd ⟨c, hc, hvisible⟩ hrest

theorem exists_first_visible {text : Text} (h : ∃ c ∈ text, isBlank c = false) :
    ∃ front c back, text = front ++ c :: back ∧ isBlank c = false ∧ ∀ d ∈ front, isBlank d := by
  obtain ⟨c, hc, hvisible⟩ := h
  obtain ⟨front, d, back, hsplit, hd, hfront⟩ :=
    exists_last_visible ⟨c, List.mem_reverse.2 hc, hvisible⟩
  refine ⟨back.reverse, d, front.reverse, ?_, hd, by simpa using hfront⟩
  simpa using congrArg List.reverse hsplit

/-- A text with something visible in it is its trimmed core between blanks. -/
theorem exists_core {text : Text} (h : ∃ c ∈ text, isBlank c = false) :
    ∃ front core back, text = front ++ core ++ back ∧ (∀ c ∈ front, isBlank c) ∧
      (∀ c ∈ back, isBlank c) ∧ core ≠ [] ∧ core.startsBlank = false ∧ core.endsBlank = false := by
  obtain ⟨front, c, rest, rfl, hc, hfront⟩ := exists_first_visible h
  obtain ⟨inner, d, back, hrest, hd, hback⟩ :=
    exists_last_visible ⟨c, List.mem_cons_self (l := rest), hc⟩
  refine ⟨front, inner ++ [d], back, ?_, hfront, hback, by simp, ?_, ?_⟩
  · rw [hrest]
    simp
  · cases inner with
    | nil =>
      obtain rfl : c = d := (List.cons.inj hrest).1
      simpa [startsBlank] using hc
    | cons e inner =>
      obtain rfl : c = e := (List.cons.inj hrest).1
      simpa [startsBlank] using hc
  · simpa [endsBlank] using hd

end Text

namespace Theme

open Css (IsInline)

/-- A custom property, without its two hyphens, and its value. -/
structure Declaration where
  property : Text
  value : Text

namespace Declaration

/-- The property as it is written. -/
def name (declaration : Declaration) : Text :=
  '-' :: '-' :: declaration.property

/-- The characters that end a property or what it stands in. -/
def separators : List Char := [':', ';', '/', '{', '}', '"', '\'']

structure WellFormed (declaration : Declaration) : Prop where
  property : ∀ c ∈ declaration.property, Text.isBlank c = false ∧ c ∉ separators
  value : IsInline declaration.value
  visible : ∃ c ∈ declaration.value, Text.isBlank c = false

instance (declaration : Declaration) : Decidable declaration.WellFormed :=
  decidable_of_iff ((∀ c ∈ declaration.property, Text.isBlank c = false ∧ c ∉ separators) ∧
      IsInline declaration.value ∧ declaration.value.any fun c => !Text.isBlank c)
    ⟨fun ⟨h₁, h₂, h₃⟩ => ⟨h₁, h₂, by simpa using h₃⟩,
      fun h => ⟨h.property, h.value, by simpa using h.visible⟩⟩

variable {declaration : Declaration}

theorem WellFormed.name_spec (h : declaration.WellFormed) :
    ∀ c ∈ declaration.name, Text.isBlank c = false ∧ c ∉ separators := by
  intro c hc
  simp only [name, List.mem_cons] at hc
  rcases hc with rfl | rfl | hc
  · decide
  · decide
  · exact h.property c hc

theorem startsBlank_name (declaration : Declaration) : declaration.name.startsBlank = false := by
  rfl

theorem WellFormed.endsBlank_name (h : declaration.WellFormed) :
    declaration.name.endsBlank = false := by
  unfold Text.endsBlank
  rw [Option.any_eq_false]
  exact fun c hc => (h.name_spec c (List.mem_of_getLast? hc)).1

theorem not_mem_separators_of_isBlank {c : Char} (h : Text.isBlank c) : c ∉ separators := by
  have hnone : ∀ d ∈ separators, Text.isBlank d = false := by decide
  exact fun hmem => Text.ne_of_isBlank h (hnone c hmem) rfl

theorem WellFormed.front_spec (h : declaration.WellFormed) {blanks gap : Text}
    (hblanks : ∀ c ∈ blanks, Text.isBlank c) (hgap : ∀ c ∈ gap, Text.isBlank c) :
    ∀ c ∈ blanks ++ (declaration.name ++ gap), c ∉ separators := by
  intro c hc
  rcases List.mem_append.1 hc with hc | hc
  · exact not_mem_separators_of_isBlank (hblanks c hc)
  · rcases List.mem_append.1 hc with hc | hc
    · exact (h.name_spec c hc).2
    · exact not_mem_separators_of_isBlank (hgap c hc)

theorem WellFormed.quiet (h : declaration.WellFormed) {blanks gap : Text}
    (hblanks : ∀ c ∈ blanks, Text.isBlank c) (hgap : ∀ c ∈ gap, Text.isBlank c) :
    Quiet (blanks ++ (declaration.name ++ gap ++ ':' :: declaration.value)) := by
  have hmarks : ∀ d ∈ ['"', '\'', '/'], d ∈ separators := by decide
  rw [← List.append_assoc]
  apply Quiet.append_of_inert
  · exact fun c hc hmark => h.front_spec hblanks hgap c hc (hmarks c hmark)
  · exact .cons (by decide) (.of_plain h.value.plain)

theorem WellFormed.flat (h : declaration.WellFormed) {blanks gap : Text}
    (hblanks : ∀ c ∈ blanks, Text.isBlank c) (hgap : ∀ c ∈ gap, Text.isBlank c) :
    ∀ c ∈ blanks ++ (declaration.name ++ gap ++ ':' :: declaration.value),
      c ≠ ';' ∧ c ≠ '{' ∧ c ≠ '}' := by
  intro c hc
  rw [← List.append_assoc] at hc
  rcases List.mem_append.1 hc with hc | hc
  · have hspec := h.front_spec hblanks hgap c hc
    simp only [separators, List.mem_cons, not_or] at hspec
    exact ⟨hspec.2.1, hspec.2.2.2.1, hspec.2.2.2.2.1⟩
  · rcases List.mem_cons.1 hc with rfl | hc
    · decide
    · have hflat := h.value.flat c hc
      exact ⟨hflat.2.2, hflat.1, hflat.2.1⟩

end Declaration

/-- The texts that write the body of a rule: a semicolon ends each declaration, and blanks may
stand before it and before its colon. -/
inductive WrittenBody : List Declaration → Text → Prop where
  | nil {blanks : Text} (hblanks : ∀ c ∈ blanks, Text.isBlank c) : WrittenBody [] blanks
  | cons {blanks gap rest : Text} {declaration : Declaration} {declarations : List Declaration}
      (hblanks : ∀ c ∈ blanks, Text.isBlank c) (hgap : ∀ c ∈ gap, Text.isBlank c)
      (hrest : WrittenBody declarations rest) :
      WrittenBody (declaration :: declarations)
        (blanks ++ (declaration.name ++ gap ++ ':' :: declaration.value) ++ ';' :: rest)

/-! ## Reading a body -/

theorem splitDeclarations_cons {c : Char} {rest part : Text} {parts : List Text}
    (hc : c ≠ ';' ∧ c ≠ '{' ∧ c ≠ '}') (h : splitDeclarations 0 rest = part :: parts) :
    splitDeclarations 0 (c :: rest) = (c :: part) :: parts := by
  rw [splitDeclarations, if_neg fun hend => hc.1 hend.1]
  simp only [if_neg hc.2.1, if_neg hc.2.2, h]

/-- A text without semicolons and braces belongs to the first part. -/
theorem splitDeclarations_append {text rest part : Text} {parts : List Text}
    (htext : ∀ c ∈ text, c ≠ ';' ∧ c ≠ '{' ∧ c ≠ '}')
    (h : splitDeclarations 0 rest = part :: parts) :
    splitDeclarations 0 (text ++ rest) = (text ++ part) :: parts := by
  induction text with
  | nil => exact h
  | cons c text ih =>
    exact splitDeclarations_cons (htext c (by simp)) (ih fun d hd => htext d (by simp [hd]))

theorem splitDeclarations_semicolon (rest : Text) :
    splitDeclarations 0 (';' :: rest) = [] :: splitDeclarations 0 rest := by
  rw [splitDeclarations, if_pos ⟨rfl, rfl⟩]

theorem dropComments_of_head {text : Text} (h : text.head? ≠ some '/') :
    dropComments text = text := by
  rw [dropComments]
  rintro content rfl
  exact absurd rfl h

theorem declaredName?_blanks {blanks : Text} (h : ∀ c ∈ blanks, Text.isBlank c) :
    declaredName? blanks = none := by
  have htrim : Text.trim blanks = [] := by
    have hstart := Text.trimStart_blanks_append h (show Text.startsBlank [] = false by rfl)
    rw [List.append_nil] at hstart
    unfold Text.trim
    rw [hstart]
    rfl
  unfold declaredName?
  rw [htrim, dropComments_of_head (by simp)]
  rfl

theorem declaredName?_written {declaration : Declaration} (h : declaration.WellFormed)
    {blanks gap : Text} (hblanks : ∀ c ∈ blanks, Text.isBlank c)
    (hgap : ∀ c ∈ gap, Text.isBlank c) :
    declaredName? (blanks ++ (declaration.name ++ gap ++ ':' :: declaration.value)) =
      some declaration.name := by
  obtain ⟨front, core, back, hvalue, hfront, hback, hcore, hstarts, hends⟩ :=
    Text.exists_core h.visible
  have hne : declaration.name ≠ [] := List.cons_ne_nil _ _
  -- Trimming the part takes the blanks behind the value; those before it are left for later.
  have htrim : Text.trim (blanks ++ (declaration.name ++ gap ++ ':' :: declaration.value)) =
      declaration.name ++ gap ++ ':' :: (front ++ core) := by
    have hsplit : blanks ++ (declaration.name ++ gap ++ ':' :: declaration.value) =
        blanks ++ (declaration.name ++ gap ++ ':' :: (front ++ core)) ++ back := by
      rw [hvalue]
      simp
    have hend : (declaration.name ++ gap ++ ':' :: (front ++ core)).endsBlank = false := by
      rw [← List.cons_append, ← List.append_assoc]
      exact Text.endsBlank_append hcore hends _
    rw [hsplit, Text.trim_blanks_around hblanks hback (by simp) rfl hend]
  have hcut : Text.cut? ':' (declaration.name ++ gap ++ ':' :: (front ++ core)) =
      some (declaration.name ++ gap, front ++ core) := by
    refine Text.cut?_eq_some_iff.2 ⟨rfl, fun hmem => ?_⟩
    rcases List.mem_append.1 hmem with hmem | hmem
    · exact (h.name_spec ':' hmem).2 (by decide)
    · exact absurd (hgap ':' hmem) (by decide)
  have hname : Text.trim (declaration.name ++ gap) = declaration.name := by
    have htrimmed := Text.trim_blanks_around (List.forall_mem_nil _) hgap hne
      declaration.startsBlank_name h.endsBlank_name
    rwa [List.nil_append] at htrimmed
  have hshown : Text.trim (front ++ core) = core := by
    have htrimmed := Text.trim_blanks_around hfront (List.forall_mem_nil _) hcore hstarts hends
    rwa [List.append_nil] at htrimmed
  have hhyphens : Text.startsWith declaration.name ['-', '-'] = true :=
    Text.startsWith_iff.2 ⟨declaration.property, rfl⟩
  unfold declaredName?
  rw [htrim, dropComments_of_head (by simp [Declaration.name]), hcut]
  simp [hname, hshown, hhyphens, hcore]

namespace WrittenBody

variable {declarations : List Declaration} {body : Text}

theorem quiet (h : WrittenBody declarations body)
    (hform : ∀ declaration ∈ declarations, declaration.WellFormed) : Quiet body := by
  induction h with
  | @nil blanks hblanks =>
    have hinert : ∀ c ∈ blanks, c ∉ ['"', '\'', '/'] := by
      intro c hc hmark
      have hmarks : ∀ d ∈ ['"', '\'', '/'], d ∈ Declaration.separators := by decide
      exact Declaration.not_mem_separators_of_isBlank (hblanks c hc) (hmarks c hmark)
    have hquiet := Quiet.append_of_inert hinert .nil
    rwa [List.append_nil] at hquiet
  | @cons blanks gap rest declaration declarations hblanks hgap hrest ih =>
    have hrestQuiet := ih fun other hother => hform other (by simp [hother])
    exact ((hform declaration (by simp)).quiet hblanks hgap).append
      (.cons (by decide) hrestQuiet) (by simp)

theorem braceless (h : WrittenBody declarations body)
    (hform : ∀ declaration ∈ declarations, declaration.WellFormed) :
    ∀ c ∈ body, c ≠ '{' ∧ c ≠ '}' := by
  induction h with
  | nil hblanks =>
    intro c hc
    exact ⟨Text.ne_of_isBlank (hblanks c hc) (by decide),
      Text.ne_of_isBlank (hblanks c hc) (by decide)⟩
  | @cons blanks gap rest declaration declarations hblanks hgap hrest ih =>
    intro c hc
    rcases List.mem_append.1 hc with hc | hc
    · exact ((hform declaration (by simp)).flat hblanks hgap c hc).2
    · rcases List.mem_cons.1 hc with rfl | hc
      · decide
      · exact ih (fun other hother => hform other (by simp [hother])) c hc

theorem declaredNames_eq (h : WrittenBody declarations body)
    (hform : ∀ declaration ∈ declarations, declaration.WellFormed) :
    declaredNames body = declarations.map Declaration.name := by
  unfold declaredNames
  induction h with
  | @nil blanks hblanks =>
    have hflat : ∀ c ∈ blanks, c ≠ ';' ∧ c ≠ '{' ∧ c ≠ '}' := by
      intro c hc
      exact ⟨Text.ne_of_isBlank (hblanks c hc) (by decide),
        Text.ne_of_isBlank (hblanks c hc) (by decide),
        Text.ne_of_isBlank (hblanks c hc) (by decide)⟩
    have hsplit := splitDeclarations_append hflat (show splitDeclarations 0 [] = [[]] from rfl)
    rw [List.append_nil] at hsplit
    rw [hsplit]
    simp [declaredName?_blanks hblanks]
  | @cons blanks gap rest declaration declarations hblanks hgap hrest ih =>
    have hdeclaration := hform declaration (by simp)
    have hname := declaredName?_written hdeclaration hblanks hgap
    rw [splitDeclarations_append (hdeclaration.flat hblanks hgap)
      (splitDeclarations_semicolon rest), List.append_nil, List.filterMap_cons_some hname,
      ih fun other hother => hform other (by simp [hother]), List.map_cons]

end WrittenBody

end Theme

/-! ## Tokens -/

namespace ThemeTokens

/-- The namespace that a property starts with, and the rest of the property. -/
def kindOf? (property : Text) : Option (TokenKind × Text) :=
  TokenKind.all.findSome? fun kind => (Text.after? property kind.namespaceOf).map (kind, ·)

theorem eq_of_namespaceOf_starts {kind other : TokenKind}
    (h : kind.namespaceOf <+: other.namespaceOf) : kind = other := by
  cases kind <;> cases other <;> first | rfl | exact absurd h (by decide)

theorem eq_of_namespaceOf_append_eq {kind other : TokenKind} {name rest : Text}
    (h : kind.namespaceOf ++ name = other.namespaceOf ++ rest) : kind = other := by
  have hkind : kind.namespaceOf <+: other.namespaceOf ++ rest := ⟨name, h⟩
  have hother : other.namespaceOf <+: other.namespaceOf ++ rest := ⟨rest, rfl⟩
  rcases List.prefix_or_prefix_of_prefix hkind hother with hpair | hpair
  · exact eq_of_namespaceOf_starts hpair
  · exact (eq_of_namespaceOf_starts hpair).symm

theorem eq_append_of_kindOf? {property name : Text} {kind : TokenKind}
    (h : kindOf? property = some (kind, name)) : property = kind.namespaceOf ++ name := by
  obtain ⟨other, -, hother⟩ := List.exists_of_findSome?_eq_some h
  obtain ⟨rest, hrest, hpair⟩ := Option.map_eq_some_iff.1 hother
  obtain ⟨rfl, rfl⟩ := Prod.mk.inj hpair
  exact Text.after?_eq_some_iff.1 hrest

/-- A property belongs to one namespace at most. -/
theorem kindOf?_eq_some_iff {property name : Text} {kind : TokenKind} :
    kindOf? property = some (kind, name) ↔ property = kind.namespaceOf ++ name := by
  refine ⟨eq_append_of_kindOf?, fun h => ?_⟩
  have hsome : (kindOf? property).isSome := by
    rw [kindOf?, List.findSome?_isSome_iff]
    refine ⟨kind, by cases kind <;> decide, ?_⟩
    rw [Text.after?_eq_some_iff.2 h]
    rfl
  obtain ⟨⟨other, rest⟩, hfound⟩ := Option.isSome_iff_exists.1 hsome
  have hsplit := eq_append_of_kindOf? hfound
  obtain rfl : kind = other := eq_of_namespaceOf_append_eq (h.symm.trans hsplit)
  obtain rfl : name = rest := List.append_cancel_left (h.symm.trans hsplit)
  exact hfound

theorem kindOf?_alias : ∀ name ∈ colorAliases, kindOf? name = none := by
  decide

theorem tokenOf?_eq_some_iff {property name : Text} {kind : TokenKind} :
    tokenOf? ('-' :: '-' :: property) = some (kind, name) ↔
      (property = kind.namespaceOf ++ name ∧ isTokenName name) ∨
        (kind = .color ∧ property = name ∧ name ∈ colorAliases) := by
  have hstages : tokenOf? ('-' :: '-' :: property) =
      (kindOf? property).elim
        (if colorAliases.contains property then some (.color, property) else none)
        fun found => if isTokenName found.2 then some found else none := by
    simp only [tokenOf?, Text.after?, if_true, kindOf?, Option.bind_eq_bind, Option.bind_some]
    split
    · rename_i hfound
      rw [hfound]
      rfl
    · rename_i hfound
      rw [hfound]
      rfl
  rw [hstages, ← kindOf?_eq_some_iff]
  cases hfound : kindOf? property with
  | some found =>
    obtain ⟨other, token⟩ := found
    have halias : ¬(kind = .color ∧ property = name ∧ name ∈ colorAliases) := by
      rintro ⟨-, rfl, hmem⟩
      rw [kindOf?_alias property hmem] at hfound
      cases hfound
    simp only [halias, or_false, Option.some.injEq, Prod.mk.injEq]
    split
    · rename_i htoken
      grind
    · rename_i htoken
      grind
  | none =>
    simp only [reduceCtorEq, false_and, false_or, List.contains_iff_mem]
    split
    · rename_i hmem
      grind
    · rename_i hmem
      grind

theorem mem_get_insert {tokens : ThemeTokens} {kind other : TokenKind} {name token : Text} :
    name ∈ (tokens.insert other token).get kind ↔
      (other, token) = (kind, name) ∨ name ∈ tokens.get kind := by
  cases other <;> cases kind <;> simp [insert, get, eq_comm]

theorem mem_get_foldl_insert {list : List (TokenKind × Text)} {tokens : ThemeTokens}
    {kind : TokenKind} {name : Text} :
    name ∈ (list.foldl (fun tokens token => tokens.insert token.1 token.2) tokens).get kind ↔
      (kind, name) ∈ list ∨ name ∈ tokens.get kind := by
  induction list generalizing tokens with
  | nil => simp
  | cons token list ih =>
    rw [List.foldl_cons, ih, mem_get_insert, List.mem_cons, or_left_comm, ← or_assoc, eq_comm]

theorem mem_get_parse {css name : Text} {kind : TokenKind} :
    name ∈ (parse css).get kind ↔
      ∃ property ∈ (Theme.bodies css).flatMap Theme.declaredNames,
        tokenOf? property = some (kind, name) := by
  have hempty : name ∉ get {} kind := by
    cases kind <;> exact NameSet.not_mem_empty name
  unfold parse
  rw [mem_get_foldl_insert, List.mem_filterMap]
  exact or_iff_left hempty

theorem mem_utilityClasses {tokens : ThemeTokens} {className : Text} :
    className ∈ tokens.utilityClasses ↔
      ∃ kind stem name, stem ∈ kind.stems ∧ name ∈ tokens.get kind ∧
        className = stem ++ '-' :: name := by
  have hall : ∀ kind : TokenKind, kind ∈ TokenKind.all := by
    intro kind
    cases kind <;> decide
  unfold utilityClasses
  rw [NameSet.mem_ofList]
  simp only [List.mem_flatMap, List.mem_map, ← NameSet.mem_def]
  constructor
  · rintro ⟨kind, -, name, hname, stem, hstem, rfl⟩
    exact ⟨kind, stem, name, hstem, hname, rfl⟩
  · rintro ⟨kind, stem, name, hstem, hname, rfl⟩
    exact ⟨kind, hall kind, name, hname, stem, hstem, rfl⟩

end ThemeTokens

end ClassAudit
