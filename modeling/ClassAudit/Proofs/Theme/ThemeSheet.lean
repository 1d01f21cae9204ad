import ClassAudit.Proofs.Theme.DeclaredTokens
import ClassAudit.Proofs.Utility.Derivation
/-!
# From theme rules to utility classes

A style sheet is written as theme rules with other text before, between and
behind them.  The tokens read from it are those that its rules declare, and the
classes that its theme accepts are described by these declarations alone.
-/

namespace ClassAudit.Theme

/-- A theme rule: what stands between its word and its brace, and its declarations. -/
structure Rule where
  header : Text
  declarations : List Declaration

structure Rule.WellFormed (rule : Rule) : Prop where
  quiet : Quiet rule.header
  flat : ∀ c ∈ rule.header, c ≠ '{' ∧ c ≠ '}' ∧ c ≠ ';'
  declarations : ∀ declaration ∈ rule.declarations, declaration.WellFormed

instance (rule : Rule) : Decidable rule.WellFormed :=
  decidable_of_iff (Quiet rule.header ∧ (∀ c ∈ rule.header, c ≠ '{' ∧ c ≠ '}' ∧ c ≠ ';') ∧
      ∀ declaration ∈ rule.declarations, declaration.WellFormed)
    ⟨fun ⟨h₁, h₂, h₃⟩ => ⟨h₁, h₂, h₃⟩, fun h => ⟨h.quiet, h.flat, h.declarations⟩⟩

/-- The texts that write theme rules at the top level.  The text before a rule, and the one behind
the last, is a chunk that may be empty. -/
inductive WrittenSheet : List Rule → Text → Prop where
  | nil {chunk : Text} (hchunk : IsChunk chunk) : WrittenSheet [] chunk
  | cons {chunk body rest : Text} {rule : Rule} {rules : List Rule} (hchunk : IsChunk chunk)
      (hbody : WrittenBody rule.declarations body) (hrest : WrittenSheet rules rest) :
      WrittenSheet (rule :: rules)
        (chunk ++ (themeWord ++ (rule.header ++ '{' :: (body ++ '}' :: rest))))

/-- The characters of names: letters and digits of ASCII, hyphens, underscores and dots. -/
def IsTokenChar (c : Char) : Prop :=
  c.isAlphanum ∨ c = '-' ∨ c = '_' ∨ c = '.'

instance (c : Char) : Decidable (IsTokenChar c) :=
  inferInstanceAs (Decidable (_ ∨ _))

/-- The names that rules declare for a namespace, and as colours also those that need none. -/
def Declares (rules : List Rule) (kind : TokenKind) (name : Text) : Prop :=
  ∃ rule ∈ rules, ∃ declaration ∈ rule.declarations,
    (declaration.property = kind.namespaceOf ++ name ∧ name ≠ [] ∧ ∀ c ∈ name, IsTokenChar c) ∨
      (kind = .color ∧ declaration.property = name ∧ name ∈ ThemeTokens.colorAliases)

instance (rules : List Rule) (kind : TokenKind) (name : Text) :
    Decidable (Declares rules kind name) :=
  inferInstanceAs (Decidable (∃ rule ∈ rules, ∃ declaration ∈ rule.declarations, _ ∨ _))

/-- The classes that rules make: a stem of a namespace before a name declared for it. -/
def Makes (rules : List Rule) (className : Text) : Prop :=
  ∃ kind stem name, stem ∈ TokenKind.stems kind ∧ Declares rules kind name ∧
    className = stem ++ '-' :: name

/-- A class that rules make, with an opacity behind it or without. -/
def Covers (rules : List Rule) (base : Text) : Prop :=
  Makes rules base ∨ ∃ className opacity, Makes rules className ∧
    Utility.isOpacity opacity = true ∧ base = className ++ '/' :: opacity

/-! ## Reading a sheet -/

theorem themeWord_append_head? (text : Text) : (themeWord ++ text).head? = some '@' := rfl

/-- The search finds the rules, and each body gives its declarations back. -/
theorem WrittenSheet.declaredNames_eq {rules : List Rule} {css : Text} (h : WrittenSheet rules css)
    (hform : ∀ rule ∈ rules, rule.WellFormed) :
    (bodies css).flatMap declaredNames =
      rules.flatMap fun rule => rule.declarations.map Declaration.name := by
  unfold bodies
  -- Behind a rule the search is back where it started, so the rest of the sheet is one as well.
  induction h with
  | @nil chunk hchunk =>
    obtain ⟨slash, hnone⟩ := bodiesFrom_chunk hchunk (.inl rfl)
    rw [List.append_nil] at hnone
    rw [hnone, bodiesFrom]
    rfl
  | @cons chunk body rest rule rules hchunk hbody _ ih =>
    have hrule := hform rule (by simp)
    obtain ⟨slash, hstart⟩ := bodiesFrom_chunk hchunk (.inr (themeWord_append_head?
      (rule.header ++ '{' :: (body ++ '}' :: rest))))
    have hfound := bodiesFrom_themeRule hrule.quiet hrule.flat (hbody.quiet hrule.declarations)
      (hbody.braceless hrule.declarations) slash rest
    have hlater := ih fun other hother => hform other (by simp [hother])
    rw [hstart, hfound, List.flatMap_cons, List.flatMap_cons,
      hbody.declaredNames_eq hrule.declarations, hlater]

theorem isTokenName_iff {name : Text} :
    ThemeTokens.isTokenName name = true ↔ name ≠ [] ∧ ∀ c ∈ name, IsTokenChar c := by
  simp [ThemeTokens.isTokenName, Text.isPlainNameChar, IsTokenChar, or_assoc]

theorem WrittenSheet.mem_get_parse_iff {rules : List Rule} {css : Text}
    (h : WrittenSheet rules css) (hform : ∀ rule ∈ rules, rule.WellFormed) (kind : TokenKind)
    (name : Text) : name ∈ (ThemeTokens.parse css).get kind ↔ Declares rules kind name := by
  unfold Declares
  rw [ThemeTokens.mem_get_parse, h.declaredNames_eq hform, ← isTokenName_iff]
  simp only [List.mem_flatMap, List.mem_map]
  constructor
  · rintro ⟨_, ⟨rule, hrule, declaration, hdeclaration, rfl⟩, htoken⟩
    exact ⟨rule, hrule, declaration, hdeclaration, ThemeTokens.tokenOf?_eq_some_iff.1 htoken⟩
  · rintro ⟨rule, hrule, declaration, hdeclaration, htoken⟩
    exact ⟨declaration.name, ⟨rule, hrule, declaration, hdeclaration, rfl⟩,
      ThemeTokens.tokenOf?_eq_some_iff.2 htoken⟩

/-! ## The classes of a theme -/

theorem isTokenChar_stem : ∀ kind : TokenKind, ∀ stem ∈ kind.stems, ∀ c ∈ stem, IsTokenChar c := by
  intro kind
  cases kind <;> decide

theorem isTokenChar_alias : ∀ name ∈ ThemeTokens.colorAliases, ∀ c ∈ name, IsTokenChar c := by
  decide

theorem Declares.isTokenChar {rules : List Rule} {kind : TokenKind} {name : Text}
    (h : Declares rules kind name) : ∀ c ∈ name, IsTokenChar c := by
  obtain ⟨_, _, _, _, ⟨-, -, hchars⟩ | ⟨-, -, halias⟩⟩ := h
  · exact hchars
  · exact isTokenChar_alias name halias

theorem closedFrom_of_isTokenChar {text : Text} (h : ∀ c ∈ text, IsTokenChar c) :
    ClosedFrom 0 '/' text := by
  induction text with
  | nil => exact ⟨rfl, hidesFrom_nil 0 '/'⟩
  | cons c rest ih =>
    have hmarks : ∀ mark ∈ ['/', '[', '(', ']', ')'], ¬IsTokenChar mark := by decide
    have hc : c ∉ ['/', '[', '(', ']', ')'] := fun hmem => hmarks c hmem (h c (by simp))
    simp only [List.mem_cons, List.not_mem_nil, or_false, not_or] at hc
    have hnesting : nestingAfter 0 c = 0 := by
      unfold nestingAfter
      rw [if_neg (by simp [hc]), if_neg (by simp [hc])]
    rw [closedFrom_cons, hnesting]
    exact ⟨fun hslash => hc.1 hslash.1, ih fun d hd => h d (by simp [hd])⟩

theorem Makes.closedFrom {rules : List Rule} {className : Text} (h : Makes rules className) :
    ClosedFrom 0 '/' className := by
  obtain ⟨kind, stem, name, hstem, hname, rfl⟩ := h
  apply closedFrom_of_isTokenChar
  intro c hc
  rcases List.mem_append.1 hc with hc | hc
  · exact isTokenChar_stem kind stem hstem c hc
  · rcases List.mem_cons.1 hc with rfl | hc
    · decide
    · exact hname.isTokenChar c hc

theorem Makes.ne_nil {rules : List Rule} {className : Text} (h : Makes rules className) :
    className ≠ [] := by
  obtain ⟨kind, stem, name, -, -, rfl⟩ := h
  simp

theorem Covers.ne_nil {rules : List Rule} {base : Text} (h : Covers rules base) : base ≠ [] := by
  rcases h with hmakes | ⟨className, opacity, -, -, rfl⟩
  · exact hmakes.ne_nil
  · simp

theorem accepts_iff_covers {rules : List Rule} {classes : NameSet}
    (h : ∀ className, className ∈ classes ↔ Makes rules className) (token : Text) :
    accepts classes token = true ↔ ∃ base, Utility.base? token = some base ∧ Covers rules base := by
  unfold accepts Covers
  rw [Option.any_eq_true]
  refine exists_congr fun base => and_congr_right fun _ => ?_
  rw [Bool.or_eq_true, NameSet.contains_iff, h, Option.any_eq_true]
  refine or_congr_right ?_
  constructor
  · rintro ⟨⟨className, opacity⟩, hcut, htest⟩
    rw [Bool.and_eq_true, NameSet.contains_iff, h] at htest
    exact ⟨className, opacity, htest.2, htest.1, (Utility.cutOpacity?_eq_some_iff.1 hcut).1⟩
  · rintro ⟨className, opacity, hmakes, hopacity, rfl⟩
    -- A class has no slash and no brackets, so the cut is at the slash behind it.
    have hcut : Utility.cutOpacity? (className ++ '/' :: opacity) = some (className, opacity) :=
      Utility.cutOpacity?_eq_some_iff.2 ⟨rfl, hmakes.closedFrom, hmakes.ne_nil⟩
    refine ⟨(className, opacity), hcut, ?_⟩
    rw [Bool.and_eq_true, NameSet.contains_iff, h]
    exact ⟨hopacity, hmakes⟩

end ClassAudit.Theme

namespace ClassAudit.ThemeTokens

open Theme Utility

/-- The tokens of a written sheet are those that its rules declare, and its theme accepts a token
when the token is variants before a class that the rules make, with an opacity or without. -/
theorem parse_declares_and_accepts {rules : List Rule} {css : Text}
    (hform : ∀ rule ∈ rules, rule.WellFormed) (hcss : WrittenSheet rules css) :
    (∀ kind name, name ∈ (parse css).get kind ↔ Declares rules kind name) ∧
    ∀ token, accepts (parse css).utilityClasses token = true ↔
      ∃ (modifiers : List Text) (base core : Text),
        Marked (modifiers.flatMap (· ++ [':']) ++ base) token ∧
        (∀ modifier ∈ modifiers, ClosedFrom 0 ':' modifier ∧ Variant.isValid modifier = true) ∧
        HidesFrom 0 ':' base ∧ Marked core base ∧ Covers rules core := by
  have hget := hcss.mem_get_parse_iff hform
  refine ⟨hget, fun token => ?_⟩
  have hclasses : ∀ className, className ∈ (parse css).utilityClasses ↔ Makes rules className := by
    intro className
    simp only [mem_utilityClasses, hget, Makes]
  rw [accepts_iff_covers hclasses]
  simp only [base?_eq_some_iff]
  constructor
  · rintro ⟨core, ⟨modifiers, base, htoken, hmodifiers, hbase, hmarked, -⟩, hcovers⟩
    exact ⟨modifiers, base, core, htoken, hmodifiers, hbase, hmarked, hcovers⟩
  · rintro ⟨modifiers, base, core, htoken, hmodifiers, hbase, hmarked, hcovers⟩
    exact ⟨core, ⟨modifiers, base, htoken, hmodifiers, hbase, hmarked, hcovers.ne_nil⟩, hcovers⟩

/-- Two theme rules; the last property of the first makes no token. -/
def layeredRules : List Rule :=
  [⟨" inline".toList, [⟨"spacing-1.5".toList, "6px".toList⟩, ⟨"color-a!".toList, " red".toList⟩]⟩,
    ⟨[], [⟨"primary".toList, " blue".toList⟩]⟩]

/-- A text of `layeredRules`, with a third theme rule inside a layer. -/
def layeredSheet : Text :=
  ("@layer a\x7b@theme\x7b--color-no:red;\x7d\x7d" ++
    "@theme inline\x7b --spacing-1.5 :6px; --color-a!: red; \x7d\n" ++
    "@theme\x7b--primary: blue;\x7d").toList

theorem isChunk_layer : IsChunk ("@layer a".toList ++ ('{' ::
    ("@theme".toList ++ ('{' :: "--color-no:red;".toList ++ '}' :: [])) ++ '}' :: [])) where
  plain := by decide
  balanced := .append (.of_braceless (by decide))
    (.block rfl rfl (.append (.of_braceless (by decide))
      (.block rfl rfl (.of_braceless (by decide)) .nil)) .nil)
  hidden := by decide

theorem written_layeredSheet : WrittenSheet layeredRules layeredSheet := by
  have htext : layeredSheet = ("@layer a".toList ++ ('{' ::
      ("@theme".toList ++ ('{' :: "--color-no:red;".toList ++ '}' :: [])) ++ '}' :: [])) ++
      (themeWord ++ (" inline".toList ++ '{' ::
        (([' '] ++ ("--spacing-1.5".toList ++ [' '] ++ ':' :: "6px".toList) ++ ';' ::
          ([' '] ++ ("--color-a!".toList ++ [] ++ ':' :: " red".toList) ++ ';' :: [' '])) ++ '}' ::
      (['\n'] ++ (themeWord ++ ([] ++ '{' ::
        (([] ++ ("--primary".toList ++ [] ++ ':' :: " blue".toList) ++ ';' :: []) ++ '}' ::
      []))))))) := by decide
  rw [htext]
  refine .cons isChunk_layer (.cons ?_ ?_ (.cons ?_ ?_ (.nil ?_)))
    (.cons (.of_braceless ?_ ?_) (.cons ?_ ?_ (.nil ?_)) (.nil (.of_braceless ?_ ?_)))
  all_goals decide

/-- The rule in the layer declares nothing, and a colour takes an opacity behind a variant. -/
theorem parse_declares_and_accepts_layeredSheet :
    (∀ rule ∈ layeredRules, rule.WellFormed) ∧ WrittenSheet layeredRules layeredSheet ∧
      "1.5".toList ∈ (parse layeredSheet).get .spacing ∧
      "no".toList ∉ (parse layeredSheet).get .color ∧
      "a!".toList ∉ (parse layeredSheet).get .color ∧
      accepts (parse layeredSheet).utilityClasses "hover:bg-primary/50".toList = true := by
  have hform : ∀ rule ∈ layeredRules, rule.WellFormed := by decide
  obtain ⟨hget, haccepts⟩ := parse_declares_and_accepts hform written_layeredSheet
  have hbase : base? "hover:bg-primary/50".toList = some "bg-primary/50".toList := by decide +kernel
  obtain ⟨modifiers, base, htoken, hmodifiers, hhides, hmarked, -⟩ := base?_eq_some_iff.1 hbase
  have hmakes : Makes layeredRules "bg-primary".toList :=
    ⟨.color, "bg".toList, "primary".toList, by decide, by decide, by decide⟩
  simp only [hget, haccepts]
  refine ⟨hform, written_layeredSheet, by decide, by decide, by decide, ?_⟩
  exact ⟨modifiers, base, _, htoken, hmodifiers, hhides, hmarked,
    .inr ⟨_, "50".toList, hmakes, by decide +kernel, by decide⟩⟩

end ClassAudit.ThemeTokens
