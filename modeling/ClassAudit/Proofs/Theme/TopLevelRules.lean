import ClassAudit.Proofs.Css.PlainSheet
import ClassAudit.Theme.Block
/-!
# Finding theme rules

In a text without quotes and comments the place of a character is given by the
braces open before it.  A chunk of such text that names no theme rule outside its
braces is passed over, and a theme rule whose header and body have no braces is
found with exactly that body.
-/

namespace ClassAudit.Theme

open Css (Balanced Plain includes_comment_cons includes_comment_append)

/-- A text without quotes and openings of comments. -/
structure Quiet (text : Text) : Prop where
  unquoted : ∀ c ∈ text, c ≠ '"' ∧ c ≠ '\''
  uncommented : text.includes ['/', '*'] = false

instance (text : Text) : Decidable (Quiet text) :=
  decidable_of_iff ((∀ c ∈ text, c ≠ '"' ∧ c ≠ '\'') ∧ text.includes ['/', '*'] = false)
    ⟨fun h => ⟨h.1, h.2⟩, fun h => ⟨h.unquoted, h.uncommented⟩⟩

namespace Quiet

theorem nil : Quiet [] where
  unquoted := by simp
  uncommented := rfl

theorem cons {c : Char} {rest : Text} (hc : c ∉ ['"', '\'', '/']) (h : Quiet rest) :
    Quiet (c :: rest) where
  unquoted := by
    intro d hd
    rcases List.mem_cons.1 hd with rfl | hd
    · simp only [List.mem_cons, not_or] at hc
      exact ⟨hc.1, hc.2.1⟩
    · exact h.unquoted d hd
  uncommented := by
    have hslash : c ≠ '/' := fun hslash => hc (by simp [hslash])
    rw [includes_comment_cons, h.uncommented]
    simp [hslash]

theorem tail {c : Char} {rest : Text} (h : Quiet (c :: rest)) : Quiet rest where
  unquoted := fun d hd => h.unquoted d (List.mem_cons_of_mem c hd)
  uncommented := by
    have huncommented := h.uncommented
    rw [includes_comment_cons, Bool.or_eq_false_iff] at huncommented
    exact huncommented.2

/-- A slash has no star behind it. -/
theorem seam {c : Char} {rest : Text} (h : Quiet (c :: rest)) :
    (c == '/') = true → rest.head? ≠ some '*' := by
  intro hc hstar
  have huncommented := h.uncommented
  rw [includes_comment_cons, Bool.or_eq_false_iff, decide_eq_false_iff_not] at huncommented
  exact huncommented.1 ⟨eq_of_beq hc, hstar⟩

theorem append {front rest : Text} (hfront : Quiet front) (hrest : Quiet rest)
    (hseam : rest.head? ≠ some '*') : Quiet (front ++ rest) where
  unquoted := by
    intro c hc
    rcases List.mem_append.1 hc with hc | hc
    · exact hfront.unquoted c hc
    · exact hrest.unquoted c hc
  uncommented := includes_comment_append hfront.uncommented hrest.uncommented hseam

theorem left {front rest : Text} (h : Quiet (front ++ rest)) : Quiet front where
  unquoted := fun c hc => h.unquoted c (List.mem_append_left rest hc)
  uncommented := by
    induction front with
    | nil => rfl
    | cons c front ih =>
      have hhead : ¬(c = '/' ∧ front.head? = some '*') := by
        rintro ⟨rfl, hstar⟩
        apply h.seam rfl
        rw [List.append_eq, List.head?_append, hstar]
        rfl
      rw [includes_comment_cons, ih h.tail]
      simp [hhead]

theorem append_of_inert {front rest : Text} (hfront : ∀ c ∈ front, c ∉ ['"', '\'', '/'])
    (hrest : Quiet rest) : Quiet (front ++ rest) := by
  induction front with
  | nil => exact hrest
  | cons c front ih => exact cons (hfront c (by simp)) (ih fun d hd => hfront d (by simp [hd]))

theorem of_plain {text : Text} (h : Plain text) : Quiet text where
  unquoted := fun c hc => ⟨(h.literal c hc).1, (h.literal c hc).2.1⟩
  uncommented := h.uncommented

end Quiet

/-! ## Braces open -/

/-- The braces open after a character. -/
def depthStep (depth : Nat) (c : Char) : Nat :=
  if c = '{' then depth + 1 else if c = '}' then depth - 1 else depth

/-- The braces open after a text. -/
def depthAfter (depth : Nat) (text : Text) : Nat :=
  text.foldl depthStep depth

theorem depthStep_of_ne {c : Char} (hopen : c ≠ '{') (hclose : c ≠ '}') (depth : Nat) :
    depthStep depth c = depth := by
  unfold depthStep
  rw [if_neg hopen, if_neg hclose]

theorem depthAfter_cons (depth : Nat) (c : Char) (rest : Text) :
    depthAfter depth (c :: rest) = depthAfter (depthStep depth c) rest := rfl

theorem depthAfter_append (depth : Nat) (front rest : Text) :
    depthAfter depth (front ++ rest) = depthAfter (depthAfter depth front) rest :=
  List.foldl_append

theorem depthAfter_balanced {text : Text} (h : Balanced id text) (depth : Nat) :
    depthAfter depth text = depth := by
  induction h generalizing depth with
  | nil => rfl
  | @other c rest hopen hclose _ ih =>
    have hstep : depthStep depth c = depth := depthStep_of_ne hopen hclose depth
    rw [depthAfter_cons, hstep, ih]
  | @block opening closing body rest hopen hclose _ _ ihbody ihrest =>
    obtain rfl : opening = '{' := hopen
    obtain rfl : closing = '}' := hclose
    have hclosed : depthStep (depth + 1) '}' = depth := rfl
    have hopened : depthStep depth '{' = depth + 1 := rfl
    rw [List.cons_append, depthAfter_cons, hopened, depthAfter_append, ihbody, depthAfter_cons,
      hclosed, ihrest]

theorem depthAfter_braceless {text : Text} (h : ∀ c ∈ text, c ≠ '{' ∧ c ≠ '}') (depth : Nat) :
    depthAfter depth text = depth :=
  depthAfter_balanced (.of_braceless h) depth

namespace Place

/-- Quotes count only where strings are read. -/
theorem step_code (readsStrings : Bool) (depth : Nat) (c : Char) {slash : Bool}
    (hquote : readsStrings = true → c ≠ '"' ∧ c ≠ '\'') (hseam : slash = true → c ≠ '*') :
    step readsStrings ⟨depth, .code slash⟩ c = ⟨depthStep depth c, .code (c == '/')⟩ := by
  have hcomment : (slash && c == '*') = false := by
    cases slash with
    | false => rfl
    | true => simpa using hseam rfl
  have hstring : (readsStrings && (c == '"' || c == '\'')) = false := by
    cases readsStrings with
    | false => rfl
    | true => simp [hquote rfl]
  simp only [step, hstring, Bool.false_eq_true, if_false, stepPlain, hcomment, depthStep]
  by_cases hopen : c = '{'
  · simp [hopen]
  · by_cases hclose : c = '}'
    · simp [hclose]
    · simp [hopen, hclose]

/-- A quiet text is code, and what it does to the place are its braces. -/
theorem run_quiet (readsStrings : Bool) {text : Text} (h : Quiet text) (depth : Nat)
    (slash : Bool) (hseam : slash = true → text.head? ≠ some '*') :
    ∃ slash', run readsStrings ⟨depth, .code slash⟩ text =
      ⟨depthAfter depth text, .code slash'⟩ := by
  induction text generalizing depth slash with
  | nil => exact ⟨slash, rfl⟩
  | cons c rest ih =>
    have hstep : step readsStrings ⟨depth, .code slash⟩ c =
        ⟨depthStep depth c, .code (c == '/')⟩ :=
      step_code readsStrings depth c (fun _ => h.unquoted c (by simp)) fun hslash hc =>
        hseam hslash (by simp [hc])
    obtain ⟨slash', hrun⟩ := ih h.tail (depthStep depth c) _ h.seam
    refine ⟨slash', ?_⟩
    rw [depthAfter_cons, ← hrun, ← hstep]
    rfl

theorem run_append (readsStrings : Bool) (place : Place) (front rest : Text) :
    place.run readsStrings (front ++ rest) =
      (place.run readsStrings front).run readsStrings rest :=
  List.foldl_append

end Place

/-! ## The end of a rule -/

theorem closeBlock?_flat {body : Text} (h : Quiet body) (hflat : ∀ c ∈ body, c ≠ '{' ∧ c ≠ '}')
    (slash : Bool) (hseam : slash = true → body.head? ≠ some '*') (rest : Text) :
    closeBlock? ⟨0, .code slash⟩ (body ++ '}' :: rest) = some (body, rest) := by
  induction body generalizing slash with
  | nil => rw [List.nil_append, closeBlock?, if_pos ⟨rfl, rfl⟩]
  | cons c body ih =>
    obtain ⟨hopen, hclose⟩ := hflat c (by simp)
    have hstep := Place.step_code false 0 c (by simp) fun hslash hc => hseam hslash (by simp [hc])
    rw [List.cons_append, closeBlock?, if_neg (fun hend => hclose hend.1), hstep,
      depthStep_of_ne hopen hclose, ih h.tail (fun d hd => hflat d (by simp [hd])) _ h.seam]
    rfl

theorem ruleStart_flat {header body : Text} (hheader : ∀ c ∈ header, c ≠ '{' ∧ c ≠ ';')
    (hbody : Quiet body) (hflat : ∀ c ∈ body, c ≠ '{' ∧ c ≠ '}') (rest : Text) :
    ruleStart (themeWord ++ (header ++ '{' :: (body ++ '}' :: rest))) =
      .rule (themeWord ++ header) body rest := by
  have hword : Text.after? (themeWord ++ (header ++ '{' :: (body ++ '}' :: rest))) themeWord =
      some (header ++ '{' :: (body ++ '}' :: rest)) := Text.after?_eq_some_iff.2 rfl
  have hcut : Text.cut? '{' (header ++ '{' :: (body ++ '}' :: rest)) =
      some (header, body ++ '}' :: rest) :=
    Text.cut?_eq_some_iff.2 ⟨rfl, fun hmem => (hheader _ hmem).1 rfl⟩
  have hsemicolon : header.contains ';' = false := by
    rw [Bool.eq_false_iff]
    intro hmem
    exact (hheader ';' (List.contains_iff_mem.1 hmem)).2 rfl
  have hclose := closeBlock?_flat hbody hflat false (by simp) rest
  unfold ruleStart
  simp only [hword, hcut, hsemicolon, Bool.false_eq_true, if_false, hclose]

/-! ## The search for rules -/

theorem bodiesFrom_cons_other {place : Place} {c : Char} {later : Text}
    (h : place.isTop = true → ruleStart (c :: later) = .other) :
    bodiesFrom place (c :: later) = bodiesFrom (place.step true c) later := by
  rw [bodiesFrom]
  by_cases htop : place.isTop = true
  · rw [if_pos htop]
    split
    · rename_i hrule
      rw [h htop] at hrule
      cases hrule
    · rename_i hrule
      rw [h htop] at hrule
      cases hrule
    · rfl
  · rw [if_neg htop]

theorem bodiesFrom_rule {place : Place} {text front body rest : Text} (htop : place.isTop = true)
    (h : ruleStart text = .rule front body rest) :
    bodiesFrom place text =
      body :: bodiesFrom (place.run true (front ++ '{' :: body ++ ['}'])) rest := by
  cases text with
  | nil => cases h
  | cons c later =>
    rw [bodiesFrom, if_pos htop]
    split
    · rename_i hrule
      rw [h] at hrule
      cases hrule
      rfl
    · rename_i hrule
      rw [h] at hrule
      cases hrule
    · rename_i hrule
      rw [h] at hrule
      cases hrule

/-- A text at whose top level no rule starts is passed over. -/
theorem bodiesFrom_append {place : Place} {front rest : Text}
    (h : ∀ before c after, front = before ++ c :: after →
      (place.run true before).isTop = true → ruleStart (c :: (after ++ rest)) = .other) :
    bodiesFrom place (front ++ rest) = bodiesFrom (place.run true front) rest := by
  induction front generalizing place with
  | nil => rfl
  | cons c front ih =>
    have hfirst : place.isTop = true → ruleStart (c :: (front ++ rest)) = .other :=
      h [] c front rfl
    rw [List.cons_append, bodiesFrom_cons_other hfirst, ih]
    · rfl
    · rintro before d after rfl htop
      exact h (c :: before) d after rfl htop

/-- A chunk of a sheet beside its theme rules: plain, its braces paired, and with no theme rule
named outside of its braces. -/
structure IsChunk (text : Text) : Prop where
  plain : Plain text
  balanced : Balanced id text
  hidden : ∀ i < text.length, themeWord <+: text.drop i → depthAfter 0 (text.take i) ≠ 0

theorem IsChunk.of_braceless {text : Text} (hplain : Plain text)
    (hflat : ∀ c ∈ text, c ≠ '{' ∧ c ≠ '}' ∧ c ≠ '@') : IsChunk text where
  plain := hplain
  balanced := .of_braceless fun c hc => ⟨(hflat c hc).1, (hflat c hc).2.1⟩
  hidden := by
    rintro i - ⟨rest, hword⟩
    have hat : '@' ∈ text.drop i := by
      rw [← hword]
      simp [themeWord]
    exact absurd rfl (hflat '@' (List.mem_of_mem_drop hat)).2.2

theorem ruleStart_of_other_word {text : Text} (h : ¬themeWord <+: text) :
    ruleStart text = .other := by
  have hword : text.after? themeWord = none := by
    rw [Option.eq_none_iff_forall_ne_some]
    intro rest hrest
    exact h ⟨rest, (Text.after?_eq_some_iff.1 hrest).symm⟩
  unfold ruleStart
  rw [hword]

/-- The word of a theme rule does not reach from a text into one that starts with a rule. -/
theorem themeWord_prefix_of_append {c : Char} {after rest : Text}
    (hrest : rest = [] ∨ rest.head? = some '@') (h : themeWord <+: c :: (after ++ rest)) :
    themeWord <+: c :: after := by
  obtain ⟨tail, htail⟩ := h
  rw [← List.cons_append] at htail
  rcases List.append_eq_append_iff.1 htail with ⟨inside, hinside, -⟩ | ⟨beyond, hword, hbeyond⟩
  · exact ⟨inside, hinside.symm⟩
  cases beyond with
  | nil => exact ⟨[], by rw [List.append_nil, hword, List.append_nil]⟩
  | cons d beyond =>
    -- The first character beyond would be an at sign inside the word.
    have hd : d = '@' := by simpa [hbeyond] using hrest
    have hmem : '@' ∈ themeWord.tail := by
      rw [hword, hd]
      simp
    exact absurd hmem (by decide)

theorem bodiesFrom_chunk {chunk rest : Text} (h : IsChunk chunk)
    (hrest : rest = [] ∨ rest.head? = some '@') :
    ∃ slash, bodiesFrom {} (chunk ++ rest) = bodiesFrom ⟨0, .code slash⟩ rest := by
  have hquiet : Quiet chunk := .of_plain h.plain
  obtain ⟨slash, hrun⟩ := Place.run_quiet true hquiet 0 false (by simp)
  rw [depthAfter_balanced h.balanced] at hrun
  refine ⟨slash, ?_⟩
  rw [← hrun]
  apply bodiesFrom_append
  intro before c after hsplit htop
  have hbefore : Quiet before := by
    rw [hsplit] at hquiet
    exact hquiet.left
  obtain ⟨slash', hplace⟩ := Place.run_quiet true hbefore 0 false (by simp)
  have hdepth : depthAfter 0 before = 0 := by
    change (Place.run true ⟨0, .code false⟩ before).isTop = true at htop
    rw [hplace] at htop
    simpa [Place.isTop] using htop
  apply ruleStart_of_other_word
  intro hword
  have hinside := themeWord_prefix_of_append hrest hword
  apply h.hidden before.length
  · rw [hsplit]
    simp
  · rw [hsplit, List.drop_left]
    exact hinside
  · rw [hsplit, List.take_left]
    exact hdepth

/-- A theme rule at the top level is found, and the search goes on behind it. -/
theorem bodiesFrom_themeRule {header body : Text} (hheader : Quiet header)
    (hplain : ∀ c ∈ header, c ≠ '{' ∧ c ≠ '}' ∧ c ≠ ';') (hbody : Quiet body)
    (hflat : ∀ c ∈ body, c ≠ '{' ∧ c ≠ '}') (slash : Bool) (rest : Text) :
    bodiesFrom ⟨0, .code slash⟩ (themeWord ++ (header ++ '{' :: (body ++ '}' :: rest))) =
      body :: bodiesFrom {} rest := by
  have hstart := ruleStart_flat (fun c hc => ⟨(hplain c hc).1, (hplain c hc).2.2⟩) hbody hflat rest
  have hfront : Quiet (themeWord ++ header ++ '{' :: body) := by
    have hword : Quiet (themeWord ++ header) := .append_of_inert (by decide) hheader
    exact hword.append (.cons (by decide) hbody) (by simp)
  have hseam : slash = true → (themeWord ++ header ++ '{' :: body).head? ≠ some '*' := by
    intro _
    simp [themeWord]
  have hdepth : depthAfter 0 (themeWord ++ header ++ '{' :: body) = 1 := by
    have hword : depthAfter 0 themeWord = 0 := by decide
    have hbetween : depthAfter 0 header = 0 :=
      depthAfter_braceless (fun c hc => ⟨(hplain c hc).1, (hplain c hc).2.1⟩) 0
    rw [depthAfter_append, depthAfter_append, hword, hbetween, depthAfter_cons]
    exact depthAfter_braceless hflat 1
  obtain ⟨slash', hrun⟩ := Place.run_quiet true hfront 0 slash hseam
  have hplace : Place.run true ⟨0, .code slash⟩ (themeWord ++ header ++ '{' :: body ++ ['}']) =
      {} := by
    rw [Place.run_append, hrun, hdepth]
    exact Place.step_code true 1 '}' (fun _ => by decide) fun _ => by decide
  rw [bodiesFrom_rule rfl hstart, hplace]

end ClassAudit.Theme
