import ClassAudit.Proofs.Theme.LexemeRules
import ClassAudit.Proofs.Theme.LexemeViews
/-!
# Theme rules in a view

In every view of lexemes the search by characters finds the bodies that the
search by lexemes finds.
-/

namespace ClassAudit.Theme

open Css

section Views

variable {view : Lexeme → Text} {list : List Lexeme}

theorem run_lexeme {lexeme : Lexeme} (hview : IsView view (lexeme :: list))
    (hclear : Clear (lexeme :: list)) (depth : Nat) {slash : Bool}
    (hseam : slash = true → lexeme ≠ .char '*') :
    Place.run true ⟨depth, .code slash⟩ (view lexeme) =
      ⟨depthOver depth lexeme, .code (lexeme == .char '/')⟩ := by
  cases lexeme with
  | char c =>
    have hstep := Place.step_code true depth c (fun _ => hclear.ne_quote List.mem_cons_self)
      fun hslash hc => hseam hslash (by rw [hc])
    rw [hview.char]
    show Place.step true ⟨depth, .code slash⟩ c = _
    rw [hstep]
    simp [depthOver]
  | comment content => exact (hview.glides _ (by simp) rfl depth slash).run_eq
  | string quote content => exact (hview.glides _ (by simp) rfl depth slash).run_eq

theorem run_list (hview : IsView view list) (hclear : Clear list) (depth : Nat) {slash : Bool}
    (hseam : slash = true → list.head? ≠ some (.char '*')) :
    ∃ slash', Place.run true ⟨depth, .code slash⟩ (list.flatMap view) =
      ⟨depthBehind depth list, .code slash'⟩ := by
  induction list generalizing depth slash with
  | nil => exact ⟨slash, rfl⟩
  | cons lexeme list ih =>
    have hfirst := run_lexeme hview hclear depth fun hslash hstar =>
      hseam hslash (by rw [hstar]; rfl)
    obtain ⟨slash', hrun⟩ := ih hview.tail hclear.tail
      (depthOver depth lexeme) hclear.seam
    refine ⟨slash', ?_⟩
    rw [List.flatMap_cons, Place.run_append, hfirst, hrun]
    rfl

/-- A lexeme at which no rule starts is passed over. -/
theorem bodiesFrom_lexeme {lexeme : Lexeme} (hview : IsView view (lexeme :: list))
    (hclear : Clear (lexeme :: list)) {depth : Nat} {slash : Bool}
    (hseam : slash = true → lexeme ≠ .char '*') {rest : Text}
    (hother : depth = 0 → ∀ c, lexeme = .char c → ruleStart (c :: rest) = .other) :
    bodiesFrom ⟨depth, .code slash⟩ (view lexeme ++ rest) =
      bodiesFrom ⟨depthOver depth lexeme, .code (lexeme == .char '/')⟩ rest := by
  have hrun := run_lexeme hview hclear depth hseam
  cases hlexeme : lexeme.isChar with
  | true =>
    obtain ⟨c, rfl⟩ := Lexeme.exists_of_isChar hlexeme
    rw [hview.char] at hrun ⊢
    have htop : Place.isTop ⟨depth, .code slash⟩ = true → ruleStart (c :: rest) = .other := by
      intro htop
      exact hother (by simpa [Place.isTop] using htop) c rfl
    rw [List.singleton_append, bodiesFrom_cons_other htop, ← hrun]
    rfl
  | false =>
    have hglides := hview.glides lexeme (by simp) hlexeme depth slash
    rw [hglides.bodiesFrom_append, ← hglides.run_eq, hrun]

theorem prefix_of_view {word : Text} (hword : ∀ c ∈ word, c ∈ themeWord)
    (hview : IsView view list) (h : word <+: list.flatMap view) : word.map .char <+: list := by
  induction word generalizing list with
  | nil => exact List.nil_prefix
  | cons c word ih =>
    cases list with
    | nil => exact absurd h (by simp)
    | cons lexeme list =>
      rw [List.flatMap_cons] at h
      cases hlexeme : lexeme.isChar with
      | true =>
        obtain ⟨d, rfl⟩ := Lexeme.exists_of_isChar hlexeme
        rw [hview.char, List.singleton_append, List.cons_prefix_cons] at h
        rw [List.map_cons, List.cons_prefix_cons, h.1]
        exact ⟨rfl, ih (fun e he => hword e (by simp [he])) hview.tail h.2⟩
      | false =>
        obtain ⟨d, rest, hd, hout⟩ := hview.starts lexeme (by simp) hlexeme
        rw [hd, List.cons_append, List.cons_prefix_cons] at h
        exact absurd (h.1 ▸ hword c (by simp)) hout

theorem flatMap_themeLexemes (hview : IsView view list) :
    themeLexemes.flatMap view = themeWord := by
  unfold themeLexemes
  rw [List.flatMap_map]
  simp only [hview.char]
  decide

/-! ## Headers and bodies -/

theorem closeBlock?_append {text : Text} (h : '}' ∉ text) (place : Place) (rest : Text) :
    closeBlock? place (text ++ rest) =
      (closeBlock? (place.run false text) rest).map fun parts => (text ++ parts.1, parts.2) := by
  induction text generalizing place with
  | nil =>
    show closeBlock? place rest = (closeBlock? place rest).map fun parts => parts
    cases closeBlock? place rest <;> rfl
  | cons c text ih =>
    rw [List.mem_cons, not_or] at h
    rw [List.cons_append, closeBlock?, if_neg fun hclose => h.1 hclose.1.symm, ih h.2,
      Option.map_map]
    rfl

theorem openBlock_cons {depth : Nat} {lexeme : Lexeme} (rest : List Lexeme)
    (h : ¬(lexeme = .char '}' ∧ depth = 0)) :
    openBlock depth (lexeme :: rest) = lexeme :: openBlock (depthOver depth lexeme) rest := by
  unfold openBlock
  rw [closeRule?, if_neg h]
  cases closeRule? (depthOver depth lexeme) rest <;> rfl

/-- In every view a block is closed by the same brace. -/
theorem closeBlock?_view (hview : IsView view list) (hclear : Clear list) {depth : Nat}
    {slash : Bool} (hseam : slash = true → list.head? ≠ some (.char '*'))
    (hquiet : ∀ lexeme ∈ openBlock depth list, lexeme.Quiet) :
    closeBlock? ⟨depth, .code slash⟩ (list.flatMap view) =
      (closeRule? depth list).map fun parts =>
        (parts.1.flatMap view, parts.2.flatMap view) := by
  induction list generalizing depth slash with
  | nil => rfl
  | cons lexeme list ih =>
    rw [List.flatMap_cons, closeRule?]
    by_cases hclose : lexeme = .char '}' ∧ depth = 0
    · obtain ⟨rfl, rfl⟩ := hclose
      rw [if_pos ⟨rfl, rfl⟩, hview.char, List.singleton_append, closeBlock?, if_pos ⟨rfl, rfl⟩]
      rfl
    · rw [openBlock_cons _ hclose, List.forall_mem_cons] at hquiet
      have hih := ih hview.tail hclear.tail hclear.seam hquiet.2
      rw [if_neg hclose, Option.map_map]
      cases hlexeme : lexeme.isChar with
      | true =>
        obtain ⟨c, rfl⟩ := Lexeme.exists_of_isChar hlexeme
        have hend : ¬(c = '}' ∧ Place.isTop ⟨depth, .code slash⟩ = true) := by
          rintro ⟨rfl, htop⟩
          exact hclose ⟨rfl, by simpa [Place.isTop] using htop⟩
        have hstep := Place.step_code false depth c (by simp) fun hslash hc =>
          hseam hslash (by rw [hc]; rfl)
        have hslash : (Lexeme.char c == .char '/') = (c == '/') := by simp
        rw [hslash] at hih
        rw [hview.char, List.singleton_append, closeBlock?, if_neg hend, hstep]
        show Option.map _ (closeBlock? ⟨depthOver depth (.char c), _⟩ _) = _
        rw [hih, Option.map_map]
        refine congrArg (Option.map · _) (funext fun parts => ?_)
        simp [hview.char]
      | false =>
        have hinert := hview.inert lexeme (by simp) hlexeme hquiet.1
        have hbrace : '}' ∉ view lexeme := fun hmem => hinert.unmarked '}' hmem (by decide)
        have hdepth := depthOver_of_isChar_eq_false hlexeme depth
        have hslash : (lexeme == .char '/') = false := by
          rw [beq_eq_false_iff_ne]
          rintro rfl
          cases hlexeme
        rw [hslash, hdepth] at hih
        rw [closeBlock?_append hbrace, hinert.run_false, hih, Option.map_map, hdepth]
        refine congrArg (Option.map · _) (funext fun parts => ?_)
        simp

theorem ruleStart_themeWord (text : Text) :
    ruleStart (themeWord ++ text) =
      match Text.cut? '{' text with
      | none => .unclosed
      | some (header, content) =>
        if header.contains ';' then .other
        else
          match closeBlock? {} content with
          | none => .unclosed
          | some (body, rest) => .rule (themeWord ++ header) body rest := by
  have hword : Text.after? (themeWord ++ text) themeWord = some text :=
    Text.after?_eq_some_iff.2 rfl
  unfold ruleStart
  generalize Text.after? (themeWord ++ text) themeWord = afterWord at hword
  subst hword
  rfl

theorem bodiesFrom_unclosed {place : Place} {text : Text} (htop : place.isTop = true)
    (h : ruleStart text = .unclosed) : bodiesFrom place text = [] := by
  cases text with
  | nil => cases h
  | cons c later =>
    rw [bodiesFrom, if_pos htop]
    split
    · rename_i hrule
      rw [h] at hrule
      cases hrule
    · rfl
    · rename_i hrule
      rw [h] at hrule
      cases hrule

theorem view_header {header tail : List Lexeme} (hview : IsView view list)
    (hlist : list = themeLexemes ++ (header ++ tail))
    (hheader : ∀ lexeme ∈ header, inHeader lexeme = true ∧ lexeme.Quiet) :
    list.flatMap view = themeWord ++ (header.flatMap view ++ tail.flatMap view) ∧
      ∀ c ∈ header.flatMap view, c ≠ '{' ∧ c ≠ ';' := by
  have hsub : header ⊆ list := by
    intro lexeme hmem
    rw [hlist]
    simp [hmem]
  constructor
  · rw [hlist, List.flatMap_append, List.flatMap_append, flatMap_themeLexemes hview]
  · intro c hc
    obtain ⟨lexeme, hmem, hc⟩ := List.mem_flatMap.1 hc
    obtain ⟨hmark, hquiet⟩ := hheader lexeme hmem
    cases hlexeme : lexeme.isChar with
    | true =>
      obtain ⟨d, rfl⟩ := Lexeme.exists_of_isChar hlexeme
      rw [hview.char, List.mem_singleton] at hc
      subst hc
      simpa [inHeader] using hmark
    | false =>
      have hmarks := (hview.inert lexeme (hsub hmem) hlexeme hquiet).unmarked c hc
      simp only [blockMarks, List.mem_cons, not_or] at hmarks
      exact ⟨hmarks.1, hmarks.2.2.1⟩

theorem ruleBodies_eq_nil {depth : Nat} (h : .char '{' ∉ list) : ruleBodies depth list = [] := by
  fun_induction ruleBodies depth list with
  | case1 => rfl
  | case2 => rfl
  | case3 => rfl
  | case4 depth lexeme later hstart content body rest hclose hheader =>
    have hmem : .char '{' ∈ ((lexeme :: later).drop themeLexemes.length).dropWhile inHeader := by
      rw [hheader]
      simp
    exact absurd (List.mem_of_mem_drop ((List.dropWhile_suffix _).subset hmem)) h
  | case5 depth lexeme later hstart mark content hheader hmark ih =>
    exact ih fun hmem => h (by simp [hmem])
  | case6 depth lexeme later hstart ih => exact ih fun hmem => h (by simp [hmem])

/-- Behind a rule the search is at the top level again. -/
theorem run_rule {header body rest : List Lexeme} (hview : IsView view list)
    (hclear : Clear list)
    (hlist : list = themeLexemes ++ (header ++ .char '{' :: (body ++ .char '}' :: rest)))
    (hheader : ∀ lexeme ∈ header, inHeader lexeme = true ∧ lexeme.Quiet)
    (hbody : depthBehind 1 body = 1) (slash : Bool) :
    Place.run true ⟨0, .code slash⟩
      (themeWord ++ header.flatMap view ++ '{' :: body.flatMap view ++ ['}']) = {} := by
  have hfront : themeLexemes ++ (header ++ .char '{' :: body) <+: list :=
    ⟨.char '}' :: rest, by rw [hlist]; simp⟩
  have hseam : slash = true →
      (themeLexemes ++ (header ++ .char '{' :: body)).head? ≠ some (.char '*') := by
    intro _
    simp [themeLexemes, themeWord]
  obtain ⟨slash', hrun⟩ := run_list (hview.of_subset hfront.subset)
    (hclear.of_within hfront.isInfix) 0 hseam
  have hdepth := depthBehind_rule hheader hbody
  have hshown : (themeLexemes ++ (header ++ .char '{' :: body)).flatMap view =
      themeWord ++ header.flatMap view ++ '{' :: body.flatMap view := by
    rw [List.flatMap_append, List.flatMap_append, List.flatMap_cons, flatMap_themeLexemes hview,
      hview.char, ← List.append_assoc]
    rfl
  rw [hdepth, hshown] at hrun
  rw [Place.run_append, hrun]
  show Place.step true ⟨1, .code slash'⟩ '}' = {}
  rw [Place.step_code true 1 '}' (fun _ => by decide) fun _ => by decide]
  rfl

theorem ruleStart_opening {header content : Text} (hheader : ∀ c ∈ header, c ≠ '{' ∧ c ≠ ';') :
    ruleStart (themeWord ++ (header ++ '{' :: content)) =
      match closeBlock? {} content with
      | none => .unclosed
      | some (body, rest) => .rule (themeWord ++ header) body rest := by
  have hcut : Text.cut? '{' (header ++ '{' :: content) = some (header, content) :=
    Text.cut?_eq_some_iff.2 ⟨rfl, fun hmem => (hheader _ hmem).1 rfl⟩
  have hsemicolon : header.contains ';' = false := by
    rw [Bool.eq_false_iff]
    intro hmem
    exact (hheader ';' (List.contains_iff_mem.1 hmem)).2 rfl
  rw [ruleStart_themeWord, hcut]
  simp only [hsemicolon, Bool.false_eq_true, if_false]

/-- A header that ends in a semicolon makes no rule; without a brace behind it there is none at
all. -/
theorem ruleStart_semicolon {header content : Text} (hheader : '{' ∉ header) :
    ruleStart (themeWord ++ (header ++ ';' :: content)) =
      if '{' ∈ content then .other else .unclosed := by
  rw [ruleStart_themeWord]
  by_cases hbrace : '{' ∈ content
  · obtain ⟨before, after, rfl, hbefore⟩ := List.eq_append_cons_of_mem hbrace
    have hcut : Text.cut? '{' (header ++ ';' :: (before ++ '{' :: after)) =
        some (header ++ ';' :: before, after) := by
      refine Text.cut?_eq_some_iff.2 ⟨by simp, ?_⟩
      simp [hheader, hbefore]
    rw [hcut, if_pos hbrace]
    simp
  · have hcut : Text.cut? '{' (header ++ ';' :: content) = none := by
      refine Text.cut?_eq_none_iff.2 ?_
      simp [hheader, hbrace]
    rw [hcut, if_neg hbrace]

theorem closeBlock?_content {front content : List Lexeme} {mark : Lexeme} {header : List Lexeme}
    (hview : IsView view list) (hclear : Clear list)
    (hlist : list = front ++ (header ++ mark :: content))
    (hquiet : ∀ lexeme ∈ openBlock 0 content, lexeme.Quiet) :
    closeBlock? {} (content.flatMap view) = (closeRule? 0 content).map fun parts =>
      (parts.1.flatMap view, parts.2.flatMap view) := by
  have hwithin : content <:+: list := ⟨front ++ (header ++ [mark]), [], by rw [hlist]; simp⟩
  apply closeBlock?_view (hview.of_subset hwithin.subset) (hclear.of_within hwithin) _ hquiet
  simp

/-- In every view the search finds the bodies of the theme rules of the lexemes. -/
theorem bodiesFrom_view (hview : IsView view list) (hclear : Clear list) {depth : Nat}
    (hcalm : Calm depth list) {slash : Bool}
    (hseam : slash = true → list.head? ≠ some (.char '*')) :
    bodiesFrom ⟨depth, .code slash⟩ (list.flatMap view) =
      (ruleBodies depth list).map (·.flatMap view) := by
  -- One case for each answer of the search by lexemes; `slash` is all that the search by
  -- characters knows beyond the depth.
  fun_induction ruleBodies depth list generalizing slash with
  | case1 depth =>
    show bodiesFrom _ [] = []
    rw [bodiesFrom]
  | case2 depth lexeme later hstart htail =>
    obtain ⟨rfl, hword⟩ := hstart
    obtain ⟨header, hlist, hmarks, -⟩ := hcalm.exists_header hword htail
    obtain ⟨hshown, hheader⟩ := view_header hview hlist hmarks
    apply bodiesFrom_unclosed rfl
    have hcut : Text.cut? '{' (header.flatMap view) = none :=
      Text.cut?_eq_none_iff.2 fun hmem => (hheader _ hmem).1 rfl
    rw [hshown, ruleStart_themeWord, List.flatMap_nil, List.append_nil, hcut]
  | case3 depth lexeme later hstart content hclose htail =>
    obtain ⟨rfl, hword⟩ := hstart
    obtain ⟨header, hlist, hmarks, hquiet⟩ := hcalm.exists_header hword htail
    obtain ⟨hshown, hheader⟩ := view_header hview hlist hmarks
    have hcontent := closeBlock?_content hview hclear hlist (hquiet content rfl)
    apply bodiesFrom_unclosed rfl
    rw [hshown, List.flatMap_cons, hview.char, List.singleton_append, ruleStart_opening hheader,
      hcontent, hclose]
    rfl
  | case4 depth lexeme later hstart content body rest hclose htail ih =>
    obtain ⟨rfl, hword⟩ := hstart
    obtain ⟨header, hlist, hmarks, hquiet⟩ := hcalm.exists_header hword htail
    obtain ⟨hshown, hheader⟩ := view_header hview hlist hmarks
    have hcontent := closeBlock?_content hview hclear hlist (hquiet content rfl)
    have hrule : ruleStart ((lexeme :: later).flatMap view) =
        .rule (themeWord ++ header.flatMap view) (body.flatMap view) (rest.flatMap view) := by
      rw [hshown, List.flatMap_cons, hview.char, List.singleton_append,
        ruleStart_opening hheader, hcontent, hclose]
      rfl
    obtain ⟨hcalmRest, hrest, -⟩ := hcalm.behind_rule hlist hmarks hclose
    rw [closeRule?_eq_some hclose] at hlist
    have hdepth := depthBehind_body hclose 1
    have hlater := @ih (hview.of_subset hrest.subset) (hclear.of_within hrest) hcalmRest false
      (by simp)
    rw [bodiesFrom_rule rfl hrule, run_rule hview hclear hlist hmarks hdepth, List.map_cons]
    exact congrArg _ hlater
  | case5 depth lexeme later hstart mark content htail hmark ih =>
    obtain ⟨rfl, hword⟩ := hstart
    obtain ⟨header, hlist, hmarks, -⟩ := hcalm.exists_header hword htail
    obtain ⟨hshown, hheader⟩ := view_header hview hlist hmarks
    obtain rfl : mark = .char ';' := by
      have hhead := List.head?_dropWhile_not inHeader
        ((lexeme :: later).drop themeLexemes.length)
      rw [htail] at hhead
      simpa [inHeader, hmark] using hhead
    have hstart : ruleStart ((lexeme :: later).flatMap view) =
        if '{' ∈ content.flatMap view then .other else .unclosed := by
      rw [hshown, List.flatMap_cons, hview.char]
      exact ruleStart_semicolon fun hmem => (hheader _ hmem).1 rfl
    -- Without a brace behind the semicolon the search by characters ends here, and the search by
    -- lexemes goes on but finds nothing.
    by_cases hbrace : '{' ∈ content.flatMap view
    · rw [if_pos hbrace] at hstart
      rw [List.flatMap_cons, bodiesFrom_lexeme hview hclear]
      · exact ih hview.tail hclear.tail hcalm.tail hclear.seam
      · exact fun hslash hstar => hseam hslash (by rw [hstar]; rfl)
      · rintro - c rfl
        rw [List.flatMap_cons, hview.char] at hstart
        exact hstart
    · rw [if_neg hbrace] at hstart
      have hnone : .char '{' ∉ lexeme :: later := by
        rw [hlist]
        simp only [List.mem_append, List.mem_cons, not_or]
        refine ⟨by decide, ?_, by decide, ?_⟩
        · exact fun hmem => absurd (hmarks _ hmem).1 (by decide)
        · exact fun hmem => hbrace (List.mem_flatMap.2 ⟨_, hmem, by rw [hview.char]; simp⟩)
      rw [bodiesFrom_unclosed rfl hstart, ruleBodies_eq_nil fun hmem => hnone (by simp [hmem])]
      rfl
  | case6 depth lexeme later hstart ih =>
    rw [List.flatMap_cons, bodiesFrom_lexeme hview hclear]
    · exact ih hview.tail hclear.tail hcalm.tail hclear.seam
    · exact fun hslash hstar => hseam hslash (by rw [hstar]; rfl)
    · rintro hdepth c rfl
      apply ruleStart_of_other_word
      intro hword
      apply hstart
      refine ⟨hdepth, prefix_of_view (fun _ hc => hc) hview ?_⟩
      rw [List.flatMap_cons, hview.char]
      exact hword

end Views

end ClassAudit.Theme
