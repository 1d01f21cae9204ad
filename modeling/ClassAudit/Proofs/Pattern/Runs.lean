import ClassAudit.Pattern.Regex
/-!
# Matches as runs

A match of an expression is a run from one place of a text to a later one.  The
matcher lists the places where such runs end.  A run reads a part of the text
and the symbol behind it, so it stays a run when the text after that symbol is
another one.
-/

namespace ClassAudit.Regex

variable {α : Type}

/-- A match from one place to another; each turn of a repetition goes on. -/
inductive Runs : Regex α → Place α → Place α → Prop
  | empty {place : Place α} : Runs empty place place
  | item {test : α → Bool} {previous : Option α} {symbol : α} {rest : List α}
      (htest : test symbol = true) :
      Runs (item test) ⟨previous, symbol :: rest⟩ ⟨some symbol, rest⟩
  | between {test : Option α → Option α → Bool} {place : Place α}
      (htest : test place.previous place.rest.head? = true) : Runs (between test) place place
  | seq {first second : Regex α} {place middle later : Place α}
      (hfirst : Runs first place middle) (hsecond : Runs second middle later) :
      Runs (seq first second) place later
  | altFirst {first second : Regex α} {place later : Place α} (hfirst : Runs first place later) :
      Runs (alt first second) place later
  | altSecond {first second : Regex α} {place later : Place α}
      (hsecond : Runs second place later) : Runs (alt first second) place later
  | starNil {body : Regex α} {place : Place α} : Runs (star body) place place
  | starCons {body : Regex α} {place middle later : Place α} (hbody : Runs body place middle)
      (hshorter : middle.rest.length < place.rest.length)
      (hstar : Runs (star body) middle later) : Runs (star body) place later

theorem runs_empty_iff {place later : Place α} : Runs empty place later ↔ later = place := by
  constructor
  · intro h
    cases h
    rfl
  · rintro rfl
    exact .empty

theorem runs_seq_iff {first second : Regex α} {place later : Place α} :
    Runs (seq first second) place later ↔
      ∃ middle, Runs first place middle ∧ Runs second middle later := by
  constructor
  · intro h
    cases h with
    | seq hfirst hsecond => exact ⟨_, hfirst, hsecond⟩
  · rintro ⟨middle, hfirst, hsecond⟩
    exact .seq hfirst hsecond

theorem runs_concat_append {front back : List (Regex α)} {place later : Place α} :
    Runs (concat (front ++ back)) place later ↔
      ∃ middle, Runs (concat front) place middle ∧ Runs (concat back) middle later := by
  induction front generalizing place with
  | nil =>
    have hnil : ∀ middle, Runs (concat []) place middle ↔ middle = place :=
      fun middle => runs_empty_iff
    simp [hnil]
  | cons regex front ih =>
    have hcons : ∀ (regexes : List (Regex α)) (last : Place α),
        Runs (concat (regex :: regexes)) place last ↔
          ∃ middle, Runs regex place middle ∧ Runs (concat regexes) middle last :=
      fun regexes last => runs_seq_iff
    rw [List.cons_append, hcons]
    constructor
    · rintro ⟨middle, hfirst, hrest⟩
      obtain ⟨between, hfront, hback⟩ := ih.1 hrest
      exact ⟨between, (hcons front between).2 ⟨middle, hfirst, hfront⟩, hback⟩
    · rintro ⟨between, hfront, hback⟩
      obtain ⟨middle, hfirst, hrest⟩ := (hcons front between).1 hfront
      exact ⟨middle, hfirst, ih.2 ⟨between, hrest, hback⟩⟩

/-! ## The matcher lists the ends of the runs -/

theorem mem_reach_iff [DecidableEq α] {body : Regex α}
    (hbody : ∀ place later, later ∈ body.ends place ↔ Runs body place later) {limit : Nat}
    {places : List (Place α)} {later : Place α}
    (hlimit : ∀ place ∈ places, place.rest.length ≤ limit) :
    later ∈ reach body.ends limit places ↔ ∃ place ∈ places, Runs (star body) place later := by
  induction limit generalizing places with
  | zero =>
    unfold reach
    constructor
    · intro hmem
      exact ⟨later, hmem, .starNil⟩
    · rintro ⟨place, hmem, hrun⟩
      cases hrun with
      | starNil => exact hmem
      | starCons _ hshorter _ => exact absurd hshorter (by have := hlimit place hmem; omega)
  | succ limit ih =>
    unfold reach
    rw [List.mem_eraseDups, List.mem_append]
    -- Each turn reads something, so one step less is enough for the places after it.
    have hnext : ∀ middle, middle ∈ (places.flatMap fun place =>
        (body.ends place).filter fun later => later.rest.length < place.rest.length).eraseDups ↔
        ∃ place ∈ places, Runs body place middle ∧
          middle.rest.length < place.rest.length := by
      intro middle
      simp [List.mem_eraseDups, hbody]
    rw [ih]
    · constructor
      · rintro (hmem | ⟨middle, hmem, hrun⟩)
        · exact ⟨later, hmem, .starNil⟩
        · obtain ⟨place, hplace, hturn, hshorter⟩ := (hnext middle).1 hmem
          exact ⟨place, hplace, .starCons hturn hshorter hrun⟩
      · rintro ⟨place, hplace, hrun⟩
        cases hrun with
        | starNil => exact Or.inl hplace
        | starCons hturn hshorter hstar =>
          exact Or.inr ⟨_, (hnext _).2 ⟨place, hplace, hturn, hshorter⟩, hstar⟩
    · intro middle hmem
      obtain ⟨place, hplace, -, hshorter⟩ := (hnext middle).1 hmem
      have := hlimit place hplace
      omega

theorem mem_ends_iff [DecidableEq α] {regex : Regex α} {place later : Place α} :
    later ∈ regex.ends place ↔ Runs regex place later := by
  induction regex generalizing place later with
  | never =>
    unfold ends
    constructor
    · intro h; cases h
    · intro h; cases h
  | empty =>
    unfold ends
    constructor
    · intro h
      rw [List.mem_singleton.1 h]
      exact .empty
    · intro h
      cases h
      exact List.mem_singleton_self _
  | item test =>
    obtain ⟨previous, rest⟩ := place
    unfold ends
    constructor
    · intro h
      cases rest with
      | nil => cases h
      | cons symbol rest =>
        by_cases htest : test symbol = true
        · simp only [htest, if_true, List.mem_singleton] at h
          rw [h]
          exact .item htest
        · simp [htest] at h
    · intro h
      cases h with
      | item htest => simp [htest]
  | between test =>
    unfold ends
    constructor
    · intro h
      by_cases htest : test place.previous place.rest.head? = true
      · simp only [htest, if_true, List.mem_singleton] at h
        rw [h]
        exact .between htest
      · simp [htest] at h
    · intro h
      cases h with
      | between htest => simp [htest]
  | seq first second ihfirst ihsecond =>
    unfold ends
    rw [List.mem_eraseDups, List.mem_flatMap]
    constructor
    · rintro ⟨middle, hfirst, hsecond⟩
      exact .seq (ihfirst.1 hfirst) (ihsecond.1 hsecond)
    · intro h
      cases h with
      | seq hfirst hsecond => exact ⟨_, ihfirst.2 hfirst, ihsecond.2 hsecond⟩
  | alt first second ihfirst ihsecond =>
    unfold ends
    rw [List.mem_eraseDups, List.mem_append, ihfirst, ihsecond]
    constructor
    · rintro (hfirst | hsecond)
      · exact .altFirst hfirst
      · exact .altSecond hsecond
    · intro h
      cases h with
      | altFirst hfirst => exact Or.inl hfirst
      | altSecond hsecond => exact Or.inr hsecond
  | star body ih =>
    unfold ends
    rw [mem_reach_iff (fun _ _ => ih) (by simp)]
    simp

theorem matchesAll_iff [DecidableEq α] {regex : Regex α} {text : List α} :
    regex.matchesAll text = true ↔ ∃ previous, Runs regex ⟨none, text⟩ ⟨previous, []⟩ := by
  unfold matchesAll
  rw [List.any_eq_true]
  constructor
  · rintro ⟨⟨previous, rest⟩, hmem, hend⟩
    obtain rfl := List.isEmpty_iff.1 hend
    exact ⟨previous, mem_ends_iff.1 hmem⟩
  · rintro ⟨previous, hrun⟩
    exact ⟨⟨previous, []⟩, mem_ends_iff.2 hrun, rfl⟩

/-! ## What a run reads -/

theorem Runs.suffix {regex : Regex α} {place later : Place α} (h : Runs regex place later) :
    later.rest <:+ place.rest := by
  induction h with
  | empty => exact List.suffix_refl _
  | item => exact List.suffix_cons _ _
  | between => exact List.suffix_refl _
  | seq _ _ ihfirst ihsecond => exact ihsecond.trans ihfirst
  | altFirst _ ih => exact ih
  | altSecond _ ih => exact ih
  | starNil => exact List.suffix_refl _
  | starCons _ _ _ ihbody ihstar => exact ihstar.trans ihbody

theorem read_eq_append {text middle later read front back : List α} (hread : text = read ++ later)
    (hfront : front ++ middle = text) (hback : back ++ later = middle) : read = front ++ back := by
  apply List.append_cancel_right
  rw [← hread, ← hfront, ← hback, List.append_assoc]

theorem head?_append_congr {front rest later : List α} (h : rest.head? = later.head?) :
    (front ++ rest).head? = (front ++ later).head? := by
  rw [List.head?_append, List.head?_append, h]

/-- A run does not see more of the text behind it than the first symbol. -/
theorem Runs.replace_rest {regex : Regex α} {place later : Place α} (h : Runs regex place later)
    {read rest : List α} (hread : place.rest = read ++ later.rest)
    (hrest : rest.head? = later.rest.head?) :
    Runs regex ⟨place.previous, read ++ rest⟩ ⟨later.previous, rest⟩ := by
  induction h generalizing read rest with
  | empty =>
    obtain rfl : read = [] := by simpa using hread
    exact .empty
  | item htest =>
    obtain rfl : read = [_] := List.append_cancel_right (by simpa using hread.symm)
    exact .item htest
  | between htest =>
    obtain rfl : read = [] := by simpa using hread
    exact .between (by simpa [hrest] using htest)
  | seq hfirst hsecond ihfirst ihsecond =>
    obtain ⟨front, hfront⟩ := hfirst.suffix
    obtain ⟨back, hback⟩ := hsecond.suffix
    obtain rfl := read_eq_append hread hfront hback
    rw [List.append_assoc]
    exact .seq (ihfirst hfront.symm (by rw [← hback, head?_append_congr hrest]))
      (ihsecond hback.symm hrest)
  | altFirst _ ih => exact .altFirst (ih hread hrest)
  | altSecond _ ih => exact .altSecond (ih hread hrest)
  | starNil =>
    obtain rfl : read = [] := by simpa using hread
    exact .starNil
  | starCons hbody hshorter hstar ihbody ihstar =>
    obtain ⟨front, hfront⟩ := hbody.suffix
    obtain ⟨back, hback⟩ := hstar.suffix
    obtain rfl := read_eq_append hread hfront hback
    have hgoes : 0 < front.length := by
      rw [← hfront, List.length_append] at hshorter
      omega
    rw [List.append_assoc]
    refine .starCons (ihbody hfront.symm (by rw [← hback, head?_append_congr hrest])) ?_
      (ihstar hback.symm hrest)
    simp only [List.length_append]
    omega

end ClassAudit.Regex
