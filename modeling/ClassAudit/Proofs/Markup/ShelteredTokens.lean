import ClassAudit.Proofs.Markup.TokenBreaks
import ClassAudit.Proofs.Text.Nesting
/-!
# Blanks inside tokens

A class list is its tokens with blanks around them and no more: nothing is lost
or changed, and two tokens are always apart.  A blank that is left in a token
is escaped, or it stands in a group that the token itself opened before it.
-/

namespace ClassAudit.ClassList

/-- Whether a text escapes the character behind it: it ends in an odd number of backslashes. -/
def escapesNext (text : Text) : Bool :=
  (text.reverse.takeWhile (· == '\\')).length % 2 == 1

/-- A text without its escapes. -/
def unescaped : Text → Text
  | [] => []
  | '\\' :: _ :: rest => unescaped rest
  | c :: rest => c :: unescaped rest

/-- A text behind which a blank belongs to the token: it escapes the blank, or it leaves a group
open. -/
def Shelters (text : Text) : Prop :=
  escapesNext text = true ∨ Text.LeavesOpen '[' ']' (unescaped text) ∨
    Text.LeavesOpen '(' ')' (unescaped text)

/-! ## Places by counting -/

theorem escapesNext_concat (text : Text) (c : Char) :
    escapesNext (text ++ [c]) = (!escapesNext text && c == '\\') := by
  unfold escapesNext
  rw [List.reverse_append, List.reverse_singleton, List.singleton_append, List.takeWhile_cons]
  cases hc : c == '\\' with
  | false => simp
  | true =>
    simp only [if_true, List.length_cons, Bool.and_true]
    rcases Nat.mod_two_eq_zero_or_one (text.reverse.takeWhile (· == '\\')).length with h | h
    · simp [h, Nat.add_mod]
    · simp [h, Nat.add_mod]

/-- A character is escaped by an odd number of backslashes in front of it. -/
theorem escaped_run (text : Text) : (Place.run {} text).escaped = escapesNext text := by
  rw [← List.reverse_reverse text]
  induction text.reverse with
  | nil => rfl
  | cons c reversed ih =>
    rw [List.reverse_cons, Place.run_append, Place.run_cons, Place.run_nil, escapesNext_concat,
      ← ih]
    generalize Place.run {} reversed.reverse = place
    cases hescaped : place.escaped with
    | true => rw [Place.step_of_escaped hescaped]; rfl
    | false =>
      by_cases hc : c = '\\'
      · rw [hc, Place.step_backslash hescaped]
        rfl
      · rw [Place.step_of_ne hescaped hc]
        simp [hc, hescaped]

theorem groups_run (groups : Reader) (text : Text) :
    (Place.run ⟨groups, false⟩ text).groups = (unescaped text).foldl Reader.nest groups := by
  fun_induction unescaped text generalizing groups with
  | case1 => rfl
  | case2 c rest ih => exact ih groups
  | case3 c rest hescape ih =>
    by_cases hc : c = '\\'
    · cases rest with
      | nil =>
        rw [hc]
        rfl
      | cons d rest => exact absurd rfl (hescape d rest hc)
    · rw [Place.run_cons, Place.step_of_ne rfl hc, List.foldl_cons]
      exact ih _

theorem nest_eq (reader : Reader) (c : Char) :
    reader.nest c = { reader with
      brackets := Text.nestStep '[' ']' reader.brackets c
      parens := Text.nestStep '(' ')' reader.parens c } := by
  unfold Reader.nest Text.nestStep
  split
  · rfl
  · rfl
  · rfl
  · rfl
  · rename_i h₁ h₂ h₃ h₄
    rw [if_neg h₁, if_neg h₂, if_neg h₃, if_neg h₄]

theorem foldl_nest (text : Text) (reader : Reader) :
    text.foldl Reader.nest reader = { reader with
      brackets := text.foldl (Text.nestStep '[' ']') reader.brackets
      parens := text.foldl (Text.nestStep '(' ')') reader.parens } := by
  induction text generalizing reader with
  | nil => rfl
  | cons c text ih => rw [List.foldl_cons, ih, nest_eq]; rfl

theorem leavesOpen_of_count {opening closing : Char} (hne : opening ≠ closing) {text : Text}
    (h : 0 < text.foldl (Text.nestStep opening closing) 0) :
    Text.LeavesOpen opening closing text := by
  rcases Text.leavesOpen_of_depth hne h with ⟨hpos, -⟩ | hopen
  · exact absurd hpos (Nat.lt_irrefl 0)
  · exact hopen

theorem shelters_of_run {text : Text} (h : (Place.run {} text).shelters = true) :
    Shelters text := by
  unfold Place.shelters Reader.inGroup at h
  rw [escaped_run, groups_run, foldl_nest] at h
  simp only [Bool.or_eq_true, decide_eq_true_eq] at h
  rcases h with hescaped | hbracket | hparen
  · exact .inl hescaped
  · exact .inr (.inl (leavesOpen_of_count (by decide) hbracket))
  · exact .inr (.inr (leavesOpen_of_count (by decide) hparen))

theorem Unbroken.shelters {front back : Text} {blank : Char}
    (h : Unbroken {} (front ++ blank :: back)) (hblank : Text.isBlank blank = true) :
    Shelters front :=
  shelters_of_run ((Unbroken.append_iff.1 h).2.1 hblank)

theorem Unbroken.startsBlank {text : Text} (h : Unbroken {} text) : text.startsBlank = false := by
  cases text with
  | nil => rfl
  | cons c text =>
    cases hc : Text.isBlank c with
    | false => simpa [Text.startsBlank] using hc
    | true => exact absurd (h.1 hc) (by decide)

/-! ## The blanks around tokens -/

/-- A text with these tokens is them with gaps of blanks behind each and a lead of blanks; no gap
between two tokens is empty. -/
theorem Spaced.exists_gaps {names : List Text} {text : Text} (h : Spaced names text)
    (hnames : ∀ name ∈ names, name ≠ [] ∧ name.startsBlank = false) :
    ∃ lead gaps, gaps.length = names.length ∧
      text = lead ++ (List.zipWith (· ++ ·) names gaps).flatten ∧
      (∀ gap ∈ lead :: gaps, ∀ c ∈ gap, Text.isBlank c = true) ∧
      ∀ gap ∈ gaps.dropLast, gap ≠ [] := by
  induction h with
  | @nil blanks hblanks => exact ⟨blanks, [], rfl, by simp, by simpa using hblanks, by simp⟩
  | @cons blanks name rest names hblanks hgap hrest ih =>
    obtain ⟨-, hlater⟩ := List.forall_mem_cons.1 hnames
    obtain ⟨lead, gaps, hlength, rfl, hall, hinner⟩ := ih hlater
    refine ⟨blanks, lead :: gaps, by simp [hlength], by simp, ?_, ?_⟩
    · exact List.forall_mem_cons.2 ⟨hblanks, hall⟩
    · cases gaps with
      | nil => simp
      | cons gap gaps =>
        rw [List.dropLast_cons_cons]
        refine List.forall_mem_cons.2 ⟨?_, hinner⟩
        -- The next token starts with no blank, so the blank in front of it is in the lead.
        rintro rfl
        cases names with
        | nil => cases hlength
        | cons next names =>
          obtain ⟨hne, hstart⟩ := hlater next List.mem_cons_self
          have hblank := hgap (List.cons_ne_nil next names)
          rw [List.nil_append, List.zipWith_cons_cons, List.flatten_cons, List.append_assoc,
            Text.startsBlank_append hne hstart] at hblank
          cases hblank

/-- A class list is its tokens with blanks around them, and blanks between any two of them.  No
token is empty, and every blank in a token is escaped or in a group that the token opens. -/
theorem tokens_rejoin_sheltered (text : Text) :
    (∃ lead gaps, gaps.length = (tokens text).length ∧
      text = lead ++ (List.zipWith (· ++ ·) (tokens text) gaps).flatten ∧
      (∀ gap ∈ lead :: gaps, ∀ c ∈ gap, Text.isBlank c = true) ∧
      ∀ gap ∈ gaps.dropLast, gap ≠ []) ∧
    (∀ token ∈ tokens text, token ≠ []) ∧
    ∀ token ∈ tokens text, ∀ front blank back, token = front ++ blank :: back →
      Text.isBlank blank = true → Shelters front := by
  have htokens : ∀ token ∈ tokens text, IsToken token := fun _ => isToken_of_mem_tokens
  refine ⟨(spaced_tokens text).exists_gaps ?_, fun token hmem => (htokens token hmem).nonempty, ?_⟩
  · intro token hmem
    exact ⟨(htokens token hmem).nonempty, (htokens token hmem).unbroken.startsBlank⟩
  · rintro token hmem front blank back rfl hblank
    exact (htokens _ hmem).unbroken.shelters hblank

/-- A list with blanks in a group and behind a backslash, and with a group that it leaves open. -/
def shelteredSample : Text := "a-[b c]\\ d  (e f".toList

theorem tokens_rejoin_sheltered_sample :
    tokens shelteredSample = ["a-[b c]\\ d".toList, "(e".toList, "f".toList] ∧
      Shelters "a-[b".toList ∧ Shelters "a-[b c]\\".toList := by
  have hmem : "a-[b c]\\ d".toList ∈ tokens shelteredSample := by decide
  have hshelters := (tokens_rejoin_sheltered shelteredSample).2.2 _ hmem
  exact ⟨by decide, hshelters "a-[b".toList ' ' "c]\\ d".toList rfl rfl,
    hshelters "a-[b c]\\".toList ' ' "d".toList rfl rfl⟩

end ClassAudit.ClassList
