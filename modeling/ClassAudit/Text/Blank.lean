import ClassAudit.Text.Basic
/-!
# Blank characters

The characters with the White_Space property, and the cuts that depend on them: trimming a text
and splitting it into words.
-/

namespace ClassAudit.Text

/-- The code points with the White_Space property, as closed ranges in increasing order. -/
def blankRanges : List (Nat × Nat) :=
  [(0x09, 0x0D), (0x20, 0x20), (0x85, 0x85), (0xA0, 0xA0), (0x1680, 0x1680), (0x2000, 0x200A),
    (0x2028, 0x2029), (0x202F, 0x202F), (0x205F, 0x205F), (0x3000, 0x3000)]

/-- Whether a character is white space. -/
def isBlank (c : Char) : Bool :=
  blankRanges.any fun range => range.1 ≤ c.toNat && c.toNat ≤ range.2

/-- The text without its leading blanks. -/
def trimStart (text : Text) : Text :=
  text.dropWhile isBlank

/-- The text without what matches at its end. -/
def dropEndWhile (drop : Char → Bool) (text : Text) : Text :=
  (text.reverse.dropWhile drop).reverse

/-- The text without its leading and trailing blanks. -/
def trim (text : Text) : Text :=
  dropEndWhile isBlank (trimStart text)

/-- The maximal runs of non-blank characters. -/
def words (text : Text) : List Text :=
  (text.splitOnP isBlank).filter fun word => !word.isEmpty

/-- Whether the text starts with a blank. -/
def startsBlank (text : Text) : Bool :=
  text.head?.any isBlank

/-- Whether the text ends with a blank. -/
def endsBlank (text : Text) : Bool :=
  text.getLast?.any isBlank

theorem dropWhile_eq_self {drop : Char → Bool} {text : Text}
    (h : ∀ c ∈ text.head?, drop c = false) : text.dropWhile drop = text := by
  cases text with
  | nil => rfl
  | cons c rest =>
    have hc : drop c = false := h c rfl
    rw [List.dropWhile_cons_of_neg (by simp [hc])]

theorem ne_of_isBlank {c d : Char} (h : isBlank c) (hd : isBlank d = false) : c ≠ d := by
  rintro rfl
  rw [h] at hd
  exact absurd hd (by decide)

theorem startsBlank_of_unblank {word : Text} (hword : ∀ c ∈ word, isBlank c = false) :
    word.startsBlank = false :=
  (Option.any_eq_false _ _).2 fun c hc => hword c (List.mem_of_head? hc)

theorem endsBlank_of_unblank {word : Text} (hword : ∀ c ∈ word, isBlank c = false) :
    word.endsBlank = false :=
  (Option.any_eq_false _ _).2 fun c hc => hword c (List.mem_of_getLast? hc)

theorem startsBlank_append {text : Text} (hne : text ≠ []) (h : text.startsBlank = false)
    (rest : Text) : (text ++ rest).startsBlank = false := by
  cases text with
  | nil => exact absurd rfl hne
  | cons c text => exact h

theorem endsBlank_append {text : Text} (hne : text ≠ []) (h : text.endsBlank = false)
    (front : Text) : (front ++ text).endsBlank = false := by
  unfold endsBlank at h ⊢
  have hlast := List.getLast?_eq_some_getLast hne
  rw [List.getLast?_append, hlast, Option.some_or, ← hlast]
  exact h

theorem trimStart_append {text : Text} (h : trimStart text ≠ []) (rest : Text) :
    trimStart (text ++ rest) = trimStart text ++ rest := by
  unfold trimStart at h ⊢
  rw [List.dropWhile_append, if_neg (by simpa using h)]

theorem trimStart_blanks_append {blanks text : Text} (hblanks : ∀ c ∈ blanks, isBlank c)
    (htext : text.startsBlank = false) : trimStart (blanks ++ text) = text := by
  unfold trimStart
  rw [List.dropWhile_append_of_pos hblanks]
  exact dropWhile_eq_self ((Option.any_eq_false _ _).1 htext)

/-- What matches at the end is dropped and nothing else. -/
theorem dropEndWhile_append {drop : Char → Bool} {text tail : Text}
    (htail : ∀ c ∈ tail, drop c) (htext : ∀ c ∈ text.getLast?, drop c = false) :
    dropEndWhile drop (text ++ tail) = text := by
  unfold dropEndWhile
  rw [List.reverse_append, List.dropWhile_append_of_pos]
  · rw [dropWhile_eq_self, List.reverse_reverse]
    rw [List.head?_reverse]
    exact htext
  · intro c hc
    exact htail c (List.mem_reverse.1 hc)

theorem startsBlank_trimStart (text : Text) : (trimStart text).startsBlank = false := by
  unfold startsBlank trimStart
  have hhead := List.head?_dropWhile_not isBlank text
  cases hfirst : (text.dropWhile isBlank).head? with
  | none => rfl
  | some c => simpa [hfirst] using hhead

theorem trim_trimStart (text : Text) : trim (trimStart text) = trim text := by
  have hstart := startsBlank_trimStart text
  unfold trim
  exact congrArg _ (dropWhile_eq_self ((Option.any_eq_false _ _).1 hstart))

theorem endsBlank_trim (text : Text) : (trim text).endsBlank = false := by
  unfold endsBlank trim dropEndWhile
  rw [List.getLast?_reverse]
  exact startsBlank_trimStart (trimStart text).reverse

theorem trim_blanks_around {front text back : Text} (hfront : ∀ c ∈ front, isBlank c)
    (hback : ∀ c ∈ back, isBlank c) (hne : text ≠ []) (hstart : text.startsBlank = false)
    (hend : text.endsBlank = false) : trim (front ++ text ++ back) = text := by
  unfold trim
  rw [List.append_assoc, trimStart_blanks_append hfront (startsBlank_append hne hstart back)]
  exact dropEndWhile_append hback ((Option.any_eq_false _ _).1 hend)

theorem mem_trim {text : Text} {c : Char} (hc : c ∈ text) (hvisible : isBlank c = false) :
    c ∈ trim text := by
  have hdrop : ∀ list : Text, c ∈ list → c ∈ list.dropWhile isBlank := by
    intro list hmem
    induction list with
    | nil => exact hmem
    | cons d list ih =>
      rw [List.dropWhile_cons]
      split
      · rename_i hblank
        rcases List.mem_cons.1 hmem with rfl | hmem
        · rw [hvisible] at hblank
          cases hblank
        · exact ih hmem
      · exact hmem
  unfold trim dropEndWhile trimStart
  rw [List.mem_reverse]
  exact hdrop _ (List.mem_reverse.2 (hdrop text hc))

theorem trim_eq_nil_iff {text : Text} : trim text = [] ↔ ∀ c ∈ text, isBlank c = true := by
  constructor
  · intro h c hc
    cases hblank : isBlank c with
    | true => rfl
    | false =>
      have hmem := mem_trim hc hblank
      rw [h] at hmem
      cases hmem
  · intro h
    have hstart := trimStart_blanks_append h (show startsBlank [] = false by rfl)
    rw [List.append_nil] at hstart
    unfold trim
    rw [hstart]
    rfl

theorem trim_append_blanks (text : Text) {blanks : Text} (h : ∀ c ∈ blanks, isBlank c = true) :
    trim (text ++ blanks) = trim text := by
  by_cases hall : ∀ c ∈ text, isBlank c = true
  · rw [trim_eq_nil_iff.2 hall, trim_eq_nil_iff]
    intro c hc
    exact (List.mem_append.1 hc).elim (hall c) (h c)
  · have hne : text.dropWhile isBlank ≠ [] := by
      intro hnil
      rw [← trim_eq_nil_iff, trim, trimStart, hnil] at hall
      exact hall rfl
    have hstart : trimStart (text ++ blanks) = trimStart text ++ blanks := by
      unfold trimStart
      rw [List.dropWhile_append, if_neg (by simpa using hne)]
    unfold trim dropEndWhile
    rw [hstart, List.reverse_append, List.dropWhile_append_of_pos]
    intro c hc
    exact h c (List.mem_reverse.1 hc)

theorem trim_of_endsBlank {text : Text} (h : text.endsBlank = false) :
    trim text = trimStart text := by
  have hend : ∀ c ∈ (trimStart text).getLast?, isBlank c = false := by
    intro c hc
    have hlast : text.getLast? = some c := by
      obtain ⟨front, hfront⟩ := List.dropWhile_suffix (l := text) isBlank
      rw [← hfront, List.getLast?_append]
      show ((trimStart text).getLast?).or _ = some c
      rw [hc, Option.some_or]
    exact (Option.any_eq_false _ _).1 h c hlast
  have hdrop := dropEndWhile_append (List.forall_mem_nil _) hend
  rw [List.append_nil] at hdrop
  exact hdrop

/-- A text is a part without blanks at its end, and blanks. -/
theorem exists_blanks_behind (text : Text) :
    ∃ front blanks, text = front ++ blanks ∧ (∀ c ∈ blanks, isBlank c = true) ∧
      front.endsBlank = false := by
  refine ⟨(text.reverse.dropWhile isBlank).reverse, (text.reverse.takeWhile isBlank).reverse,
    ?_, ?_, ?_⟩
  · rw [← List.reverse_append, List.takeWhile_append_dropWhile, List.reverse_reverse]
  · intro c hc
    exact List.all_eq_true.1 List.all_takeWhile c (List.mem_reverse.1 hc)
  · unfold endsBlank
    rw [List.getLast?_reverse]
    exact startsBlank_trimStart text.reverse

end ClassAudit.Text
