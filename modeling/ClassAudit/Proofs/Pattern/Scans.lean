import ClassAudit.Proofs.Pattern.Runs
/-!
# Matches from left to right

The matches that a search through a whole text gives, one behind the other: no
match starts before the first one, the first one is as long as can be, and the
search goes on where it ends.  There is only one such list of matches.
-/

namespace ClassAudit.Regex

variable {α : Type} {regex : Regex α}

/-- The matches of an expression in a text, for an expression that matches no empty text. -/
inductive Scans (regex : Regex α) : Option α → List α → List (List α) → Prop
  | nil {previous : Option α} (hnone : ∀ later, ¬Runs regex ⟨previous, []⟩ later) :
      Scans regex previous [] []
  | skip {previous : Option α} {symbol : α} {rest : List α} {parts : List (List α)}
      (hnone : ∀ later, ¬Runs regex ⟨previous, symbol :: rest⟩ later)
      (hrest : Scans regex (some symbol) rest parts) :
      Scans regex previous (symbol :: rest) parts
  | found {previous : Option α} {read rest : List α} {parts : List (List α)} (hread : read ≠ [])
      (hrun : Runs regex ⟨previous, read ++ rest⟩ ⟨read.getLast?, rest⟩)
      (hlongest : ∀ later, Runs regex ⟨previous, read ++ rest⟩ later →
        rest.length ≤ later.rest.length)
      (hrest : Scans regex read.getLast? rest parts) :
      Scans regex previous (read ++ rest) (read :: parts)

/-- A search gives one list of matches. -/
theorem Scans.unique {previous : Option α} {text : List α} {parts others : List (List α)}
    (h : Scans regex previous text parts) (h' : Scans regex previous text others) :
    parts = others := by
  induction h generalizing others with
  | nil hnone =>
    generalize htext : ([] : List α) = text at h'
    cases h' with
    | nil => rfl
    | skip => cases htext
    | found hread => exact absurd (List.append_eq_nil_iff.1 htext.symm).1 hread
  | @skip previous symbol rest parts hnone _ ih =>
    generalize htext : symbol :: rest = text at h'
    cases h' with
    | nil => cases htext
    | skip _ hrest =>
      obtain ⟨rfl, rfl⟩ := List.cons.inj htext
      exact ih hrest
    | found _ hrun => exact absurd hrun (htext ▸ hnone _)
  | @found previous read rest parts hread hrun hlongest _ ih =>
    generalize htext : read ++ rest = text at h'
    cases h' with
    | nil => exact absurd (List.append_eq_nil_iff.1 htext).1 hread
    | skip hnone => exact absurd hrun (htext ▸ hnone _)
    | @found _ read' rest' _ hread' hrun' hlongest' hrest' =>
      -- Each of the two is as long as the other, so both end at one place.
      have hlength : rest.length = rest'.length :=
        Nat.le_antisymm (hlongest _ (htext ▸ hrun')) (hlongest' _ (htext ▸ hrun))
      obtain ⟨rfl, rfl⟩ := List.append_inj' htext hlength
      rw [ih hrest']

/-! ## Repeated symbols -/

theorem exists_read_of_runs_star_item {test : α → Bool} {place later : Place α}
    (h : Runs (star (item test)) place later) :
    ∃ read, place.rest = read ++ later.rest ∧ ∀ symbol ∈ read, test symbol = true := by
  generalize hregex : star (item test) = regex at h
  induction h with
  | starNil => exact ⟨[], rfl, List.forall_mem_nil _⟩
  | starCons hbody _ _ _ ih =>
    obtain rfl := Regex.star.inj hregex
    obtain ⟨read, hread, htest⟩ := ih rfl
    cases hbody with
    | @item _ _ symbol rest hsymbol =>
      refine ⟨symbol :: read, ?_, List.forall_mem_cons.2 ⟨hsymbol, htest⟩⟩
      rw [List.cons_append, ← hread]
  | _ => cases hregex

theorem runs_star_item {test : α → Bool} {read : List α}
    (hread : ∀ symbol ∈ read, test symbol = true) (previous : Option α) (rest : List α) :
    Runs (star (item test)) ⟨previous, read ++ rest⟩ ⟨read.getLast?.or previous, rest⟩ := by
  induction read generalizing previous with
  | nil => exact .starNil
  | cons symbol read ih =>
    obtain ⟨hsymbol, hread⟩ := List.forall_mem_cons.1 hread
    have hlast : (symbol :: read).getLast?.or previous = read.getLast?.or (some symbol) := by
      rw [List.getLast?_cons]
      cases read.getLast? <;> rfl
    rw [hlast]
    exact .starCons (.item hsymbol) (by simp) (ih hread (some symbol))

end ClassAudit.Regex
