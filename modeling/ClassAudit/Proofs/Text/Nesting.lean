import ClassAudit.Text.Basic
/-!
# Groups that stay open

Whether a pair of marks nests is a matter of counting: no part in front may
close more groups than are open there.  A scanner counts as it goes, and a
group that it finds open at the end was opened by a mark behind which no part
closes more than it opens.
-/

namespace ClassAudit.Text

/-- No part in front closes more groups than its own and so many around the text. -/
def Nests (opening closing : Char) (around : Nat) (text : Text) : Prop :=
  ∀ part, part <+: text → part.count closing ≤ around + part.count opening

/-- A group is opened in the text and not closed again. -/
def LeavesOpen (opening closing : Char) (text : Text) : Prop :=
  ∃ front inner, text = front ++ opening :: inner ∧ Nests opening closing 0 inner

theorem nests_nil {opening closing : Char} {around : Nat} : Nests opening closing around [] := by
  intro part hpart
  rw [List.prefix_nil.1 hpart]
  exact Nat.zero_le _

theorem nests_cons_iff {opening closing c : Char} {around : Nat} {text : Text} :
    Nests opening closing around (c :: text) ↔
      ∀ part, part <+: text → (c :: part).count closing ≤ around + (c :: part).count opening := by
  constructor
  · intro h part hpart
    exact h (c :: part) ((List.prefix_cons_inj c).2 hpart)
  · intro h part hpart
    rcases List.prefix_cons_iff.1 hpart with rfl | ⟨inner, rfl, hinner⟩
    · exact Nat.zero_le _
    · exact h inner hinner

theorem nests_open_iff {opening closing : Char} (hne : opening ≠ closing) {around : Nat}
    {text : Text} :
    Nests opening closing around (opening :: text) ↔ Nests opening closing (around + 1) text := by
  rw [nests_cons_iff]
  refine forall_congr' fun part => imp_congr_right fun _ => ?_
  rw [List.count_cons_self, List.count_cons_of_ne hne]
  omega

theorem nests_close_iff {opening closing : Char} (hne : opening ≠ closing) {around : Nat}
    {text : Text} :
    Nests opening closing around (closing :: text) ↔
      0 < around ∧ Nests opening closing (around - 1) text := by
  rw [nests_cons_iff]
  constructor
  · intro h
    have hfirst := h [] List.nil_prefix
    rw [List.count_cons_self, List.count_cons_of_ne hne.symm, List.count_nil, List.count_nil]
      at hfirst
    refine ⟨hfirst, fun part hpart => ?_⟩
    have hpart := h part hpart
    rw [List.count_cons_self, List.count_cons_of_ne hne.symm] at hpart
    omega
  · rintro ⟨hpos, h⟩ part hpart
    have hpart := h part hpart
    rw [List.count_cons_self, List.count_cons_of_ne hne.symm]
    omega

theorem nests_other_iff {opening closing c : Char} (hopen : c ≠ opening) (hclose : c ≠ closing)
    {around : Nat} {text : Text} :
    Nests opening closing around (c :: text) ↔ Nests opening closing around text := by
  rw [nests_cons_iff]
  refine forall_congr' fun part => imp_congr_right fun _ => ?_
  rw [List.count_cons_of_ne hopen, List.count_cons_of_ne hclose]

/-- The groups open behind a character. -/
def nestStep (opening closing : Char) (depth : Nat) (c : Char) : Nat :=
  if c = opening then depth + 1 else if c = closing then depth - 1 else depth

theorem LeavesOpen.cons {opening closing : Char} {text : Text}
    (h : LeavesOpen opening closing text) (c : Char) : LeavesOpen opening closing (c :: text) := by
  obtain ⟨front, inner, rfl, hinner⟩ := h
  exact ⟨c :: front, inner, rfl, hinner⟩

/-- A group that the count finds open was open before the text, or is opened in it. -/
theorem leavesOpen_of_depth {opening closing : Char} (hne : opening ≠ closing) {text : Text}
    {depth : Nat} (h : 0 < text.foldl (nestStep opening closing) depth) :
    0 < depth ∧ Nests opening closing (depth - 1) text ∨ LeavesOpen opening closing text := by
  -- One group around the text stays open all along it, or the mark that opens one is met.
  induction text generalizing depth with
  | nil => exact .inl ⟨h, nests_nil⟩
  | cons c text ih =>
    rw [List.foldl_cons] at h
    rcases ih h with ⟨hpos, hnests⟩ | hopen
    · unfold nestStep at hpos hnests
      by_cases hopening : c = opening
      · subst hopening
        rw [if_pos rfl, Nat.add_sub_cancel] at hnests
        cases depth with
        | zero => exact .inr ⟨[], text, rfl, hnests⟩
        | succ depth => exact .inl ⟨Nat.succ_pos depth, (nests_open_iff hne).2 hnests⟩
      · rw [if_neg hopening] at hpos hnests
        by_cases hclosing : c = closing
        · subst hclosing
          rw [if_pos rfl] at hpos hnests
          exact .inl ⟨Nat.lt_of_lt_of_le hpos (Nat.sub_le depth 1),
            (nests_close_iff hne).2 ⟨hpos, hnests⟩⟩
        · rw [if_neg hclosing] at hpos hnests
          exact .inl ⟨hpos, (nests_other_iff hopening hclosing).2 hnests⟩
    · exact .inr (hopen.cons c)

end ClassAudit.Text
