import ClassAudit.Proofs.Css.EscapedNames
import ClassAudit.Proofs.Css.RuleTree
/-!
# Texts without selectors

In a text of name characters, blanks, braces and escapes no class name starts:
the reader of selectors passes over every escape.  The readers before it do not
know escapes and may cut one in two, so a piece may start or end in the middle
of one.  This module shows that no piece starts inside of an escape, and so that
a sheet of such a text defines no class.
-/

namespace ClassAudit.Css

/-- A character that starts nothing in a selector. -/
def IsMute (c : Char) : Prop :=
  Selector.isNameChar c = true ∨ c ∈ [' ', '{', '}']

/-- The texts of mute characters and escapes.  The last backslash may have nothing to escape. -/
inductive Muted : Text → Prop where
  | nil : Muted []
  | lone : Muted ['\\']
  | escape (c : Char) {rest : Text} (h : Muted rest) : Muted ('\\' :: c :: rest)
  | mute {c : Char} {rest : Text} (hc : IsMute c) (h : Muted rest) : Muted (c :: rest)

theorem IsMute.ne {c d : Char} (h : IsMute c)
    (hd : Selector.isNameChar d = false ∧ d ∉ [' ', '{', '}']) : c ≠ d := by
  rintro rfl
  rcases h with hname | hmem
  · rw [hd.1] at hname
    exact absurd hname (by decide)
  · exact hd.2 hmem

namespace Muted

theorem mute_append {front rest : Text} (hfront : ∀ c ∈ front, IsMute c) (h : Muted rest) :
    Muted (front ++ rest) := by
  induction front with
  | nil => exact h
  | cons c front ih => exact .mute (hfront c (by simp)) (ih fun d hd => hfront d (by simp [hd]))

theorem spell_append {parts : List (Char × Spelling)} (hparts : ∀ part ∈ parts, Readable part)
    {rest : Text} (h : Muted rest) : Muted (spell parts ++ rest) := by
  induction parts with
  | nil => exact h
  | cons part parts ih =>
    obtain ⟨c, spelling⟩ := part
    have hpart := hparts (c, spelling) (by simp)
    have hlater := ih fun other hother => hparts other (by simp [hother])
    rw [spell_cons, List.append_assoc]
    cases spelling with
    | verbatim => exact .mute (.inl hpart) hlater
    | marked => exact .escape c hlater
    | coded =>
      obtain ⟨hhex, -, hne, -⟩ := toDigits_spec c.toNat (toNat_lt_of_coded hpart)
      rw [Spelling.write]
      generalize Nat.toDigits 16 c.toNat = digits at hhex hne ⊢
      cases digits with
      | nil => exact absurd rfl hne
      | cons d digits =>
        -- The first digit goes with the backslash, the other digits and the blank are mute.
        have hmute : ∀ e ∈ digits ++ [' '], IsMute e := by
          intro e he
          rcases List.mem_append.1 he with he | he
          · have hname := isPlainNameChar_of_isHexDigit (hhex e (by simp [he]))
            exact .inl (by rw [Selector.isNameChar, hname, Bool.true_or])
          · rw [List.mem_singleton.1 he]
            exact .inr (by decide)
        exact .escape d (mute_append hmute hlater)

theorem front {front back : Text} (h : Muted (front ++ back)) : Muted front := by
  generalize htext : front ++ back = text at h
  induction h generalizing front with
  | nil =>
    rw [(List.append_eq_nil_iff.1 htext).1]
    exact .nil
  | lone =>
    cases front with
    | nil => exact .nil
    | cons c front =>
      obtain ⟨rfl, hrest⟩ := List.cons.inj htext
      rw [(List.append_eq_nil_iff.1 hrest).1]
      exact .lone
  | escape c _ ih =>
    match front with
    | [] => exact .nil
    | [d] =>
      obtain ⟨rfl, -⟩ := List.cons.inj htext
      exact .lone
    | d :: e :: front =>
      obtain ⟨rfl, hrest⟩ := List.cons.inj htext
      exact .escape e (ih (List.cons.inj hrest).2)
  | mute hc _ ih =>
    cases front with
    | nil => exact .nil
    | cons d front =>
      obtain ⟨rfl, hrest⟩ := List.cons.inj htext
      exact .mute hc (ih hrest)

/-- Behind any character but a backslash no escape is open. -/
theorem behind {mark : Char} (hmark : mark ≠ '\\') {front back : Text}
    (h : Muted (front ++ mark :: back)) : Muted back := by
  generalize htext : front ++ mark :: back = text at h
  induction h generalizing front with
  | nil => exact absurd htext (by simp)
  | lone =>
    match front with
    | [] => exact absurd (List.cons.inj htext).1 hmark
    | d :: front => exact absurd (List.cons.inj htext).2 (by simp)
  | escape c hrest ih =>
    match front with
    | [] => exact absurd (List.cons.inj htext).1 hmark
    | [d] =>
      obtain ⟨-, hlater⟩ := List.cons.inj htext
      rw [(List.cons.inj hlater).2]
      exact hrest
    | d :: e :: front => exact ih (List.cons.inj (List.cons.inj htext).2).2
  | mute _ hrest ih =>
    match front with
    | [] =>
      rw [(List.cons.inj htext).2]
      exact hrest
    | d :: front => exact ih (List.cons.inj htext).2

theorem trimStart {text : Text} (h : Muted text) : Muted (Text.trimStart text) := by
  unfold Text.trimStart
  induction h with
  | nil => exact .nil
  | lone => exact .lone
  | escape c hrest _ =>
    rw [List.dropWhile_cons_of_neg (by decide)]
    exact .escape c hrest
  | @mute c rest hc hrest ih =>
    by_cases hblank : Text.isBlank c = true
    · rw [List.dropWhile_cons_of_pos hblank]
      exact ih
    · rw [List.dropWhile_cons_of_neg hblank]
      exact .mute hc hrest

theorem trim {text : Text} (h : Muted text) : Muted (Text.trim text) := by
  unfold Text.trim Text.dropEndWhile
  have hstart := h.trimStart
  obtain ⟨dropped, hdropped⟩ := List.dropWhile_suffix (l := (Text.trimStart text).reverse)
    Text.isBlank
  rw [← List.reverse_reverse (Text.trimStart text), ← hdropped, List.reverse_append] at hstart
  exact hstart.front

end Muted

theorem masks_muted {text : Text} (h : Muted text) (offset : Nat) :
    Masks .sheet offset text (plainCells text) := by
  induction h generalizing offset with
  | nil => exact .done offset
  | lone =>
    have hstep : MaskStep .sheet offset ['\\'] [] [.plain '\\'] .sheet :=
      .plain '\\' (by decide) (fun _ => rfl) (by decide)
    exact .step hstep (.done _)
  | escape c _ ih => exact .step (.escape c) (ih _)
  | @mute c rest hc _ ih =>
    have hne := fun {d : Char} => @IsMute.ne c d hc
    have hstep : MaskStep .sheet offset [c] rest [.plain c] .sheet :=
      .plain c (not_or.2 ⟨hne (by decide), hne (by decide)⟩)
        (fun hescape => absurd hescape (hne (by decide)))
        fun hslash => absurd hslash (hne (by decide))
    exact .step hstep (ih _)

namespace Selector

theorem classes_muted {text : Text} (h : Muted text) : classes text = .ok [] := by
  unfold classes
  induction h with
  | nil => rw [classesFrom]; rfl
  | lone => simp [classesFrom]
  | escape c _ ih =>
    rw [classesFrom, if_pos rfl]
    exact ih
  | @mute c rest hc _ ih =>
    have hne := fun {d : Char} => @IsMute.ne c d hc
    rw [classesFrom, if_neg (hne (by decide)), if_neg (hne (by decide)), if_neg (hne (by decide)),
      if_neg (hne (by decide)), if_neg (hne (by decide)), if_neg (hne (by decide))]
    exact ih

theorem exists_splitCommas (depth : Nat) (text : Text) :
    ∃ first others, splitCommas depth text = first :: others := by
  induction text generalizing depth with
  | nil => exact ⟨[], [], rfl⟩
  | cons c text ih =>
    by_cases hcomma : c = ',' ∧ depth = 0
    · exact ⟨[], splitCommas 0 text, by rw [splitCommas, if_pos hcomma]⟩
    · obtain ⟨first, others, hsplit⟩ := ih (nestingAfter depth c)
      exact ⟨c :: first, others, splitCommas_cons hcomma hsplit⟩

theorem splitCommas_muted {text : Text} (h : Muted text) (depth : Nat) :
    ∀ part ∈ splitCommas depth text, Muted part := by
  induction h generalizing depth with
  | nil => exact List.forall_mem_singleton.2 .nil
  | lone =>
    rw [splitCommas_cons (by simp) rfl]
    exact List.forall_mem_singleton.2 .lone
  | @escape c rest _ ih =>
    have hdepth : nestingAfter depth '\\' = depth :=
      nestingAfter_of_ne (by decide) (by decide) depth
    by_cases hcomma : c = ',' ∧ depth = 0
    · -- The comma is taken for a separator, and its backslash ends the part before.
      have hsplit : splitCommas depth (c :: rest) = [] :: splitCommas 0 rest := by
        rw [splitCommas, if_pos hcomma]
      rw [splitCommas_cons (by simp) (by rw [hdepth, hsplit])]
      exact List.forall_mem_cons.2 ⟨.lone, ih 0⟩
    · obtain ⟨first, others, hsplit⟩ := exists_splitCommas (nestingAfter depth c) rest
      have hparts := ih (nestingAfter depth c)
      rw [hsplit, List.forall_mem_cons] at hparts
      rw [splitCommas_cons (by simp) (by rw [hdepth, splitCommas_cons hcomma hsplit])]
      exact List.forall_mem_cons.2 ⟨.escape c hparts.1, hparts.2⟩
  | @mute c rest hc _ ih =>
    obtain ⟨first, others, hsplit⟩ := exists_splitCommas (nestingAfter depth c) rest
    have hparts := ih (nestingAfter depth c)
    rw [hsplit, List.forall_mem_cons] at hparts
    rw [splitCommas_cons (fun hcomma => hc.ne (by decide) hcomma.1) hsplit]
    exact List.forall_mem_cons.2 ⟨.mute hc hparts.1, hparts.2⟩

end Selector

theorem listFindings_muted {list : Text} (h : Muted list) : listFindings list = [] := by
  unfold listFindings
  rw [List.flatMap_eq_nil_iff]
  intro selector hselector
  obtain ⟨part, hpart, rfl⟩ := List.mem_map.1 (List.mem_filter.1 hselector).1
  have hclasses := Selector.classes_muted (Selector.splitCommas_muted h 0 part hpart).trim
  rw [selectorFindings, hclasses]
  rfl

/-- A list of selectors is read behind the last semicolon and trimmed, so it starts in no escape. -/
theorem Header.muted_of_ofFront {text list : Text} (h : Muted text)
    (hlist : ofFront (plainCells text) = .selectors list) : Muted list := by
  have hbehind : ∃ rest, Muted rest ∧ ';' ∉ rest ∧
      ofFront (plainCells text) = ofFront (plainCells rest) := by
    cases hcut : Text.cutLast? ';' text with
    | none =>
      have hnone := Option.map_eq_none_iff.1 hcut
      rw [Text.cut?_eq_none_iff, List.mem_reverse] at hnone
      exact ⟨text, h, hnone, rfl⟩
    | some pieces =>
      obtain ⟨rfl, hrest⟩ := Text.cutLast?_eq_some_iff.1 hcut
      refine ⟨pieces.2, h.behind (by decide), hrest, ?_⟩
      rw [plainCells_append, plainCells_cons]
      exact ofFront_append_semicolon _ _ rfl
  obtain ⟨rest, hrest, hsemicolon, hfront⟩ := hbehind
  have hsplit : rest.takeWhile Text.isBlank ++ Text.trimStart rest = rest :=
    List.takeWhile_append_dropWhile
  have hstart : ofFront (plainCells (rest.takeWhile Text.isBlank ++ Text.trimStart rest)) =
      ofFront (plainCells (Text.trimStart rest)) := by
    rw [plainCells_append]
    apply ofFront_blanks_append
    intro cell hcell
    obtain ⟨c, hc, rfl⟩ := mem_plainCells.1 hcell
    exact List.mem_takeWhile_imp hc
  have hnone : ';' ∉ Text.trimStart rest := fun hmem =>
    hsemicolon (List.dropWhile_suffix _ |>.subset hmem)
  rw [hsplit] at hstart
  rw [hfront, hstart, ofFront_plainCells hnone (Text.startsBlank_trimStart rest)] at hlist
  split at hlist
  · split at hlist <;> cases hlist
  · obtain ⟨rfl⟩ := hlist
    exact hrest.trimStart.trim

namespace Block

/-- Nothing that stands before a brace of the block starts a selector. -/
def Mute : Block → Prop
  | done _ => True
  | rule front body next =>
    (∃ text, Muted text ∧ front = plainCells text) ∧ body.Mute ∧ next.Mute

theorem Mute.className_not_mem_findings {block : Block} (h : block.Mute) (name : Text) :
    .className name ∉ block.findings := by
  induction block with
  | done tail => exact List.not_mem_nil
  | rule front body next ihbody ihnext =>
    obtain ⟨⟨text, htext, rfl⟩, hbody, hnext⟩ := h
    have hbody := ihbody hbody
    have hnext := ihnext hnext
    rw [findings, List.mem_append, not_or]
    refine ⟨?_, hnext⟩
    split
    · split <;> simp
    · exact hbody
    · rename_i list hlist
      rw [listFindings_muted (Header.muted_of_ofFront htext hlist)]
      exact hbody

theorem Mute.prepend {block : Block} (h : block.Mute) {front : Text}
    (hfront : ∀ text, Muted text → Muted (front ++ text)) :
    (block.prepend (plainCells front)).Mute := by
  cases block with
  | done tail => rw [prepend_done]; exact trivial
  | rule header body next =>
    obtain ⟨⟨text, htext, rfl⟩, hinner⟩ := h
    rw [prepend_rule, ← plainCells_append]
    exact ⟨⟨front ++ text, hfront text htext, rfl⟩, hinner⟩

/-- The blocks read so far are mute. -/
def Suffix.Mute (suffix : Suffix) : Prop :=
  suffix.block.Mute ∧ ∀ block ∈ suffix.outer, block.Mute

theorem Suffix.Mute.push_front {suffix : Suffix} (h : suffix.Mute) {front : Text}
    (hbraces : ∀ c ∈ front, c ≠ '{' ∧ c ≠ '}')
    (hfront : ∀ text, Muted text → Muted (front ++ text)) :
    Suffix.Mute ((plainCells front).foldr Suffix.push suffix) := by
  rw [foldr_push_braceless]
  · exact ⟨h.1.prepend hfront, h.2⟩
  · intro cell hcell
    obtain ⟨c, hc, rfl⟩ := mem_plainCells.1 hcell
    exact hbraces c hc

/-- A brace starts a new front, be it escaped or not. -/
theorem Suffix.Mute.push_brace {suffix : Suffix} (h : suffix.Mute) {brace : Char}
    (hbrace : brace = '{' ∨ brace = '}') {front : Text} (hfront : front = [] ∨ front = ['\\']) :
    Suffix.Mute ((plainCells (front ++ [brace])).foldr Suffix.push suffix) := by
  have hmuted : Muted front := by
    rcases hfront with rfl | rfl
    · exact .nil
    · exact .lone
  rw [plainCells_append, List.foldr_append, foldr_push_braceless]
  · obtain ⟨block, outer⟩ := suffix
    rcases hbrace with rfl | rfl
    · cases outer with
      | nil =>
        show Suffix.Mute ⟨(rule [] block (done [])).prepend _, []⟩
        rw [prepend_rule, List.append_nil]
        exact ⟨⟨⟨front, hmuted, rfl⟩, h.1, trivial⟩, List.forall_mem_nil _⟩
      | cons next outer =>
        show Suffix.Mute ⟨(rule [] block next).prepend _, outer⟩
        rw [prepend_rule, List.append_nil]
        obtain ⟨hnext, houter⟩ := List.forall_mem_cons.1 h.2
        exact ⟨⟨⟨front, hmuted, rfl⟩, h.1, hnext⟩, houter⟩
    · show Suffix.Mute ⟨(done []).prepend _, block :: outer⟩
      rw [prepend_done]
      exact ⟨trivial, List.forall_mem_cons.2 h⟩
  · intro cell hcell
    obtain ⟨c, hc, rfl⟩ := mem_plainCells.1 hcell
    rcases hfront with rfl | rfl
    · cases hc
    · rw [List.mem_singleton.1 hc]
      decide

theorem mute_ofCells {text : Text} (h : Muted text) : (ofCells (plainCells text)).Mute := by
  suffices hsuffix : Suffix.Mute ((plainCells text).foldr Suffix.push ⟨done [], []⟩) from hsuffix.1
  induction h with
  | nil => exact ⟨trivial, List.forall_mem_nil _⟩
  | lone => exact ⟨trivial, List.forall_mem_nil _⟩
  | @escape c rest _ ih =>
    rw [show '\\' :: c :: rest = (['\\'] ++ [c]) ++ rest from rfl, plainCells_append,
      List.foldr_append]
    by_cases hbrace : c = '{' ∨ c = '}'
    · exact ih.push_brace hbrace (.inr rfl)
    · refine ih.push_front ?_ fun text htext => .escape c htext
      simpa using not_or.1 hbrace
  | @mute c rest hc _ ih =>
    rw [show c :: rest = ([] ++ [c]) ++ rest from rfl, plainCells_append, List.foldr_append]
    by_cases hbrace : c = '{' ∨ c = '}'
    · exact ih.push_brace hbrace (.inl rfl)
    · refine ih.push_front ?_ fun text htext => .mute hc htext
      simpa using not_or.1 hbrace

end Block

end ClassAudit.Css
