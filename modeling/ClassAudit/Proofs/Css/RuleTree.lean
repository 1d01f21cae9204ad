import ClassAudit.Proofs.Css.SelectorList
/-!
# Reading a written rule tree

A rule tree is a style sheet as its author thinks of it: declarations, style
rules, grouping rules and keyframes, nested to any depth.  `RuleTree.Written`
says which texts write a tree.  Reading such a text finds the classes of the
selectors of the tree and the names of its keyframes, and reports the selectors
that have no reading.
-/

namespace ClassAudit.Css

/-- The items of a style sheet or of a body, the first one in front. -/
inductive RuleTree where
  | nil
  | declaration (text : Text) (next : RuleTree)
  | style (selectors : List Text) (body next : RuleTree)
  | grouping (header : Text) (body next : RuleTree)
  | keyframes (word name body : Text) (next : RuleTree)

/-- A name made of name characters, without blanks around it. -/
structure IsIdentifier (name : Text) : Prop where
  nonempty : name ≠ []
  nameChars : ∀ c ∈ name, Selector.isNameChar c
  starts : name.startsBlank = false
  ends : name.endsBlank = false

instance (name : Text) : Decidable (IsIdentifier name) :=
  decidable_of_iff (name ≠ [] ∧ (∀ c ∈ name, Selector.isNameChar c) ∧ name.startsBlank = false ∧
      name.endsBlank = false)
    ⟨fun ⟨h₁, h₂, h₃, h₄⟩ => ⟨h₁, h₂, h₃, h₄⟩,
      fun h => ⟨h.nonempty, h.nameChars, h.starts, h.ends⟩⟩

theorem IsIdentifier.ne_of_mem {name : Text} (h : IsIdentifier name) {c d : Char} (hc : c ∈ name)
    (hd : Selector.isNameChar d = false) : c ≠ d := by
  rintro rfl
  rw [h.nameChars c hc] at hd
  exact absurd hd (by decide)

namespace RuleTree

/-- The texts of a tree keep its structure apart: no text closes a rule, opens a string or hides
what follows it. -/
def WellFormed : RuleTree → Prop
  | nil => True
  | declaration text next => IsInline text ∧ next.WellFormed
  | style selectors body next =>
    (selectors ≠ [] ∧ ∀ selector ∈ selectors, IsSelector selector) ∧
      body.WellFormed ∧ next.WellFormed
  | grouping header body next =>
    (IsInline header ∧ header.head? = some '@' ∧
      Header.firstWord header ∉ Header.keyframesWords) ∧ body.WellFormed ∧ next.WellFormed
  | keyframes word name body next =>
    (word ∈ Header.keyframesWords ∧ IsIdentifier name ∧ Plain body ∧ Balanced id body) ∧
      next.WellFormed

/-- The texts that write a tree, with any blanks between its items. -/
inductive Written : RuleTree → Text → Prop where
  | nil {blanks : Text} (hblanks : ∀ c ∈ blanks, Text.isBlank c) : Written .nil blanks
  | declaration {blanks text css : Text} {next : RuleTree}
      (hblanks : ∀ c ∈ blanks, Text.isBlank c) (hnext : Written next css) :
      Written (.declaration text next) (blanks ++ (text ++ ';' :: css))
  | style {blanks list gap inner css : Text} {selectors : List Text} {body next : RuleTree}
      (hblanks : ∀ c ∈ blanks, Text.isBlank c) (hlist : Joined selectors list)
      (hgap : ∀ c ∈ gap, Text.isBlank c) (hbody : Written body inner) (hnext : Written next css) :
      Written (.style selectors body next)
        (blanks ++ (list ++ gap ++ ('{' :: inner ++ '}' :: css)))
  | grouping {blanks header gap inner css : Text} {body next : RuleTree}
      (hblanks : ∀ c ∈ blanks, Text.isBlank c) (hgap : ∀ c ∈ gap, Text.isBlank c)
      (hbody : Written body inner) (hnext : Written next css) :
      Written (.grouping header body next)
        (blanks ++ (header ++ gap ++ ('{' :: inner ++ '}' :: css)))
  | keyframes {blanks word space name gap body css : Text} {next : RuleTree}
      (hblanks : ∀ c ∈ blanks, Text.isBlank c) (hspace : ∀ c ∈ space, Text.isBlank c)
      (hne : space ≠ []) (hgap : ∀ c ∈ gap, Text.isBlank c) (hnext : Written next css) :
      Written (.keyframes word name body next)
        (blanks ++ (word ++ space ++ name ++ gap ++ ('{' :: body ++ '}' :: css)))

/-- The selectors of a tree at any depth, in order. -/
def selectors : RuleTree → List Text
  | nil => []
  | declaration _ next => next.selectors
  | style selectors body next => selectors ++ body.selectors ++ next.selectors
  | grouping _ body next => body.selectors ++ next.selectors
  | keyframes _ _ _ next => next.selectors

/-- The names of the keyframes of a tree at any depth, in order. -/
def keyframesNames : RuleTree → List Text
  | nil => []
  | declaration _ next => next.keyframesNames
  | style _ body next => body.keyframesNames ++ next.keyframesNames
  | grouping _ body next => body.keyframesNames ++ next.keyframesNames
  | keyframes _ name _ next => name :: next.keyframesNames

/-- What a tree holds, in order. -/
def findings : RuleTree → List Finding
  | nil => []
  | declaration _ next => next.findings
  | style selectors body next =>
    selectors.flatMap selectorFindings ++ body.findings ++ next.findings
  | grouping _ body next => body.findings ++ next.findings
  | keyframes _ name _ next => .keyframes name :: next.findings

end RuleTree

/-! ## Headers of written rules -/

namespace Header

theorem ofFront_selectorList {selectors : List Text} {list gap : Text}
    (h : Joined selectors list) (hselectors : ∀ selector ∈ selectors, IsSelector selector)
    (hgap : ∀ c ∈ gap, Text.isBlank c) :
    ofFront (plainCells (list ++ gap)) = .selectors list := by
  obtain ⟨first, hfirst, rest, hlist⟩ := h.exists_first
  obtain ⟨last, hlast, front, hlist'⟩ := h.exists_last
  have hinline := h.isInline hselectors
  have hne : list ≠ [] := by
    rw [hlist]
    exact List.append_ne_nil_of_left_ne_nil (hselectors first hfirst).nonempty rest
  have hstarts : list.startsBlank = false := by
    rw [hlist]
    exact Text.startsBlank_append (hselectors first hfirst).nonempty
      (hselectors first hfirst).starts rest
  have hends : list.endsBlank = false := by
    rw [hlist']
    exact Text.endsBlank_append (hselectors last hlast).nonempty (hselectors last hlast).ends front
  have hhead : list.head? ≠ some '@' := by
    have hsome := List.head?_eq_some_head (hselectors first hfirst).nonempty
    rw [hlist, List.head?_append, hsome, Option.some_or, ← hsome]
    exact (hselectors first hfirst).notAtRule
  have hsemicolon : ';' ∉ list ++ gap := by
    intro hmem
    rcases List.mem_append.1 hmem with hmem | hmem
    · exact (hinline.flat ';' hmem).2.2 rfl
    · exact absurd (hgap ';' hmem) (by decide)
  rw [ofFront_plainCells hsemicolon (Text.startsBlank_append hne hstarts gap),
    firstWord_append_blanks list hgap, if_neg (mt head?_firstWord_iff.1 hhead)]
  have htrim := Text.trim_blanks_around (List.forall_mem_nil _) hgap hne hstarts hends
  rw [List.nil_append] at htrim
  rw [htrim]

theorem ofFront_groupingHeader {header gap : Text} (h : IsInline header)
    (hhead : header.head? = some '@') (hword : firstWord header ∉ keyframesWords)
    (hgap : ∀ c ∈ gap, Text.isBlank c) :
    ofFront (plainCells (header ++ gap)) = .grouping := by
  obtain ⟨rest, rfl⟩ := List.head?_eq_some_iff.1 hhead
  have hsemicolon : ';' ∉ '@' :: rest ++ gap := by
    intro hmem
    rcases List.mem_append.1 hmem with hmem | hmem
    · exact (h.flat ';' hmem).2.2 rfl
    · exact absurd (hgap ';' hmem) (by decide)
  have hfirst : (firstWord ('@' :: rest)).head? = some '@' := by
    unfold firstWord
    rw [List.takeWhile_cons_of_pos (by decide)]
    rfl
  rw [ofFront_plainCells hsemicolon (by rfl), firstWord_append_blanks _ hgap, if_pos hfirst,
    if_neg (by simpa using hword)]

theorem keyframesWords_spec : ∀ word ∈ keyframesWords,
    word.head? = some '@' ∧ ∀ c ∈ word, endsWord c = false ∧ c ∉ ruleChars := by
  decide

theorem keyframesName_blanks_around {space name gap : Text}
    (hspace : ∀ c ∈ space, Text.isBlank c) (hname : IsIdentifier name)
    (hgap : ∀ c ∈ gap, Text.isBlank c) : keyframesName (space ++ name ++ gap) = name := by
  have hquote : ∀ c ∈ name, (c == '"' || c == '\'') = false := by
    intro c hc
    have hdouble : c ≠ '"' := hname.ne_of_mem hc (by decide)
    have hsingle : c ≠ '\'' := hname.ne_of_mem hc (by decide)
    simp [hdouble, hsingle]
  unfold keyframesName
  rw [Text.trim_blanks_around hspace hgap hname.nonempty hname.starts hname.ends]
  simp only
  rw [Text.dropWhile_eq_self fun c hc => hquote c (List.mem_of_head? hc)]
  have hend := Text.dropEndWhile_append (List.forall_mem_nil _)
    fun c hc => hquote c (List.mem_of_getLast? hc)
  rw [List.append_nil] at hend
  exact hend

theorem ofFront_keyframesHeader {word space name gap : Text} (hword : word ∈ keyframesWords)
    (hspace : ∀ c ∈ space, Text.isBlank c) (hne : space ≠ []) (hname : IsIdentifier name)
    (hgap : ∀ c ∈ gap, Text.isBlank c) :
    ofFront (plainCells (word ++ space ++ name ++ gap)) = .keyframes name := by
  obtain ⟨hhead, hchars⟩ := keyframesWords_spec word hword
  have hstart : (word ++ space ++ name ++ gap).startsBlank = false := by
    obtain ⟨rest, rfl⟩ := List.head?_eq_some_iff.1 hhead
    rfl
  have hsemicolon : ';' ∉ word ++ space ++ name ++ gap := by
    simp only [List.mem_append, not_or]
    refine ⟨⟨⟨?_, ?_⟩, ?_⟩, ?_⟩
    · exact fun hmem => (hchars ';' hmem).2 (by decide)
    · exact fun hmem => absurd (hspace ';' hmem) (by decide)
    · exact fun hmem => hname.ne_of_mem hmem (by decide) rfl
    · exact fun hmem => absurd (hgap ';' hmem) (by decide)
  have hfirst : firstWord (word ++ space ++ name ++ gap) = word := by
    obtain ⟨c, rest, rfl⟩ := List.exists_cons_of_ne_nil hne
    have hc := endsWord_of_isBlank (hspace c (by simp))
    unfold firstWord
    rw [List.append_assoc, List.append_assoc, List.takeWhile_append_of_pos, List.cons_append,
      List.takeWhile_cons_of_neg (by simp [hc]), List.append_nil]
    intro d hd
    simp [(hchars d hd).1]
  have hdrop : (word ++ space ++ name ++ gap).drop word.length = space ++ name ++ gap := by
    rw [List.append_assoc, List.append_assoc, List.drop_left, List.append_assoc]
  rw [ofFront_plainCells hsemicolon hstart, hfirst, hdrop, if_pos hhead,
    if_pos (by simpa using hword), keyframesName_blanks_around hspace hname hgap]

end Header

theorem isInline_keyframesHeader {word space name : Text} (hword : word ∈ Header.keyframesWords)
    (hspace : ∀ c ∈ space, Text.isBlank c) (hname : IsIdentifier name) :
    IsInline (word ++ space ++ name) := by
  have hinert : ∀ c ∈ name, c ∉ ruleChars := by
    intro c hc hmem
    have hnone : ∀ d ∈ ruleChars, Selector.isNameChar d = false := by decide
    exact hname.ne_of_mem hc (hnone c hmem) rfl
  have hfull : IsInline (name ++ []) := .append_of_inert hinert .nil
  rw [List.append_nil] at hfull
  rw [List.append_assoc]
  apply IsInline.append_of_inert _ (.blanks_append hspace hfull)
  exact fun c hc => ((Header.keyframesWords_spec word hword).2 c hc).2

/-! ## What a written tree is read as -/

namespace Block

theorem findings_blanks_append {blanks : Text} (hblanks : ∀ c ∈ blanks, Text.isBlank c)
    (css : Text) :
    (ofCells (plainCells (blanks ++ css))).findings = (ofCells (plainCells css)).findings := by
  rw [plainCells_append, ofCells_braceless_append, findings_prepend]
  · apply Header.ofFront_blanks_append
    intro cell hcell
    obtain ⟨c, hc, rfl⟩ := mem_plainCells.1 hcell
    exact hblanks c hc
  · intro cell hcell
    obtain ⟨c, hc, rfl⟩ := mem_plainCells.1 hcell
    exact ⟨Text.ne_of_isBlank (hblanks c hc) (by decide),
      Text.ne_of_isBlank (hblanks c hc) (by decide)⟩

theorem findings_declaration {text : Text} (htext : IsInline text) (css : Text) :
    (ofCells (plainCells (text ++ ';' :: css))).findings =
      (ofCells (plainCells css)).findings := by
  have hsplit : text ++ ';' :: css = (text ++ [';']) ++ css := by simp
  rw [hsplit, plainCells_append, ofCells_braceless_append, findings_prepend]
  · intro rest
    rw [plainCells_append, List.append_assoc]
    exact Header.ofFront_append_semicolon _ rest rfl
  · intro cell hcell
    obtain ⟨c, hc, rfl⟩ := mem_plainCells.1 hcell
    rcases List.mem_append.1 hc with hc | hc
    · exact ⟨(htext.flat c hc).1, (htext.flat c hc).2.1⟩
    · rw [List.mem_singleton.1 hc]
      decide

theorem ofCells_headed {header inner : Text} (hheader : ∀ c ∈ header, c ≠ '{' ∧ c ≠ '}')
    (hinner : Balanced id inner) (css : Text) :
    ofCells (plainCells (header ++ ('{' :: inner ++ '}' :: css))) =
      rule (plainCells header) (ofCells (plainCells inner)) (ofCells (plainCells css)) := by
  rw [plainCells_append, ofCells_braceless_append, plainCells_append, plainCells_cons,
    plainCells_cons, ofCells_block rfl rfl (balanced_plainCells hinner), prepend_rule,
    List.append_nil]
  intro cell hcell
  obtain ⟨c, hc, rfl⟩ := mem_plainCells.1 hcell
  exact hheader c hc

end Block

theorem plain_headed {header inner css : Text} (hheader : Plain header) (hinner : Plain inner)
    (hcss : Plain css) : Plain (header ++ ('{' :: inner ++ '}' :: css)) := by
  have hclosed : Plain (inner ++ '}' :: css) :=
    hinner.append (.cons (by decide) hcss) (by simp)
  exact hheader.append (.cons (by decide) hclosed) (by simp)

theorem balanced_headed {header inner css : Text} (hheader : ∀ c ∈ header, c ≠ '{' ∧ c ≠ '}')
    (hinner : Balanced id inner) (hcss : Balanced id css) :
    Balanced id (header ++ ('{' :: inner ++ '}' :: css)) :=
  (Balanced.of_braceless hheader).append (.block rfl rfl hinner hcss)

theorem balanced_blanks_append {blanks css : Text} (hblanks : ∀ c ∈ blanks, Text.isBlank c)
    (hcss : Balanced id css) : Balanced id (blanks ++ css) := by
  refine Balanced.append (.of_braceless ?_) hcss
  intro c hc
  exact ⟨Text.ne_of_isBlank (hblanks c hc) (by decide),
    Text.ne_of_isBlank (hblanks c hc) (by decide)⟩

namespace RuleTree

/-- How the text of a tree is read: its cells are plain, its braces pair up, and its blocks hold
what the tree holds. -/
structure ReadAs (tree : RuleTree) (css : Text) : Prop where
  plain : Plain css
  balanced : Balanced id css
  findings : (Block.ofCells (plainCells css)).findings = tree.findings

theorem readAs_headed {tree next : RuleTree} {blanks header inner css : Text}
    (hblanks : ∀ c ∈ blanks, Text.isBlank c) (hheader : IsInline header) (hplain : Plain inner)
    (hbalanced : Balanced id inner) (hnext : next.ReadAs css)
    (hfindings : (Block.rule (plainCells header) (Block.ofCells (plainCells inner))
      (Block.ofCells (plainCells css))).findings = tree.findings) :
    tree.ReadAs (blanks ++ (header ++ ('{' :: inner ++ '}' :: css))) where
  plain := plain_blanks_append hblanks (plain_headed hheader.plain hplain hnext.plain)
  balanced := by
    apply balanced_blanks_append hblanks
    exact balanced_headed (fun c hc => ⟨(hheader.flat c hc).1, (hheader.flat c hc).2.1⟩)
      hbalanced hnext.balanced
  findings := by
    rw [Block.findings_blanks_append hblanks, Block.ofCells_headed _ hbalanced, hfindings]
    exact fun c hc => ⟨(hheader.flat c hc).1, (hheader.flat c hc).2.1⟩

theorem Written.readAs {tree : RuleTree} {css : Text} (h : tree.Written css)
    (hform : tree.WellFormed) : tree.ReadAs css := by
  -- Along the way the text was written: an item stands in front of a text that is read already,
  -- and the blocks of its body do not see what is around them.
  induction h with
  | @nil blanks hblanks =>
    rw [← List.append_nil blanks]
    exact ⟨plain_blanks_append hblanks .nil, balanced_blanks_append hblanks .nil,
      Block.findings_blanks_append hblanks []⟩
  | @declaration blanks text css next hblanks _ ih =>
    obtain ⟨htext, hnext⟩ := hform
    have hread := ih hnext
    refine ⟨plain_blanks_append hblanks ?_, balanced_blanks_append hblanks ?_, ?_⟩
    · exact htext.plain.append (.cons (by decide) hread.plain) (by simp)
    · have hflat : ∀ c ∈ text, c ≠ '{' ∧ c ≠ '}' :=
        fun c hc => ⟨(htext.flat c hc).1, (htext.flat c hc).2.1⟩
      exact (Balanced.of_braceless hflat).append (.other (by decide) (by decide) hread.balanced)
    · rw [Block.findings_blanks_append hblanks, Block.findings_declaration htext]
      exact hread.findings
  | @style blanks list gap inner css selectors body next hblanks hlist hgap _ _ ihbody ihnext =>
    obtain ⟨⟨-, hselectors⟩, hbody, hnext⟩ := hform
    have hreadBody := ihbody hbody
    have hreadNext := ihnext hnext
    apply readAs_headed hblanks ((hlist.isInline hselectors).append_blanks hgap) hreadBody.plain
      hreadBody.balanced hreadNext
    rw [Block.findings, Header.ofFront_selectorList hlist hselectors hgap]
    simp only
    rw [hlist.listFindings_eq hselectors, hreadBody.findings, hreadNext.findings]
    rfl
  | @grouping blanks header gap inner css body next hblanks hgap _ _ ihbody ihnext =>
    obtain ⟨⟨hheader, hhead, hword⟩, hbody, hnext⟩ := hform
    have hreadBody := ihbody hbody
    have hreadNext := ihnext hnext
    apply readAs_headed hblanks (hheader.append_blanks hgap) hreadBody.plain hreadBody.balanced
      hreadNext
    rw [Block.findings, Header.ofFront_groupingHeader hheader hhead hword hgap]
    simp only
    rw [hreadBody.findings, hreadNext.findings]
    rfl
  | @keyframes blanks word space name gap body css next hblanks hspace hne hgap _ ih =>
    obtain ⟨⟨hword, hname, hplain, hbalanced⟩, hnext⟩ := hform
    have hreadNext := ih hnext
    have hheader : IsInline (word ++ space ++ name ++ gap) :=
      (isInline_keyframesHeader hword hspace hname).append_blanks hgap
    apply readAs_headed hblanks hheader hplain hbalanced hreadNext
    rw [Block.findings, Header.ofFront_keyframesHeader hword hspace hne hname hgap]
    simp only
    rw [if_neg (by simpa using hname.nonempty), hreadNext.findings]
    rfl

theorem Written.parse_eq {tree : RuleTree} {css : Text} (h : tree.Written css)
    (hform : tree.WellFormed) :
    Stylesheet.parse css = .ok (.ofFindings tree.findings) := by
  have hread := h.readAs hform
  have hbraces := matchBraces_balanced (balanced_plainCells hread.balanced)
  rw [Stylesheet.parse_of_mask (mask_plain hread.plain), hbraces, hread.findings]
  rfl

/-! ## What a tree holds -/

/-- The report about a selector that has no reading. -/
def selectorFault? (selector : Text) : Option Fault :=
  match Selector.classes selector with
  | .ok _ => none
  | .error cause => some (.invalidSelector selector cause)

theorem className_mem_selectorFindings {selector name : Text} :
    .className name ∈ selectorFindings selector ↔
      ∃ names, Selector.classes selector = .ok names ∧ name ∈ names := by
  unfold selectorFindings
  cases Selector.classes selector with
  | ok names => simp
  | error cause => simp

theorem keyframes_not_mem_selectorFindings (selector name : Text) :
    .keyframes name ∉ selectorFindings selector := by
  unfold selectorFindings
  cases Selector.classes selector with
  | ok names => simp
  | error cause => simp

theorem className_mem_findings {tree : RuleTree} {name : Text} :
    .className name ∈ tree.findings ↔ ∃ selector ∈ tree.selectors,
      ∃ names, Selector.classes selector = .ok names ∧ name ∈ names := by
  induction tree with
  | nil => simp [findings, selectors]
  | declaration text next ih => exact ih
  | style list body next ihbody ihnext =>
    simp only [findings, selectors, List.mem_append, List.mem_flatMap, ihbody, ihnext,
      className_mem_selectorFindings, or_and_right, exists_or]
  | grouping header body next ihbody ihnext =>
    simp only [findings, selectors, List.mem_append, ihbody, ihnext, or_and_right, exists_or]
  | keyframes word other body next ih => simpa [findings, selectors] using ih

theorem keyframes_mem_findings {tree : RuleTree} {name : Text} :
    .keyframes name ∈ tree.findings ↔ name ∈ tree.keyframesNames := by
  induction tree with
  | nil => simp [findings, keyframesNames]
  | declaration text next ih => exact ih
  | style list body next ihbody ihnext =>
    simp only [findings, keyframesNames, List.mem_append, List.mem_flatMap, ihbody, ihnext,
      keyframes_not_mem_selectorFindings, and_false, exists_false, false_or]
  | grouping header body next ihbody ihnext =>
    simp only [findings, keyframesNames, List.mem_append, ihbody, ihnext]
  | keyframes word other body next ih => simp [findings, keyframesNames, ih]

theorem skipped_selectorFindings (selector : Text) :
    (Stylesheet.ofFindings (selectorFindings selector)).skipped =
      (selectorFault? selector).toList := by
  unfold selectorFindings selectorFault?
  cases Selector.classes selector with
  | ok names => simp [Stylesheet.ofFindings]
  | error cause => rfl

theorem skipped_flatMap_selectorFindings (list : List Text) :
    (Stylesheet.ofFindings (list.flatMap selectorFindings)).skipped =
      list.filterMap selectorFault? := by
  induction list with
  | nil => rfl
  | cons selector list ih =>
    rw [List.flatMap_cons, Stylesheet.skipped_ofFindings_append, skipped_selectorFindings, ih,
      List.filterMap_cons]
    cases selectorFault? selector <;> rfl

theorem skipped_findings (tree : RuleTree) :
    (Stylesheet.ofFindings tree.findings).skipped = tree.selectors.filterMap selectorFault? := by
  induction tree with
  | nil => rfl
  | declaration text next ih => exact ih
  | style list body next ihbody ihnext =>
    rw [findings, selectors, Stylesheet.skipped_ofFindings_append,
      Stylesheet.skipped_ofFindings_append, skipped_flatMap_selectorFindings, ihbody, ihnext,
      List.filterMap_append, List.filterMap_append]
  | grouping header body next ihbody ihnext =>
    rw [findings, selectors, Stylesheet.skipped_ofFindings_append, ihbody, ihnext,
      List.filterMap_append]
  | keyframes word name body next ih => exact ih

/-- Every text that writes a tree is read, whatever the depth of the tree and the blanks between
its items: the classes are those of its readable selectors, the keyframes are its keyframes, and
the selectors without a reading are reported in order. -/
theorem parse_of_written {tree : RuleTree} {css : Text} (hform : tree.WellFormed)
    (h : tree.Written css) :
    ∃ sheet, Stylesheet.parse css = .ok sheet ∧
      (∀ name, name ∈ sheet.classes ↔ ∃ selector ∈ tree.selectors,
        ∃ names, Selector.classes selector = .ok names ∧ name ∈ names) ∧
      (∀ name, name ∈ sheet.keyframes ↔ name ∈ tree.keyframesNames) ∧
      sheet.skipped = tree.selectors.filterMap selectorFault? := by
  refine ⟨.ofFindings tree.findings, h.parse_eq hform, ?_, ?_, skipped_findings tree⟩
  · intro name
    rw [Stylesheet.mem_classes_ofFindings, className_mem_findings]
  · intro name
    rw [Stylesheet.mem_keyframes_ofFindings, keyframes_mem_findings]

/-- A style rule in a grouping rule, with a rule nested in it, and keyframes. -/
def nestedSample : RuleTree :=
  .grouping "@media (p)".toList
    (.style [".a:is(.b,.c)".toList, ".1".toList]
      (.declaration "top: 0".toList (.style ["&.d".toList] .nil .nil)) .nil)
    (.keyframes "@keyframes".toList "spin".toList ['t', 'o', '{', '}'] .nil)

/-- A text of `nestedSample`. -/
def nestedSampleText : Text :=
  ("@media (p) \x7b.a:is(.b,.c) , .1\x7btop: 0; &.d\x7b\x7d\x7d\x7d" ++
    "@keyframes spin\x7bto\x7b\x7d\x7d").toList

theorem wellFormed_nestedSample : nestedSample.WellFormed := by
  have hblock : Balanced id ('{' :: [] ++ '}' :: []) := .block rfl rfl .nil .nil
  have hbody : Balanced id ['t', 'o', '{', '}'] :=
    .other (by decide) (by decide) (.other (by decide) (by decide) hblock)
  refine ⟨?_, ⟨?_, ⟨?_, ?_, trivial, trivial⟩, trivial⟩, ⟨?_, ?_, ?_, hbody⟩, trivial⟩
  all_goals decide

theorem written_nestedSample : nestedSample.Written nestedSampleText := by
  have htext : nestedSampleText = [] ++ ("@media (p)".toList ++ [' '] ++ ('{' ::
      ([] ++ ((".a:is(.b,.c)".toList ++ [' '] ++ ',' :: ([' '] ++ ".1".toList)) ++ [] ++ ('{' ::
        ([] ++ ("top: 0".toList ++ ';' :: ([' '] ++ ("&.d".toList ++ [] ++ ('{' :: [] ++ '}' ::
          []))))) ++ '}' :: []))) ++ '}' ::
      ([] ++ ("@keyframes".toList ++ [' '] ++ "spin".toList ++ [] ++
        ('{' :: ['t', 'o', '{', '}'] ++ '}' :: []))))) := by decide
  rw [htext]
  have hnil : Written .nil [] := .nil (by decide)
  refine .grouping ?_ ?_
    (.style ?_ (.cons ?_ ?_ (.single _)) ?_
      (.declaration ?_ (.style ?_ (.single _) ?_ hnil hnil)) hnil)
    (.keyframes ?_ ?_ ?_ ?_ hnil)
  all_goals decide

theorem parse_nestedSample :
    nestedSample.WellFormed ∧ nestedSample.Written nestedSampleText ∧
      ∃ sheet, Stylesheet.parse nestedSampleText = .ok sheet ∧
        "d".toList ∈ sheet.classes ∧ "spin".toList ∈ sheet.keyframes ∧
        sheet.skipped = [.invalidSelector ".1".toList .badName] := by
  obtain ⟨sheet, hparse, hclasses, hkeyframes, hskipped⟩ :=
    parse_of_written wellFormed_nestedSample written_nestedSample
  refine ⟨wellFormed_nestedSample, written_nestedSample, sheet, hparse, ?_, ?_, ?_⟩
  · rw [hclasses]
    exact ⟨"&.d".toList, by decide, ["d".toList], by decide +kernel, by decide⟩
  · rw [hkeyframes]
    decide
  · rw [hskipped]
    decide +kernel

end RuleTree

end ClassAudit.Css
