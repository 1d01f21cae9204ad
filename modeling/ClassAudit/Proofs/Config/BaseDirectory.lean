import ClassAudit.Config.Basic
import ClassAudit.Pattern.Parser
/-!
# Where a base directory leads

A written path is followed from a directory, piece by piece: a name goes down,
one dot stays, two dots go up and stay at the root of the file system, and a
slash in front starts over there.  No file is looked at.

The base directory of a configuration is where its text leads from the project,
and options are refused exactly when that is not at or below the project.  For a
path that is not absolute, two dots stay in front when nothing is left to leave;
evaluating what evaluation gives changes nothing.
-/

namespace ClassAudit

namespace Path

/-- The texts between the slashes of a written path. -/
def pieces (text : Text) : List Text :=
  (text.splitOn '/').filter fun piece => !piece.isEmpty

/-- One step from a directory, which is given by its names. -/
def enter (names : List Text) (piece : Text) : List Text :=
  if piece = ['.'] then names
  else if piece = ['.', '.'] then names.dropLast
  else names ++ [piece]

/-- Where a written path leads from a directory. -/
def follow (names : List Text) (text : Text) : List Text :=
  (pieces text).foldl enter (if text.head? = some '/' then [] else names)

/-- The absolute path of a directory. -/
def ofNames (names : List Text) : Path :=
  ⟨true, names.map .name⟩

/-- A name that stands for an entry of a directory. -/
structure IsOrdinary (name : Text) : Prop where
  nonempty : name ≠ []
  noSlash : '/' ∉ name
  notCurrent : name ≠ ['.']
  notParent : name ≠ ['.', '.']

instance (name : Text) : Decidable (IsOrdinary name) :=
  decidable_of_iff (name ≠ [] ∧ '/' ∉ name ∧ name ≠ ['.'] ∧ name ≠ ['.', '.'])
    ⟨fun ⟨h₁, h₂, h₃, h₄⟩ => ⟨h₁, h₂, h₃, h₄⟩,
      fun h => ⟨h.nonempty, h.noSlash, h.notCurrent, h.notParent⟩⟩

/-! ## The stack of parts and the names of a directory -/

/-- The stack of an absolute path that leads to a directory. -/
def stackOf (names : List Text) : List PathPart :=
  (names.map .name).reverse

theorem pushPart_stackOf (names : List Text) (piece : Text) :
    pushPart true (stackOf names) (.ofText piece) = stackOf (enter names piece) := by
  unfold PathPart.ofText enter
  by_cases hcurrent : piece = ['.']
  · rw [if_pos hcurrent, if_pos hcurrent]
    rfl
  rw [if_neg hcurrent, if_neg hcurrent]
  by_cases hparent : piece = ['.', '.']
  · rw [if_pos hparent, if_pos hparent]
    rcases List.eq_nil_or_concat names with rfl | ⟨above, last, rfl⟩
    · rfl
    · simp [stackOf, pushPart]
  · rw [if_neg hparent, if_neg hparent]
    simp [stackOf, pushPart]

theorem foldl_pushPart_pieces (pieces names : List Text) :
    (pieces.map PathPart.ofText).foldl (pushPart true) (stackOf names) =
      stackOf (pieces.foldl enter names) := by
  induction pieces generalizing names with
  | nil => rfl
  | cons piece pieces ih =>
    rw [List.map_cons, List.foldl_cons, pushPart_stackOf, ih, List.foldl_cons]

theorem foldl_pushPart_filter (absolute : Bool) (parts stack : List PathPart) :
    (parts.filter fun part => part != .current).foldl (pushPart absolute) stack =
      parts.foldl (pushPart absolute) stack := by
  induction parts generalizing stack with
  | nil => rfl
  | cons part parts ih =>
    cases part with
    | current => exact ih stack
    | parent => exact ih _
    | name text => exact ih _

/-- Dots that are left out of a written path would change nothing. -/
theorem foldl_pushPart_ofText (text : Text) (names : List Text) :
    (ofText text).parts.foldl (pushPart true) (stackOf names) =
      stackOf ((pieces text).foldl enter names) := by
  rw [← foldl_pushPart_pieces]
  unfold ofText pieces
  by_cases hslash : text.head? = some '/'
  · simp only [if_pos hslash]
    exact foldl_pushPart_filter true _ _
  · simp only [if_neg hslash]
    rw [List.foldl_append, foldl_pushPart_filter, ← List.foldl_append, List.take_append_drop]

theorem foldl_pushPart_names (absolute : Bool) (names : List Text) (stack : List PathPart) :
    (names.map PathPart.name).foldl (pushPart absolute) stack = stackOf names ++ stack := by
  induction names generalizing stack with
  | nil => rfl
  | cons name names ih =>
    rw [List.map_cons, List.foldl_cons, ih]
    simp [stackOf, pushPart]

/-! ## Following a written path -/

theorem absolute_ofText (text : Text) :
    (ofText text).absolute = decide (text.head? = some '/') := by
  unfold ofText
  by_cases hslash : text.head? = some '/'
  · simp [hslash]
  · simp [hslash]

theorem normalize_ofText {text : Text} (h : text.head? = some '/') (names : List Text) :
    (ofText text).normalize = ofNames (follow names text) := by
  have habsolute : (ofText text).absolute = true := by simp [absolute_ofText, h]
  have hstack := foldl_pushPart_ofText text []
  unfold normalize follow ofNames
  rw [habsolute, if_pos h]
  exact congrArg (Path.mk true) ((congrArg List.reverse hstack).trans (List.reverse_reverse _))

theorem normalize_join_ofText (names : List Text) (text : Text) :
    ((ofNames names).join (ofText text)).normalize = ofNames (follow names text) := by
  by_cases hslash : text.head? = some '/'
  · have habsolute : (ofText text).absolute = true := by simp [absolute_ofText, hslash]
    unfold join
    rw [if_pos habsolute]
    exact normalize_ofText hslash names
  · have hrelative : (ofText text).absolute = false := by simp [absolute_ofText, hslash]
    have hbase : ofNames names ≠ ⟨false, []⟩ := by simp [ofNames]
    have hjoin : (ofNames names).join (ofText text) =
        ⟨true, names.map .name ++ (ofText text).parts.filter fun part => part != .current⟩ := by
      unfold join
      rw [if_neg (by simp [hrelative]), if_neg hbase]
      rfl
    have hstack : (names.map PathPart.name ++
        (ofText text).parts.filter fun part => part != .current).foldl (pushPart true) [] =
          stackOf (follow names text) := by
      rw [List.foldl_append, foldl_pushPart_names, List.append_nil, foldl_pushPart_filter,
        foldl_pushPart_ofText]
      unfold follow
      rw [if_neg hslash]
    rw [hjoin]
    exact congrArg (Path.mk true) ((congrArg List.reverse hstack).trans (List.reverse_reverse _))

theorem isOrdinary_of_mem_enter {names : List Text} {piece : Text} (hne : piece ≠ [])
    (hslash : '/' ∉ piece) (h : ∀ name ∈ names, IsOrdinary name) :
    ∀ name ∈ enter names piece, IsOrdinary name := by
  intro name hname
  unfold enter at hname
  split at hname
  · exact h name hname
  · rename_i hcurrent
    split at hname
    · exact h name (List.dropLast_subset _ hname)
    · rename_i hparent
      rcases List.mem_append.1 hname with hname | hname
      · exact h name hname
      · rw [List.mem_singleton.1 hname]
        exact ⟨hne, hslash, hcurrent, hparent⟩

theorem slash_not_mem_of_mem_splitOn {text piece : Text} (h : piece ∈ text.splitOn '/') :
    '/' ∉ piece := by
  unfold List.splitOn at h
  induction text generalizing piece with
  | nil =>
    rw [List.splitOnP_nil, List.mem_singleton] at h
    simp [h]
  | cons c text ih =>
    rw [List.splitOnP_cons_eq_if_modifyHead] at h
    split at h
    · rcases List.mem_cons.1 h with rfl | h
      · simp
      · exact ih h
    · rename_i hc
      obtain ⟨first, rest, hsplit⟩ := List.exists_cons_of_ne_nil
        (List.splitOnP_ne_nil (fun d => d == '/') text)
      rw [hsplit] at h ih
      rcases List.mem_cons.1 h with rfl | h
      · have hfirst : '/' ∉ first := ih (by simp)
        have hne : '/' ≠ c := fun heq => hc (by simp [← heq])
        simp [hfirst, hne]
      · exact ih (by simp [h])

theorem isOrdinary_of_mem_follow {names : List Text} (text : Text)
    (h : ∀ name ∈ names, IsOrdinary name) : ∀ name ∈ follow names text, IsOrdinary name := by
  have hpieces : ∀ piece ∈ pieces text, piece ≠ [] ∧ '/' ∉ piece := by
    intro piece hpiece
    obtain ⟨hmem, hne⟩ := List.mem_filter.1 hpiece
    exact ⟨by simpa using hne, slash_not_mem_of_mem_splitOn hmem⟩
  have hstart : ∀ name ∈ (if text.head? = some '/' then [] else names), IsOrdinary name := by
    split
    · simp
    · exact h
  unfold follow
  generalize (if text.head? = some '/' then [] else names) = start at hstart
  generalize pieces text = list at hpieces
  induction list generalizing start with
  | nil => exact hstart
  | cons piece list ih =>
    rw [List.foldl_cons]
    obtain ⟨hne, hslash⟩ := hpieces piece (by simp)
    apply ih _ (isOrdinary_of_mem_enter hne hslash hstart)
    exact fun other hother => hpieces other (by simp [hother])

theorem isWithin_ofNames (names directory : List Text) :
    (ofNames names).isWithin (ofNames directory) = decide (directory <+: names) := by
  have hinjective : Function.Injective PathPart.name := fun _ _ h => PathPart.name.inj h
  have hnames : directory.map PathPart.name <+: names.map PathPart.name ↔ directory <+: names :=
    List.prefix_map_iff_of_injective hinjective
  unfold isWithin below? ofNames
  by_cases h : directory <+: names
  · simp [hnames, h]
  · simp [hnames, h]

/-! ## Evaluating twice -/

/-- What evaluation leaves on its stack: names, and in a relative path two dots below them. -/
inductive Settled : Bool → List PathPart → Prop where
  | absolute (names : List Text) : Settled true (stackOf names)
  | relative (names : List Text) (ups : Nat) :
      Settled false (stackOf names ++ List.replicate ups .parent)

theorem stackOf_concat (names : List Text) (name : Text) :
    stackOf (names ++ [name]) = .name name :: stackOf names := by
  simp [stackOf]

theorem Settled.pushPart {absolute : Bool} {stack : List PathPart} (h : Settled absolute stack)
    (part : PathPart) : Settled absolute (Path.pushPart absolute stack part) := by
  cases part with
  | current => exact h
  | name text =>
    cases h with
    | absolute names =>
      have hpushed := Settled.absolute (names ++ [text])
      rwa [stackOf_concat] at hpushed
    | relative names ups =>
      have hpushed := Settled.relative (names ++ [text]) ups
      rwa [stackOf_concat] at hpushed
  | parent =>
    cases h with
    | absolute names =>
      rcases List.eq_nil_or_concat names with rfl | ⟨above, last, rfl⟩
      · exact .absolute []
      · rw [List.concat_eq_append, stackOf_concat]
        exact .absolute above
    | relative names ups =>
      rcases List.eq_nil_or_concat names with rfl | ⟨above, last, rfl⟩
      · cases ups with
        | zero => exact .relative [] 1
        | succ ups => exact .relative [] (ups + 2)
      · rw [List.concat_eq_append, stackOf_concat]
        exact .relative above ups

theorem settled_foldl_pushPart {absolute : Bool} (parts : List PathPart) {stack : List PathPart}
    (h : Settled absolute stack) :
    Settled absolute (parts.foldl (Path.pushPart absolute) stack) := by
  induction parts generalizing stack with
  | nil => exact h
  | cons part parts ih => exact ih (h.pushPart part)

theorem settled_nil (absolute : Bool) : Settled absolute [] := by
  cases absolute with
  | true => exact .absolute []
  | false => exact .relative [] 0

theorem foldl_pushPart_ups (ups : Nat) :
    (List.replicate ups PathPart.parent).foldl (Path.pushPart false) [] =
      List.replicate ups .parent := by
  induction ups with
  | zero => rfl
  | succ ups ih =>
    rw [List.replicate_succ', List.foldl_append, ih, ← List.replicate_succ']
    cases ups with
    | zero => rfl
    | succ ups => rfl

theorem Settled.foldl_reverse {absolute : Bool} {stack : List PathPart}
    (h : Settled absolute stack) :
    stack.reverse.foldl (Path.pushPart absolute) [] = stack := by
  cases h with
  | absolute names =>
    rw [stackOf, List.reverse_reverse, foldl_pushPart_names, List.append_nil, stackOf]
  | relative names ups =>
    rw [List.reverse_append, List.reverse_replicate, List.foldl_append, foldl_pushPart_ups,
      stackOf, List.reverse_reverse, foldl_pushPart_names, stackOf]

theorem normalize_normalize (path : Path) : path.normalize.normalize = path.normalize := by
  have hsettled := settled_foldl_pushPart path.parts (settled_nil path.absolute)
  unfold normalize
  simp only
  rw [hsettled.foldl_reverse]

end Path

/-! ## Options bound to a project -/

namespace Config

open ClassAudit.Path

variable {read? : PatternReader}

theorem locateBase_ofNames (names : List Text) {baseDir : Option Text}
    (h : ∀ text ∈ baseDir, '\x00' ∉ text) :
    locateBase (ofNames names) baseDir =
      if names <+: follow names (baseDir.getD []) then
        .ok (ofNames (follow names (baseDir.getD [])))
      else .error (.outsideProject (ofNames (follow names (baseDir.getD [])))) := by
  cases baseDir with
  | none =>
    have hstay : follow names [] = names := rfl
    simp [locateBase, hstay]
  | some text =>
    have htext : '\x00' ∉ text := h text rfl
    unfold locateBase
    simp only [List.contains_iff_mem, if_neg htext, normalize_join_ofText, isWithin_ofNames,
      decide_eq_true_eq, Option.getD_some]

theorem locateBase_eq_nullByte_iff (root : Path) (baseDir : Option Text) :
    locateBase root baseDir = .error .nullByte ↔ ∃ text ∈ baseDir, '\x00' ∈ text := by
  cases baseDir with
  | none => simp [locateBase]
  | some text =>
    by_cases htext : '\x00' ∈ text
    · simp [locateBase, htext]
    · have hsome : ¬∃ other ∈ some text, '\x00' ∈ other := by simpa using htext
      unfold locateBase
      simp only [List.contains_iff_mem, if_neg htext, hsome, iff_false]
      intro hnull
      split at hnull
      · cases hnull
      · cases hnull

theorem ofOptions_eq_error_iff {workingDir root : Path} {options : Options}
    {cause : ConfigError} :
    ofOptions read? workingDir options root = .error cause ↔
      locateBase (resolveRoot workingDir root) options.baseDir = .error cause := by
  unfold ofOptions
  simp only [bind, Except.bind]
  cases locateBase (resolveRoot workingDir root) options.baseDir with
  | error other => simp
  | ok baseDir => simp [pure, Except.pure]

theorem exists_ofOptions_of_locateBase {workingDir root baseDir : Path} {options : Options}
    (h : locateBase (resolveRoot workingDir root) options.baseDir = .ok baseDir) :
    ∃ config, ofOptions read? workingDir options root = .ok config ∧ config.baseDir = baseDir := by
  unfold ofOptions
  simp only [bind, Except.bind, h]
  exact ⟨_, rfl, rfl⟩

theorem resolveRoot_ofText (workingDir : Path) {root : Text} (h : root.head? = some '/') :
    resolveRoot workingDir (.ofText root) = ofNames (follow [] root) := by
  have habsolute : (Path.ofText root).absolute = true := by simp [absolute_ofText, h]
  unfold resolveRoot join
  rw [if_pos habsolute]
  exact normalize_ofText h []

/-- The base directory is where its text leads from the project.  A null byte is refused first;
otherwise the options are accepted exactly if the base directory is at or below the project, and
then nothing but ordinary names leads from the project to it.  Evaluation is final on all paths. -/
theorem ofOptions_accepts_iff_within (read? : PatternReader) (workingDir : Path)
    (options : Options) (root : Text) (hroot : root.head? = some '/') :
    let project := follow [] root
    let base := follow project (options.baseDir.getD [])
    let result := ofOptions read? workingDir options (.ofText root)
    (result = .error .nullByte ↔ ∃ text ∈ options.baseDir, '\x00' ∈ text) ∧
      ((∀ text ∈ options.baseDir, '\x00' ∉ text) →
        ((∃ config, result = .ok config) ↔ project <+: base) ∧
        (∀ config, result = .ok config → config.baseDir = ofNames base ∧
          ∃ below, base = project ++ below ∧ ∀ name ∈ below, IsOrdinary name) ∧
        (¬project <+: base → result = .error (.outsideProject (ofNames base)))) ∧
      ∀ path : Path, path.normalize.normalize = path.normalize := by
  intro project base result
  have hproject : resolveRoot workingDir (.ofText root) = ofNames project :=
    resolveRoot_ofText workingDir hroot
  have hordinary : ∀ name ∈ base, IsOrdinary name :=
    isOrdinary_of_mem_follow _ (isOrdinary_of_mem_follow root (List.forall_mem_nil _))
  refine ⟨?_, fun hnull => ?_, normalize_normalize⟩
  · exact ofOptions_eq_error_iff.trans (locateBase_eq_nullByte_iff _ options.baseDir)
  have hlocated : locateBase (resolveRoot workingDir (.ofText root)) options.baseDir =
      if project <+: base then .ok (ofNames base) else .error (.outsideProject (ofNames base)) := by
    rw [hproject]
    exact locateBase_ofNames project hnull
  by_cases hwithin : project <+: base
  · rw [if_pos hwithin] at hlocated
    obtain ⟨config, hconfig, hbase⟩ := exists_ofOptions_of_locateBase hlocated
    refine ⟨iff_of_true ⟨config, hconfig⟩ hwithin, ?_, fun houtside => absurd hwithin houtside⟩
    intro found hfound
    obtain rfl : config = found := Except.ok.inj (hconfig.symm.trans hfound)
    obtain ⟨below, hbelow⟩ := hwithin
    refine ⟨hbase, below, hbelow.symm, fun name hname => hordinary name ?_⟩
    rw [← hbelow]
    exact List.mem_append_right project hname
  · rw [if_neg hwithin] at hlocated
    have herror : result = .error (.outsideProject (ofNames base)) :=
      ofOptions_eq_error_iff.2 hlocated
    have hrefused : ∀ config, result ≠ .ok config := by
      intro config hconfig
      rw [herror] at hconfig
      cases hconfig
    refine ⟨iff_of_false ?_ hwithin, ?_, fun _ => herror⟩
    · exact fun ⟨config, hconfig⟩ => hrefused config hconfig
    · exact fun config hconfig => absurd hconfig (hrefused config)

/-- A base directory that leaves the project and comes back to it. -/
def reentrantOptions : Options :=
  { baseDir := some "../project/css/./x/../y".toList }

theorem ofOptions_accepts_reentry :
    "/work/app/../project".toList.head? = some '/' ∧
      ∃ config, ofOptions Pattern.finder? ⟨true, []⟩ reentrantOptions
        (.ofText "/work/app/../project".toList) = .ok config ∧
          config.baseDir = ofNames (Text.table ["work", "project", "css", "y"]) := by
  have hroot : "/work/app/../project".toList.head? = some '/' := by decide
  obtain ⟨-, hrest, -⟩ :=
    ofOptions_accepts_iff_within Pattern.finder? ⟨true, []⟩ reentrantOptions _ hroot
  obtain ⟨haccepts, hbase, -⟩ := hrest (by decide)
  have hnames : follow (follow [] "/work/app/../project".toList)
      (reentrantOptions.baseDir.getD []) = Text.table ["work", "project", "css", "y"] := by decide
  obtain ⟨config, hconfig⟩ := haccepts.2 (by rw [hnames]; decide)
  refine ⟨hroot, config, hconfig, ?_⟩
  rw [(hbase config hconfig).1, hnames]

-- A sibling whose name starts like that of the project is outside.
example : locateBase (ofNames (Text.table ["work", "project"])) (some "../project-old".toList) =
    .error (.outsideProject (ofNames (Text.table ["work", "project-old"]))) := by rfl

end Config

end ClassAudit
