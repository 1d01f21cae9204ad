import ClassAudit.Project.Glob
/-!
# Reading a glob that ends in a double star

A glob is read chunk by chunk.  No chunk ends inside a final double star, and the
slash before it is the last character read by then, so the double star becomes
the last part of the glob.  Only a glob of nothing but double stars is another
part: it stands for any path.
-/

namespace ClassAudit.Glob

/-- The parts of a glob that ends in a double star below a directory, or is a double star alone. -/
def CoversDirectories (parts : List Part) : Prop :=
  parts = [.leadingDirs] ∨ ∃ front, parts = front ++ [.allBelow]

/-! ## One step of the reader -/

/-- A stack of parts on which leading directories are at the bottom. -/
def LeadsAlone (stack : List Part) : Prop :=
  ∀ below, stack = .leadingDirs :: below → below = []

theorem leadsAlone_nil : LeadsAlone [] := by
  intro below h
  cases h

theorem leadsAlone_cons {part : Part} (stack : List Part) (h : part ≠ .leadingDirs) :
    LeadsAlone (part :: stack) := by
  intro below hstack
  exact absurd (List.cons.inj hstack).1 h

/-- All branches that are being read start with leading directories at most. -/
structure Reader.WellStacked (reader : Reader) : Prop where
  current : LeadsAlone reader.current
  outer : ∀ saved ∈ reader.outer, LeadsAlone saved.1

theorem readSet?_eq_some {set : SetReader} {text later : Text} {part : Part}
    (h : readSet? set text = some (part, later)) :
    part ≠ .leadingDirs ∧ ∃ front, text = front ++ ']' :: later := by
  induction text generalizing set with
  | nil => cases h
  | cons c rest ih =>
    unfold readSet? at h
    split at h
    · rename_i hclose
      obtain ⟨rfl, rfl⟩ := Prod.mk.inj (Option.some.inj h)
      exact ⟨by simp [SetReader.part], [], by rw [hclose.1]; rfl⟩
    · split at h
      · obtain ⟨hpart, front, rfl⟩ := ih h
        exact ⟨hpart, c :: front, rfl⟩
      · obtain ⟨next, -, hread⟩ := Option.bind_eq_some_iff.1 h
        obtain ⟨hpart, front, rfl⟩ := ih hread
        exact ⟨hpart, c :: front, rfl⟩

theorem openSet?_eq_some {text later : Text} {part : Part}
    (h : openSet? text = some (part, later)) :
    part ≠ .leadingDirs ∧ ∃ front, text = front ++ ']' :: later := by
  unfold openSet? at h
  split at h
  · obtain ⟨hpart, front, rfl⟩ := readSet?_eq_some h
    exact ⟨hpart, '!' :: front, rfl⟩
  · obtain ⟨hpart, front, rfl⟩ := readSet?_eq_some h
    exact ⟨hpart, '^' :: front, rfl⟩
  · exact readSet?_eq_some h

/-- What one step reads: a character, an escape, a double star with or without its slash, or a
set of characters. -/
inductive Chunk : Text → Prop
  | single (c : Char) : Chunk [c]
  | escape (c : Char) : Chunk ['\\', c]
  | stars : Chunk ['*', '*']
  | directories : Chunk ['*', '*', '/']
  | set (front : Text) : Chunk (front ++ [']'])

/-- A step reads a chunk, remembers its last character, and adds a part unless the chunk is a
single character. -/
structure Reader.Reads (next : Reader) (read : Text) : Prop where
  chunk : Chunk read
  previous : next.previous = read.getLast?
  current : 1 < read.length → next.current ≠ []
  stacked : next.WellStacked

theorem Reader.WellStacked.add {reader : Reader} {part : Part} (h : reader.WellStacked)
    (hpart : part ≠ .leadingDirs) (c : Char) : ((reader.add part).after c).WellStacked :=
  ⟨leadsAlone_cons reader.current hpart, h.outer⟩

theorem Reader.WellStacked.closeBraces {reader closed : Reader} (h : reader.WellStacked)
    (hclosed : reader.closeBraces? = some closed) (c : Char) : (closed.after c).WellStacked := by
  unfold Reader.closeBraces? at hclosed
  split at hclosed
  · cases hclosed
  · rename_i current branches outer houter
    obtain rfl := Option.some.inj hclosed
    refine ⟨leadsAlone_cons _ (by simp), fun saved hsaved => h.outer saved ?_⟩
    rw [houter]
    exact List.mem_cons_of_mem _ hsaved

theorem Reader.WellStacked.comma {reader : Reader} (h : reader.WellStacked) (c : Char) :
    (reader.comma.after c).WellStacked := by
  unfold Reader.comma
  split
  · exact ⟨leadsAlone_nil, h.outer⟩
  · exact h.add (by simp) c

theorem Reader.WellStacked.spanDirs {reader : Reader} {part : Part} (h : reader.WellStacked)
    (hpart : part ≠ .leadingDirs) : (reader.spanDirs part).WellStacked := by
  unfold Reader.spanDirs
  split
  · exact h
  · exact h
  · exact ⟨leadsAlone_cons _ hpart, h.outer⟩
  · exact h

theorem Reader.spanDirs_ne_nil {reader : Reader} (part : Part) (h : reader.current ≠ []) :
    (reader.spanDirs part).current ≠ [] := by
  unfold Reader.spanDirs
  split
  · exact h
  · exact h
  · exact List.cons_ne_nil _ _
  · exact h

theorem Reader.spanDirs_previous (reader : Reader) (part : Part) :
    (reader.spanDirs part).previous = reader.previous := by
  unfold Reader.spanDirs
  split <;> rfl

theorem reads_doubleStar {reader : Reader} (h : reader.WellStacked) (text : Text) :
    ∃ read, '*' :: '*' :: text = read ++ (reader.doubleStar text).2 ∧
      (reader.doubleStar text).1.Reads read := by
  have htwo : ((reader.after '*').twoStars).Reads ['*', '*'] :=
    ⟨.stars, rfl, fun _ => List.cons_ne_nil _ _,
      ⟨leadsAlone_cons _ (by simp), h.outer⟩⟩
  have hspan : ∀ (c : Char) (read : Text) (part : Part), part ≠ .leadingDirs →
      reader.current ≠ [] → Chunk read → read.getLast? = some c →
      ((reader.after c).spanDirs part).Reads read := by
    intro c read part hpart hcurrent hchunk hlast
    refine ⟨hchunk, ?_, fun _ => Reader.spanDirs_ne_nil part hcurrent, ?_⟩
    · rw [Reader.spanDirs_previous, hlast]
      rfl
    · exact Reader.WellStacked.spanDirs ⟨h.current, h.outer⟩ hpart
  have hlead : ∀ (c : Char) (read : Text), reader.current = [] → Chunk read →
      read.getLast? = some c → ((reader.after c).add .leadingDirs).Reads read := by
    intro c read hcurrent hchunk hlast
    refine ⟨hchunk, hlast.symm, fun _ => List.cons_ne_nil _ _, ?_, h.outer⟩
    intro below hstack
    rw [← (List.cons.inj hstack).2]
    exact hcurrent
  unfold Reader.doubleStar
  split
  · rename_i hempty
    have hcurrent := List.isEmpty_iff.1 hempty
    split
    · exact ⟨['*', '*'], rfl, hlead '*' _ hcurrent .stars rfl⟩
    · exact ⟨['*', '*', '/'], rfl, hlead '/' _ hcurrent .directories rfl⟩
    · exact ⟨['*', '*'], rfl, htwo⟩
  · rename_i hempty
    have hcurrent : reader.current ≠ [] := by simpa using hempty
    split
    · split
      · exact ⟨['*', '*'], rfl, hspan '*' _ _ (by simp) hcurrent .stars rfl⟩
      · exact ⟨['*', '*', '/'], rfl, hspan '/' _ _ (by simp) hcurrent .directories rfl⟩
      · split
        · exact ⟨['*', '*'], rfl, hspan '*' _ _ (by simp) hcurrent .stars rfl⟩
        · exact ⟨['*', '*'], rfl, htwo⟩
    · exact ⟨['*', '*'], rfl, htwo⟩

theorem reads_single {next : Reader} (c : Char) (hprevious : next.previous = some c)
    (hstacked : next.WellStacked) : next.Reads [c] :=
  ⟨.single c, hprevious, fun h => absurd h (by simp), hstacked⟩

theorem reads_readPart? {reader next : Reader} {c : Char} {rest later : Text}
    (hreader : reader.WellStacked) (h : readPart? reader c rest = some (next, later)) :
    ∃ read, c :: rest = read ++ later ∧ next.Reads read := by
  unfold readPart? at h
  split at h
  · obtain ⟨rfl, rfl⟩ := Prod.mk.inj (Option.some.inj h)
    exact ⟨_, rfl, reads_single '?' rfl (hreader.add (by simp) _)⟩
  · obtain ⟨read, hread, hreads⟩ := reads_doubleStar hreader ‹_›
    rw [Option.some.inj h] at hread hreads
    exact ⟨read, hread, hreads⟩
  · obtain ⟨rfl, rfl⟩ := Prod.mk.inj (Option.some.inj h)
    exact ⟨_, rfl, reads_single '*' rfl (hreader.add (by simp) _)⟩
  · obtain ⟨⟨part, tail⟩, hset, hparts⟩ := Option.map_eq_some_iff.1 h
    obtain ⟨rfl, rfl⟩ := Prod.mk.inj hparts
    obtain ⟨hpart, front, rfl⟩ := openSet?_eq_some hset
    exact ⟨'[' :: front ++ [']'], by simp, .set _, List.getLast?_concat.symm,
      fun _ => List.cons_ne_nil _ _, hreader.add hpart _⟩
  · obtain ⟨rfl, rfl⟩ := Prod.mk.inj (Option.some.inj h)
    refine ⟨_, rfl, reads_single _ rfl ⟨leadsAlone_nil, ?_⟩⟩
    intro saved hsaved
    rcases List.mem_cons.1 hsaved with rfl | hsaved
    · exact hreader.current
    · exact hreader.outer saved hsaved
  · obtain ⟨closed, hclosed, hparts⟩ := Option.map_eq_some_iff.1 h
    obtain ⟨rfl, rfl⟩ := Prod.mk.inj hparts
    exact ⟨_, rfl, reads_single _ rfl (hreader.closeBraces hclosed _)⟩
  · obtain ⟨rfl, rfl⟩ := Prod.mk.inj (Option.some.inj h)
    exact ⟨_, rfl, reads_single _ rfl (hreader.comma _)⟩
  · obtain ⟨rfl, rfl⟩ := Prod.mk.inj (Option.some.inj h)
    exact ⟨['\\', _], rfl, .escape _, rfl, fun _ => List.cons_ne_nil _ _,
      hreader.add (by simp) _⟩
  · cases h
  · obtain ⟨rfl, rfl⟩ := Prod.mk.inj (Option.some.inj h)
    exact ⟨_, rfl, reads_single _ rfl (hreader.add (by simp) _)⟩

/-! ## Globs that end in a double star -/

theorem Chunk.last {read : Text} (h : Chunk read) (hlong : 2 < read.length) :
    read.getLast? = some '/' ∨ read.getLast? = some ']' := by
  cases h with
  | single c => simp at hlong
  | escape c => simp at hlong
  | stars => simp at hlong
  | directories => exact Or.inl rfl
  | set front => exact Or.inr List.getLast?_concat

/-- A chunk does not end inside the last double star. -/
theorem Chunk.rest_cases {read later front : Text} {c : Char} (h : Chunk read)
    (htext : read ++ later = c :: front ++ ['/', '*', '*']) :
    (∃ back, later = back ++ ['/', '*', '*']) ∨
      later = ['*', '*'] ∧ 1 < read.length ∧ read.getLast? = some '/' := by
  rcases List.append_eq_append_iff.1 htext with ⟨extra, hread, hlater⟩ | ⟨extra, hread, hlater⟩
  · exact Or.inl ⟨extra, hlater⟩
  · cases extra with
    | nil => exact Or.inl ⟨[], hlater.symm⟩
    | cons slash extra =>
      rw [List.cons_append, List.cons.injEq] at hlater
      obtain ⟨rfl, hlater⟩ := hlater
      rcases List.eq_nil_or_concat extra with rfl | ⟨stars, last, rfl⟩
      · exact Or.inr ⟨hlater.symm, by rw [hread]; simp, by rw [hread, List.getLast?_concat]⟩
      · have hstar : last = '*' := by
          have hmem : last ∈ ['*', '*'] := by rw [hlater]; simp
          simpa using hmem
        have hlast : read.getLast? = some '*' := by
          rw [hread, hstar, List.concat_eq_append, ← List.cons_append, ← List.append_assoc,
            List.getLast?_concat]
        have hlong : 2 < read.length := by
          rw [hread]
          simp
          omega
        rcases h.last hlong with hend | hend
        · rw [hlast] at hend; cases hend
        · rw [hlast] at hend; cases hend

theorem readUpTo?_succ (limit : Nat) (reader : Reader) (c : Char) (rest : Text) :
    readUpTo? (limit + 1) reader (c :: rest) =
      (readPart? reader c rest).bind fun step => readUpTo? limit step.1 step.2 := by
  rfl

theorem covers_of_readUpTo?_stars {reader : Reader} {limit : Nat} {parts : List Part}
    (hreader : reader.WellStacked) (hprevious : reader.previous = some '/')
    (hcurrent : reader.current ≠ []) (h : readUpTo? limit reader ['*', '*'] = some parts) :
    CoversDirectories parts := by
  have hstars : reader.doubleStar [] = ((reader.after '*').spanDirs .allBelow, []) := by
    unfold Reader.doubleStar Reader.startsComponent
    rw [if_neg (by simpa using hcurrent), hprevious]
    rfl
  cases limit with
  | zero => cases h
  | succ limit =>
    have hstep : readPart? reader '*' ['*'] = some (reader.doubleStar []) := by rfl
    rw [readUpTo?_succ, hstep, hstars, Option.bind_some, readUpTo?] at h
    split at h
    · cases h
    · obtain rfl := Option.some.inj h
      unfold Reader.spanDirs
      split
      · rename_i below htop
        obtain rfl := hreader.current below htop
        exact Or.inl (by rw [htop]; rfl)
      · rename_i below htop
        exact Or.inr ⟨below.reverse, by rw [htop, List.reverse_cons]⟩
      · rename_i below _ _ _
        exact Or.inr ⟨below.reverse, List.reverse_cons⟩
      · rename_i htop
        exact absurd htop hcurrent

theorem covers_of_readUpTo? {reader : Reader} {limit : Nat} {front : Text} {parts : List Part}
    (hreader : reader.WellStacked)
    (h : readUpTo? limit reader (front ++ ['/', '*', '*']) = some parts) :
    CoversDirectories parts := by
  induction limit generalizing reader front with
  | zero => cases front <;> cases h
  | succ limit ih =>
    cases front with
    | nil =>
      have hstep : readPart? reader '/' ['*', '*'] =
          some ((reader.add (.literal '/')).after '/', ['*', '*']) := by rfl
      rw [List.nil_append, readUpTo?_succ, hstep, Option.bind_some] at h
      exact covers_of_readUpTo?_stars (hreader.add (by simp) '/') rfl (List.cons_ne_nil _ _) h
    | cons c front =>
      rw [List.cons_append, readUpTo?_succ] at h
      obtain ⟨⟨next, later⟩, hstep, hlater⟩ := Option.bind_eq_some_iff.1 h
      obtain ⟨read, hread, hreads⟩ := reads_readPart? hreader hstep
      -- The chunk leaves the slash and the double star, or it has read the slash itself.
      rcases hreads.chunk.rest_cases hread.symm with ⟨back, rfl⟩ | ⟨rfl, hlong, hslash⟩
      · exact ih hreads.stacked hlater
      · have hprevious : next.previous = some '/' := hreads.previous.trans hslash
        exact covers_of_readUpTo?_stars hreads.stacked hprevious (hreads.current hlong) hlater

/-- A glob whose text ends in a slash and a double star covers directories. -/
theorem coversDirectories_of_parts? {front : Text} {parts : List Part}
    (h : parts? (front ++ ['/', '*', '*']) = some parts) : CoversDirectories parts :=
  covers_of_readUpTo? ⟨leadsAlone_nil, by simp⟩ h

end ClassAudit.Glob
