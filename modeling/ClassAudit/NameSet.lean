import ClassAudit.Text.Basic
/-!
# Sets of names

A finite set of names in code point order without repetitions. The order is part of the type, so
two sets with the same members are equal (`NameSet.ext`), and listing a set is reading it.
-/

namespace ClassAudit

/-- A finite set of names, listed in code point order. -/
structure NameSet where
  /-- The members in code point order. -/
  toList : List Text
  ordered : toList.Pairwise fun a b => Text.before a b

namespace NameSet

/-- The list with a name put at its place, unless it is there. -/
def place (name : Text) : List Text → List Text
  | [] => [name]
  | head :: rest =>
    if name = head then head :: rest
    else if Text.before name head then name :: head :: rest
    else head :: place name rest

theorem mem_place {name other : Text} {names : List Text} :
    other ∈ place name names ↔ other = name ∨ other ∈ names := by
  induction names with
  | nil => simp [place]
  | cons head rest ih =>
    simp only [place]
    split
    · simp_all
    · split
      · simp
      · simp [ih]; grind

theorem ordered_place {name : Text} {names : List Text}
    (h : names.Pairwise fun a b => Text.before a b) :
    (place name names).Pairwise fun a b => Text.before a b := by
  induction names with
  | nil => simp [place]
  | cons head rest ih =>
    obtain ⟨hhead, hrest⟩ := List.pairwise_cons.1 h
    simp only [place]
    split
    · exact h
    · rename_i hne
      split
      · rename_i hlt
        refine List.pairwise_cons.2 ⟨?_, h⟩
        intro other hother
        rcases List.mem_cons.1 hother with rfl | hmem
        · exact hlt
        · exact Text.before_trans hlt (hhead other hmem)
      · rename_i hnlt
        refine List.pairwise_cons.2 ⟨?_, ih hrest⟩
        intro other hother
        rcases mem_place.1 hother with rfl | hmem
        · rcases Text.before_trichotomy other head with hlt | heq | hgt
          · exact absurd hlt hnlt
          · exact absurd heq hne
          · exact hgt
        · exact hhead other hmem

/-- The set without members. -/
def empty : NameSet := ⟨[], List.Pairwise.nil⟩

instance : EmptyCollection NameSet := ⟨empty⟩

instance : Inhabited NameSet := ⟨empty⟩

instance : DecidableEq NameSet := fun s t =>
  if h : s.toList = t.toList then isTrue (by cases s; cases t; simp_all)
  else isFalse fun he => h (he ▸ rfl)

instance : Membership Text NameSet := ⟨fun set name => name ∈ set.toList⟩

instance (name : Text) (set : NameSet) : Decidable (name ∈ set) :=
  inferInstanceAs (Decidable (name ∈ set.toList))

/-- Whether a name is a member. -/
def contains (set : NameSet) (name : Text) : Bool :=
  decide (name ∈ set)

/-- The set with one more member. -/
def insert (set : NameSet) (name : Text) : NameSet :=
  ⟨place name set.toList, ordered_place set.ordered⟩

/-- The set with every name of a list added. -/
def insertAll (set : NameSet) (names : List Text) : NameSet :=
  names.foldl insert set

/-- The names of a list. -/
def ofList (names : List Text) : NameSet :=
  insertAll empty names

/-- The members of either set. -/
def union (s t : NameSet) : NameSet :=
  s.insertAll t.toList

instance : Union NameSet := ⟨union⟩

/-- The number of members. -/
def size (set : NameSet) : Nat := set.toList.length

/-- Whether there are no members. -/
def isEmpty (set : NameSet) : Bool := set.toList.isEmpty

theorem mem_def {name : Text} {set : NameSet} : name ∈ set ↔ name ∈ set.toList := Iff.rfl

@[simp] theorem contains_iff {set : NameSet} {name : Text} : set.contains name ↔ name ∈ set := by
  simp [contains]

@[simp] theorem not_mem_empty (name : Text) : name ∉ (∅ : NameSet) :=
  List.not_mem_nil

@[simp] theorem mem_insert {set : NameSet} {name other : Text} :
    other ∈ set.insert name ↔ other = name ∨ other ∈ set :=
  mem_place

@[simp] theorem mem_insertAll {set : NameSet} {names : List Text} {other : Text} :
    other ∈ set.insertAll names ↔ other ∈ names ∨ other ∈ set := by
  induction names generalizing set with
  | nil => simp [insertAll]
  | cons name names ih =>
    have := @ih (set.insert name)
    simp only [insertAll, List.foldl_cons] at this ⊢
    simp [this]
    grind

@[simp] theorem mem_ofList {names : List Text} {other : Text} :
    other ∈ ofList names ↔ other ∈ names := by
  rw [ofList, mem_insertAll]
  exact or_iff_left (not_mem_empty other)

@[simp] theorem mem_union {s t : NameSet} {other : Text} :
    other ∈ s ∪ t ↔ other ∈ s ∨ other ∈ t := by
  show other ∈ s.insertAll t.toList ↔ other ∈ s ∨ other ∈ t.toList
  rw [mem_insertAll, or_comm]

private theorem ordered_ext {xs ys : List Text} (hx : xs.Pairwise fun a b => Text.before a b)
    (hy : ys.Pairwise fun a b => Text.before a b) (h : ∀ z, z ∈ xs ↔ z ∈ ys) : xs = ys := by
  induction xs generalizing ys with
  | nil =>
    cases ys with
    | nil => rfl
    | cons y ys => simpa using (h y).2 (by simp)
  | cons x xs ih =>
    cases ys with
    | nil => simpa using (h x).1 (by simp)
    | cons y ys =>
      obtain ⟨hxh, hxt⟩ := List.pairwise_cons.1 hx
      obtain ⟨hyh, hyt⟩ := List.pairwise_cons.1 hy
      have hxy : x = y := by
        rcases List.mem_cons.1 ((h x).1 (by simp)) with hxy | hmem
        · exact hxy
        · rcases List.mem_cons.1 ((h y).2 (by simp)) with hyx | hmem'
          · exact hyx.symm
          · have := Text.before_trans (hyh x hmem) (hxh y hmem')
            simp [Text.before_irrefl] at this
      subst hxy
      congr 1
      refine ih hxt hyt fun z => ?_
      have := h z
      have hnx : ∀ {zs : List Text}, (∀ a ∈ zs, Text.before x a = true) → x ∉ zs :=
        fun hz hm => by simpa [Text.before_irrefl] using hz x hm
      have h₁ := hnx hxh
      have h₂ := hnx hyh
      grind

/-- Sets with the same members are equal. -/
@[ext] theorem ext {s t : NameSet} (h : ∀ name, name ∈ s ↔ name ∈ t) : s = t := by
  have := ordered_ext s.ordered t.ordered h
  cases s
  cases t
  simp_all

theorem ofList_append (front rest : List Text) :
    ofList (front ++ rest) = ofList front ∪ ofList rest := by
  ext name
  rw [mem_ofList, mem_union, mem_ofList, mem_ofList, List.mem_append]

end NameSet

end ClassAudit
