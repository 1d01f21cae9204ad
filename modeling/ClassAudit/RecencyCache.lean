/-!
# Recency cache

A cache of bounded size that forgets the entry touched longest ago. Writing an entry touches it and
so does reading one that is present; asking whether a key is present does not.
-/

namespace ClassAudit

/-- Entries in order of their last touch, the oldest first. -/
structure RecencyCache (κ α : Type) [DecidableEq κ] where
  capacity : Nat
  entries : List (κ × α)
  capacity_pos : 0 < capacity
  length_le : entries.length ≤ capacity
  nodup_keys : (entries.map Prod.fst).Nodup

namespace RecencyCache

variable {κ α : Type} [DecidableEq κ]

/-- The capacity of a cache for which none is asked. -/
def defaultCapacity : Nat := 100

/-- The empty cache; a capacity of zero counts as one. -/
def empty (capacity : Nat) : RecencyCache κ α where
  capacity := max capacity 1
  entries := []
  capacity_pos := by omega
  length_le := by simp
  nodup_keys := by simp

/-- The value of a key, if present. -/
def find? (cache : RecencyCache κ α) (key : κ) : Option α :=
  cache.entries.lookup key

/-- Whether a key is present. -/
def contains (cache : RecencyCache κ α) (key : κ) : Bool :=
  (cache.find? key).isSome

/-- The number of entries. -/
def size (cache : RecencyCache κ α) : Nat := cache.entries.length

/-- The entries of other keys. -/
def others (cache : RecencyCache κ α) (key : κ) : List (κ × α) :=
  cache.entries.filter fun entry => entry.1 ≠ key

/-- Writes an entry as the latest one, forgetting the oldest if there is no room. -/
def put (cache : RecencyCache κ α) (key : κ) (value : α) : RecencyCache κ α where
  capacity := cache.capacity
  entries :=
    (cache.others key).drop ((cache.others key).length + 1 - cache.capacity) ++ [(key, value)]
  capacity_pos := cache.capacity_pos
  length_le := by
    have := cache.capacity_pos
    simp only [List.length_append, List.length_drop, List.length_singleton]
    omega
  nodup_keys := by
    have hsub : ((cache.others key).drop ((cache.others key).length + 1 - cache.capacity)).Sublist
        cache.entries := (List.drop_sublist _ _).trans List.filter_sublist
    have hne : ∀ entry ∈ (cache.others key).drop ((cache.others key).length + 1 - cache.capacity),
        entry.1 ≠ key := by
      intro entry h
      simpa using (List.mem_filter.1 (List.mem_of_mem_drop h)).2
    rw [List.map_append, List.nodup_append]
    refine ⟨cache.nodup_keys.sublist (hsub.map _), by simp, ?_⟩
    simp only [List.mem_map, List.map_cons, List.map_nil, List.mem_singleton]
    rintro _ ⟨entry, h, rfl⟩ _ rfl
    exact hne entry h

/-- Reads a key and touches it if it is present. -/
def get (cache : RecencyCache κ α) (key : κ) : Option α × RecencyCache κ α :=
  match cache.find? key with
  | some value => (some value, cache.put key value)
  | none => (none, cache)

/-- Forgets all entries. -/
def clear (cache : RecencyCache κ α) : RecencyCache κ α where
  capacity := cache.capacity
  entries := []
  capacity_pos := cache.capacity_pos
  length_le := by simp
  nodup_keys := by simp

@[simp] theorem capacity_put (cache : RecencyCache κ α) (key : κ) (value : α) :
    (cache.put key value).capacity = cache.capacity := rfl

@[simp] theorem find?_put_self (cache : RecencyCache κ α) (key : κ) (value : α) :
    (cache.put key value).find? key = some value := by
  have h : ∀ entries : List (κ × α), (∀ entry ∈ entries, entry.1 ≠ key) →
      (entries ++ [(key, value)]).lookup key = some value := by
    intro entries hne
    induction entries with
    | nil => simp
    | cons entry entries ih =>
      obtain ⟨other, old⟩ := entry
      have hother : (key == other) = false := by
        simpa using Ne.symm (hne (other, old) (by simp))
      simpa [List.lookup_cons, hother] using ih fun e he => hne e (by simp [he])
  refine h _ fun entry hmem => ?_
  simpa using (List.mem_filter.1 (List.mem_of_mem_drop hmem)).2

theorem mem_entries_of_find? {cache : RecencyCache κ α} {key : κ} {value : α}
    (h : cache.find? key = some value) : (key, value) ∈ cache.entries := by
  obtain ⟨front, rest, hentries, -⟩ := List.lookup_eq_some_iff.1 h
  simp [hentries]

/-- Writing an entry puts nothing but that entry into the cache. -/
theorem mem_entries_put {cache : RecencyCache κ α} {key : κ} {value : α} {entry : κ × α}
    (h : entry ∈ (cache.put key value).entries) :
    entry ∈ cache.entries ∨ entry = (key, value) := by
  rcases List.mem_append.1 h with h | h
  · exact Or.inl (List.mem_filter.1 (List.mem_of_mem_drop h)).1
  · exact Or.inr (List.mem_singleton.1 h)

theorem size_le_capacity (cache : RecencyCache κ α) : cache.size ≤ cache.capacity :=
  cache.length_le

end RecencyCache

end ClassAudit
