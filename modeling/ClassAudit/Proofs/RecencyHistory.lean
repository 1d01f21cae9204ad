import ClassAudit.RecencyCache
import Mathlib.Data.Finset.Card
import Mathlib.Data.List.Basic
/-!
# What a recency cache remembers of its history

A recency cache is known by what was done to it and what it answered.  A history
lists this, the latest event first.  The keys in the order of their last touches,
`History.recency`, are those of a cache without a bound; a bounded cache holds as
many of them as it has room for.  `Mirrors` says so, every operation keeps it, and
what a cache holds after any history is read off from it.
-/

namespace ClassAudit

namespace RecencyCache

/-- What may be done to a cache. -/
inductive Operation (κ α : Type) where
  | put (key : κ) (value : α)
  | get (key : κ)
  | contains (key : κ)
  | clear

def Operation.isClear {κ α : Type} : Operation κ α → Bool
  | clear => true
  | _ => false

/-- What a cache answers. -/
inductive Answer (α : Type) where
  | done
  | value (found : Option α)
  | present (answer : Bool)
  deriving DecidableEq

/-- Operations with their answers, the latest first. -/
abbrev History (κ α : Type) := List (Operation κ α × Answer α)

variable {κ α : Type}

namespace History

/-- The key that an event touches: that of a write, or of a read that finds it. -/
def touched? : Operation κ α × Answer α → Option κ
  | (.put key _, _) => some key
  | (.get key, .value (some _)) => some key
  | _ => none

/-- The keys that are touched, the latest first. -/
def touches (history : History κ α) : List κ :=
  history.filterMap touched?

/-- A key is written after the last time the cache is cleared. -/
def PutSinceClear (history : History κ α) (key : κ) : Prop :=
  ∃ value, Operation.put key value ∈
    (history.map Prod.fst).takeWhile fun operation => !operation.isClear

theorem putSinceClear_put {older : History κ α} {key other : κ} {value : α} {answer : Answer α} :
    PutSinceClear ((.put key value, answer) :: older) other ↔
      other = key ∨ older.PutSinceClear other := by
  unfold PutSinceClear
  simp [Operation.isClear, exists_or]

theorem putSinceClear_cons {event : Operation κ α × Answer α} {older : History κ α} {key : κ}
    (hclear : event.1.isClear = false) (hput : ∀ value, event.1 ≠ .put key value) :
    PutSinceClear (event :: older) key ↔ older.PutSinceClear key := by
  unfold PutSinceClear
  rw [List.map_cons, List.takeWhile_cons_of_pos (by rw [hclear]; rfl)]
  apply exists_congr
  intro value
  rw [List.mem_cons, or_iff_right (hput value).symm]

variable [DecidableEq κ]

/-- The keys touched after the last touch of a key. -/
def touchedAfter (history : History κ α) (key : κ) : Finset κ :=
  (history.touches.takeWhile fun other => other ≠ key).toFinset

/-- The value of the latest write of a key. -/
def latestPut? (history : History κ α) (key : κ) : Option α :=
  history.findSome? fun event =>
    match event.1 with
    | .put other value => if other = key then some value else none
    | _ => none

/-- The keys touched since the cache was cleared, each once and the latest first. -/
def recency : History κ α → List κ
  | [] => []
  | event :: older =>
    match touched? event with
    | some key => key :: (recency older).filter fun other => other ≠ key
    | none => if event.1.isClear then [] else recency older

theorem latestPut?_put (older : History κ α) (key other : κ) (value : α) (answer : Answer α) :
    latestPut? ((.put key value, answer) :: older) other =
      if key = other then some value else older.latestPut? other := by
  unfold latestPut?
  rw [List.findSome?_cons]
  split <;> simp_all

theorem recency_of_touched {event : Operation κ α × Answer α} {key : κ}
    (h : touched? event = some key) (older : History κ α) :
    recency (event :: older) = key :: (recency older).filter fun other => other ≠ key := by
  rw [recency, h]

theorem mem_recency_of_touched {event : Operation κ α × Answer α} {key other : κ}
    (h : touched? event = some key) (older : History κ α) :
    other ∈ recency (event :: older) ↔ other = key ∨ other ∈ recency older := by
  rw [recency_of_touched h, List.mem_cons, List.mem_filter, decide_eq_true_eq]
  tauto

theorem nodup_recency (history : History κ α) : history.recency.Nodup := by
  induction history with
  | nil => exact List.nodup_nil
  | cons event older ih =>
    unfold recency
    split
    · apply List.nodup_cons.2
      exact ⟨by simp, ih.filter _⟩
    · split
      · exact List.nodup_nil
      · exact ih

/-- Leaving out another element commutes with cutting a list at an element. -/
theorem takeWhile_filter_ne {key other : κ} (h : other ≠ key) (list : List κ) :
    (list.filter fun item => item ≠ other).takeWhile (fun item => item ≠ key) =
      (list.takeWhile fun item => item ≠ key).filter fun item => item ≠ other := by
  induction list with
  | nil => rfl
  | cons item list ih => grind [List.takeWhile_cons]

/-- The keys before a key in the order of last touches are those touched after it. -/
theorem toFinset_takeWhile_recency {history : History κ α} {key : κ} (h : key ∈ history.recency) :
    (history.recency.takeWhile fun other => other ≠ key).toFinset = history.touchedAfter key := by
  unfold touchedAfter touches
  induction history with
  | nil => exact absurd h List.not_mem_nil
  | cons event older ih =>
    cases htouched : touched? event with
    | none =>
      rw [List.filterMap_cons_none htouched]
      unfold recency at h ⊢
      simp only [htouched] at h ⊢
      split at h
      · exact absurd h List.not_mem_nil
      · rename_i hclear
        rw [if_neg hclear]
        exact ih h
    | some latest =>
      rw [List.filterMap_cons_some htouched, recency_of_touched htouched]
      by_cases hlatest : latest = key
      · simp [hlatest]
      · have hold : key ∈ recency older :=
          ((mem_recency_of_touched htouched older).1 h).resolve_left (Ne.symm hlatest)
        rw [List.takeWhile_cons_of_pos (by simpa using hlatest),
          List.takeWhile_cons_of_pos (by simpa using hlatest), takeWhile_filter_ne hlatest,
          List.toFinset_cons, List.toFinset_cons, ← ih hold]
        -- The latest key may have been touched before; both sides count it once.
        ext other
        simp only [Finset.mem_insert, List.mem_toFinset, List.mem_filter, decide_eq_true_eq]
        tauto

/-- A key is among the latest ones iff fewer others were touched after it. -/
theorem mem_take_recency_iff {history : History κ α} {key : κ} (h : key ∈ history.recency)
    (count : Nat) :
    key ∈ history.recency.take count ↔ (history.touchedAfter key).card < count := by
  have hindex : ∀ list : List κ,
      list.idxOf key = (list.takeWhile fun other => other ≠ key).length := by
    intro list
    induction list with
    | nil => rfl
    | cons other list ih => grind [List.takeWhile_cons]
  have hnodup : (history.recency.takeWhile fun other => other ≠ key).Nodup :=
    (nodup_recency history).sublist (List.takeWhile_sublist _)
  rw [List.mem_take_iff_idxOf_lt h, hindex, ← toFinset_takeWhile_recency h,
    List.toFinset_card_of_nodup hnodup]

end History

variable [DecidableEq κ]

/-- Does one operation. -/
def perform (cache : RecencyCache κ α) : Operation κ α → Answer α × RecencyCache κ α
  | .put key value => (.done, cache.put key value)
  | .get key => (cache.get key).map .value id
  | .contains key => (.present (cache.contains key), cache)
  | .clear => (.done, cache.clear)

/-- Does operations one after the other. -/
def performAll (cache : RecencyCache κ α) :
    List (Operation κ α) → List (Answer α) × RecencyCache κ α
  | [] => ([], cache)
  | operation :: rest =>
    let (answer, next) := cache.perform operation
    let (answers, last) := next.performAll rest
    (answer :: answers, last)

/-- The history of a cache to which operations were done. -/
def history (cache : RecencyCache κ α) (operations : List (Operation κ α)) : History κ α :=
  (operations.zip (cache.performAll operations).1).reverse

/-! ## The keys of a cache -/

/-- The keys of a cache, the latest first. -/
def keys (cache : RecencyCache κ α) : List κ :=
  (cache.entries.map Prod.fst).reverse

theorem keys_nodup (cache : RecencyCache κ α) : cache.keys.Nodup :=
  List.nodup_reverse.2 cache.nodup_keys

theorem contains_iff_mem_keys (cache : RecencyCache κ α) (key : κ) :
    cache.contains key = true ↔ key ∈ cache.keys := by
  unfold contains find? keys
  rw [List.mem_reverse]
  induction cache.entries with
  | nil => simp
  | cons entry entries ih => grind

theorem keys_put (cache : RecencyCache κ α) (key : κ) (value : α) :
    (cache.put key value).keys =
      key :: (cache.keys.filter fun other => other ≠ key).take (cache.capacity - 1) := by
  have hothers : ((cache.others key).map Prod.fst).reverse =
      cache.keys.filter fun other => other ≠ key := by
    unfold others keys
    rw [List.filter_reverse, List.filter_map]
    rfl
  have hcount : ((cache.others key).map Prod.fst).length -
      ((cache.others key).length + 1 - cache.capacity) =
        min (cache.capacity - 1) ((cache.others key).map Prod.fst).reverse.length := by
    rw [List.length_reverse, List.length_map]
    have := cache.capacity_pos
    omega
  unfold keys put
  rw [List.map_append, List.reverse_append, List.map_drop, List.reverse_drop, hcount,
    ← List.take_eq_take_min, hothers]
  rfl

theorem mem_entries_put_cases {cache : RecencyCache κ α} {key other : κ} {value found : α}
    (h : (other, found) ∈ (cache.put key value).entries) :
    other = key ∧ found = value ∨ other ≠ key ∧ (other, found) ∈ cache.entries := by
  rcases List.mem_append.1 h with h | h
  · obtain ⟨hmem, hne⟩ := List.mem_filter.1 (List.mem_of_mem_drop h)
    exact .inr ⟨of_decide_eq_true hne, hmem⟩
  · exact .inl (Prod.mk.inj (List.mem_singleton.1 h))

/-- In a list without repetition, leaving out an element makes room for one more. -/
theorem take_filter_take {list : List κ} (h : list.Nodup) (key : κ) (count : Nat) :
    ((list.take (count + 1)).filter fun other => other ≠ key).take count =
      (list.filter fun other => other ≠ key).take count := by
  induction list generalizing count with
  | nil => simp
  | cons head list ih =>
    obtain ⟨hhead, hnodup⟩ := List.nodup_cons.1 h
    rw [List.take_succ_cons]
    by_cases hkey : head = key
    · subst hkey
      have hfilter : ∀ {part : List κ}, part ⊆ list →
          part.filter (fun other => other ≠ head) = part := by
        intro part hpart
        apply List.filter_eq_self.2
        intro other hother
        exact decide_eq_true fun heq => hhead (heq ▸ hpart hother)
      rw [List.filter_cons_of_neg (by simp), List.filter_cons_of_neg (by simp),
        hfilter (List.take_subset _ _), hfilter (List.Subset.refl _), List.take_take, Nat.min_self]
    · rw [List.filter_cons_of_pos (by simpa using hkey),
        List.filter_cons_of_pos (by simpa using hkey)]
      cases count with
      | zero => rfl
      | succ count => rw [List.take_succ_cons, List.take_succ_cons, ih hnodup]

/-! ## The step and the run -/

/-- A cache holds what its history says. -/
structure Mirrors (history : History κ α) (cache : RecencyCache κ α) : Prop where
  keys : cache.keys = history.recency.take cache.capacity
  values : ∀ {key value}, (key, value) ∈ cache.entries → history.latestPut? key = some value
  written : ∀ {key}, key ∈ history.recency ↔ history.PutSinceClear key

theorem mirrors_empty (capacity : Nat) : Mirrors [] (empty capacity : RecencyCache κ α) where
  keys := List.take_nil.symm
  values := by intro key value h; cases h
  written := by
    intro key
    constructor
    · intro h
      cases h
    · intro ⟨value, h⟩
      cases h

namespace Mirrors

variable {older : History κ α} {cache : RecencyCache κ α}

theorem keys_touch (h : Mirrors older cache) {event : Operation κ α × Answer α} {key : κ}
    (htouched : History.touched? event = some key) (value : α) :
    (cache.put key value).keys = (History.recency (event :: older)).take cache.capacity := by
  obtain ⟨count, hcount⟩ := Nat.exists_eq_add_of_lt cache.capacity_pos
  rw [Nat.zero_add] at hcount
  rw [keys_put, h.keys, History.recency_of_touched htouched, hcount, List.take_succ_cons,
    Nat.add_sub_cancel, take_filter_take older.nodup_recency]

theorem put (h : Mirrors older cache) (key : κ) (value : α) :
    Mirrors ((.put key value, .done) :: older) (cache.put key value) where
  keys := h.keys_touch rfl value
  values := by
    intro other found hentry
    rw [History.latestPut?_put]
    rcases mem_entries_put_cases hentry with ⟨rfl, rfl⟩ | ⟨hne, hold⟩
    · rw [if_pos rfl]
    · rw [if_neg hne.symm, h.values hold]
  written := by
    intro other
    rw [History.mem_recency_of_touched rfl, h.written, History.putSinceClear_put]

theorem get_of_find? (h : Mirrors older cache) {key : κ} {value : α}
    (hfind : cache.find? key = some value) :
    Mirrors ((.get key, .value (some value)) :: older) (cache.put key value) where
  keys := h.keys_touch rfl value
  values := by
    intro other found hentry
    rcases mem_entries_put_cases hentry with ⟨rfl, rfl⟩ | ⟨-, hold⟩
    · exact h.values (mem_entries_of_find? hfind)
    · exact h.values hold
  written := by
    intro other
    have hkey : older.PutSinceClear key := by
      have hcontains : cache.contains key = true := by
        unfold contains
        rw [hfind]
        rfl
      rw [contains_iff_mem_keys, h.keys] at hcontains
      exact h.written.1 (List.mem_of_mem_take hcontains)
    rw [History.mem_recency_of_touched rfl, h.written,
      History.putSinceClear_cons rfl (by simp)]
    constructor
    · rintro (rfl | hother)
      · exact hkey
      · exact hother
    · exact .inr

theorem perform (h : Mirrors older cache) (operation : Operation κ α) :
    Mirrors ((operation, (cache.perform operation).1) :: older) (cache.perform operation).2 := by
  cases operation with
  | put key value => exact h.put key value
  | get key =>
    show Mirrors ((.get key, .value (cache.get key).1) :: older) (cache.get key).2
    unfold RecencyCache.get
    cases hfind : cache.find? key with
    | some value => exact h.get_of_find? hfind
    | none =>
      refine ⟨h.keys, h.values, h.written.trans ?_⟩
      exact (History.putSinceClear_cons rfl (by simp)).symm
  | contains key =>
    refine ⟨h.keys, h.values, h.written.trans ?_⟩
    exact (History.putSinceClear_cons rfl (by simp)).symm
  | clear =>
    refine ⟨List.take_nil.symm, ?_, ?_⟩
    · intro key value hentry
      cases hentry
    · intro key
      simp [History.recency, History.touched?, History.PutSinceClear, Operation.isClear]

end Mirrors

theorem history_cons (cache : RecencyCache κ α) (operation : Operation κ α)
    (rest : List (Operation κ α)) :
    cache.history (operation :: rest) =
      (cache.perform operation).2.history rest ++ [(operation, (cache.perform operation).1)] := by
  unfold history
  simp [performAll]

theorem Mirrors.performAll {older : History κ α} {cache : RecencyCache κ α}
    (h : Mirrors older cache) (operations : List (Operation κ α)) :
    Mirrors (cache.history operations ++ older) (cache.performAll operations).2 := by
  induction operations generalizing cache older with
  | nil => exact h
  | cons operation rest ih =>
    have hrest := ih (h.perform operation)
    rw [history_cons, List.append_assoc]
    exact hrest

theorem capacity_perform (cache : RecencyCache κ α) (operation : Operation κ α) :
    (cache.perform operation).2.capacity = cache.capacity := by
  cases operation with
  | put key value => rfl
  | get key =>
    show (cache.get key).2.capacity = cache.capacity
    unfold get
    cases cache.find? key <;> rfl
  | contains key => rfl
  | clear => rfl

theorem capacity_performAll (cache : RecencyCache κ α) (operations : List (Operation κ α)) :
    (cache.performAll operations).2.capacity = cache.capacity := by
  induction operations generalizing cache with
  | nil => rfl
  | cons operation rest ih => exact (ih _).trans (capacity_perform cache operation)

theorem performAll_append (cache : RecencyCache κ α) (first second : List (Operation κ α)) :
    cache.performAll (first ++ second) =
      ((cache.performAll first).1 ++ ((cache.performAll first).2.performAll second).1,
        ((cache.performAll first).2.performAll second).2) := by
  induction first generalizing cache with
  | nil => rfl
  | cons operation rest ih => simp only [List.cons_append, performAll, ih]

/-! ## What a cache holds after a history -/

theorem mirrors_performAll_empty (capacity : Nat) (operations : List (Operation κ α)) :
    Mirrors ((empty capacity).history operations) ((empty capacity).performAll operations).2 := by
  have hmirrors := (mirrors_empty capacity).performAll operations
  rwa [List.append_nil] at hmirrors

namespace Mirrors

variable {history : History κ α} {cache : RecencyCache κ α}

theorem contains_iff (h : Mirrors history cache) (key : κ) :
    cache.contains key = true ↔
      history.PutSinceClear key ∧ (history.touchedAfter key).card < cache.capacity := by
  rw [contains_iff_mem_keys, h.keys, ← h.written]
  constructor
  · intro hkey
    have hrecent := List.mem_of_mem_take hkey
    exact ⟨hrecent, (History.mem_take_recency_iff hrecent _).1 hkey⟩
  · intro ⟨hrecent, hcard⟩
    exact (History.mem_take_recency_iff hrecent _).2 hcard

theorem get_of_contains (h : Mirrors history cache) {key : κ} (hkey : cache.contains key = true) :
    ∃ value, history.latestPut? key = some value ∧ (cache.get key).1 = some value := by
  obtain ⟨value, hfind⟩ := Option.isSome_iff_exists.1 hkey
  refine ⟨value, h.values (mem_entries_of_find? hfind), ?_⟩
  unfold RecencyCache.get
  rw [hfind]

end Mirrors

theorem size_eq_card_keys (cache : RecencyCache κ α) : cache.size = cache.keys.toFinset.card := by
  rw [List.toFinset_card_of_nodup cache.keys_nodup]
  unfold size keys
  rw [List.length_reverse, List.length_map]

/-- After any operations on a new cache, the keys present are those put since the last clear after
whose last touch fewer others than there is room for were touched.  Such a key is read with the
value of its latest write.  To ask whether a key is present changes no later answer.  The size is
the number of keys present, and never more than there is room for. -/
theorem remembers_latest_touches (capacity : Nat) (operations : List (Operation κ α)) :
    let cache := ((empty capacity).performAll operations).2
    let history := (empty capacity).history operations
    (∀ key, cache.contains key = true ↔
      history.PutSinceClear key ∧ (history.touchedAfter key).card < max capacity 1) ∧
    (∀ key, cache.contains key = true →
      ∃ value, history.latestPut? key = some value ∧ (cache.get key).1 = some value) ∧
    (∀ key later, ∃ answers last,
      (empty capacity).performAll (operations ++ later) =
        (((empty capacity).performAll operations).1 ++ answers, last) ∧
      (empty capacity).performAll (operations ++ .contains key :: later) =
        (((empty capacity).performAll operations).1 ++
          .present (cache.contains key) :: answers, last)) ∧
    (∃ keys : Finset κ, (∀ key, key ∈ keys ↔ cache.contains key = true) ∧
      cache.size = keys.card) ∧
    cache.size ≤ max capacity 1 := by
  intro cache history
  have hmirrors : Mirrors history cache := mirrors_performAll_empty capacity operations
  have hcapacity : cache.capacity = max capacity 1 := capacity_performAll _ operations
  rw [← hcapacity]
  refine ⟨hmirrors.contains_iff, fun key => hmirrors.get_of_contains, ?_, ?_,
    cache.size_le_capacity⟩
  · intro key later
    exact ⟨_, _, performAll_append _ _ _, performAll_append _ _ _⟩
  · refine ⟨cache.keys.toFinset, ?_, cache.size_eq_card_keys⟩
    intro key
    rw [List.mem_toFinset, contains_iff_mem_keys]

/-- The first key is read in time to outlast the second one. -/
def refreshed : List (Operation Nat Char) :=
  [.put 1 'a', .put 2 'b', .get 1, .contains 2, .put 3 'c']

theorem remembers_latest_touches_refreshed :
    (performAll (empty 2) refreshed).2.contains 2 = false ∧
      (performAll (empty 2) refreshed).2.contains 1 = true ∧
      ∃ value, History.latestPut? (history (empty 2) refreshed) 1 = some value ∧
        ((performAll (empty 2) refreshed).2.get 1).1 = some value := by
  have hkept : (performAll (empty 2) refreshed).2.contains 1 = true := by decide
  exact ⟨by decide, hkept, (remembers_latest_touches 2 refreshed).2.1 1 hkept⟩

end RecencyCache

end ClassAudit
