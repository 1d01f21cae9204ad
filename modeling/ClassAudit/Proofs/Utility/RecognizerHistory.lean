import ClassAudit.Proofs.Audit.Coherence
import ClassAudit.Proofs.RecencyHistory
import Mathlib.Data.List.DropRight
/-!
# Histories of the recognizer

A recognizer is asked about tokens and told to forget, in any order and with any
capacity.  Each answer that it remembers is the right one for its token, so no
memory changes an answer.  A question touches its token whether or not the answer
is remembered; so the tokens in the order of their last touches are those asked
since the recognizer last forgot, and it holds as many of them as it has room for.
-/

namespace ClassAudit.Recognizer

/-- What may be done to a recognizer. -/
inductive Step where
  | ask (token : Text)
  | clear
  deriving DecidableEq

namespace Step

def token? : Step → Option Text
  | ask token => some token
  | clear => none

/-- The answer to a step without any memory. -/
def answer? : Step → Option Bool
  | ask token => some (Utility.isUtility token || Utility.isDynamic token)
  | clear => none

end Step

/-- Does one step. -/
def perform (recognizer : Recognizer) : Step → Option Bool × Recognizer
  | .ask token => (recognizer.ask token).map some id
  | .clear => (none, recognizer.clear)

/-- Does steps one after the other. -/
def performAll (recognizer : Recognizer) : List Step → List (Option Bool) × Recognizer
  | [] => ([], recognizer)
  | step :: rest =>
    let (answer, next) := recognizer.perform step
    let (answers, last) := next.performAll rest
    (answer :: answers, last)

/-- The tokens asked after the last time that the answers were forgotten. -/
def askedSinceClear (steps : List Step) : Finset Text :=
  ((steps.rtakeWhile fun step => step ≠ .clear).filterMap Step.token?).toFinset

theorem askedSinceClear_ask (steps : List Step) (token : Text) :
    askedSinceClear (steps ++ [.ask token]) = insert token (askedSinceClear steps) := by
  unfold askedSinceClear
  rw [List.rtakeWhile_concat_pos _ _ _ (by simp), List.filterMap_append]
  ext other
  simp [Step.token?]

theorem askedSinceClear_clear (steps : List Step) :
    askedSinceClear (steps ++ [.clear]) = ∅ := by
  unfold askedSinceClear
  rw [List.rtakeWhile_concat_neg _ _ _ (by simp)]
  rfl

theorem performAll_concat (recognizer : Recognizer) (steps : List Step) (step : Step) :
    recognizer.performAll (steps ++ [step]) =
      ((recognizer.performAll steps).1 ++ [((recognizer.performAll steps).2.perform step).1],
        ((recognizer.performAll steps).2.perform step).2) := by
  induction steps generalizing recognizer with
  | nil => rfl
  | cons first rest ih => simp only [List.cons_append, performAll, ih]

/-! ## What a recognizer recalls -/

/-- A recognizer with room for some answers, all of them right, recalls of the tokens that it was
asked the latest ones. -/
structure Recalls (capacity : Nat) (asked : Finset Text) (recognizer : Recognizer) : Prop where
  room : recognizer.cache.capacity = capacity
  right : ∀ entry ∈ recognizer.cache.entries, entry.2 = Utility.isFramework entry.1
  latest : ∃ history, RecencyCache.Mirrors history recognizer.cache ∧
    history.recency.toFinset = asked

theorem recalls_empty (capacity : Nat) : Recalls (max capacity 1) ∅ (empty capacity) where
  room := rfl
  right := by intro entry hentry; cases hentry
  latest := ⟨[], RecencyCache.mirrors_empty capacity, rfl⟩

namespace Recalls

variable {capacity : Nat} {asked : Finset Text} {recognizer : Recognizer}

theorem size_eq (h : Recalls capacity asked recognizer) :
    recognizer.size = min capacity asked.card := by
  obtain ⟨history, hmirrors, hasked⟩ := h.latest
  have hkeys : recognizer.cache.keys.length = recognizer.size := by
    unfold RecencyCache.keys size RecencyCache.size
    rw [List.length_reverse, List.length_map]
  have hcard : asked.card = history.recency.length := by
    rw [← hasked, List.toFinset_card_of_nodup history.nodup_recency]
  rw [← hkeys, hmirrors.keys, List.length_take, h.room, hcard]

theorem toFinset_touch {history : RecencyCache.History Text Bool}
    {event : RecencyCache.Operation Text Bool × RecencyCache.Answer Bool} {token : Text}
    (h : RecencyCache.History.touched? event = some token)
    (hasked : history.recency.toFinset = asked) :
    (RecencyCache.History.recency (event :: history)).toFinset = insert token asked := by
  ext other
  rw [List.mem_toFinset, RecencyCache.History.mem_recency_of_touched h, Finset.mem_insert,
    ← hasked, List.mem_toFinset]

/-- A question touches its token, by reading the answer or by writing it. -/
theorem latest_ask (h : Recalls capacity asked recognizer) (token : Text) :
    ∃ history, RecencyCache.Mirrors history (recognizer.ask token).2.cache ∧
      history.recency.toFinset = insert token asked := by
  obtain ⟨history, hmirrors, hasked⟩ := h.latest
  unfold Recognizer.ask RecencyCache.get
  cases hfind : recognizer.cache.find? token with
  | some answer =>
    exact ⟨_, hmirrors.get_of_find? hfind, toFinset_touch rfl hasked⟩
  | none =>
    exact ⟨_, hmirrors.put token (Utility.isFramework token), toFinset_touch rfl hasked⟩

theorem room_ask (h : Recalls capacity asked recognizer) (token : Text) :
    (recognizer.ask token).2.cache.capacity = capacity := by
  unfold Recognizer.ask RecencyCache.get
  cases recognizer.cache.find? token with
  | some answer => exact h.room
  | none => exact h.room

theorem ask (h : Recalls capacity asked recognizer) (token : Text) :
    Recalls capacity (insert token asked) (recognizer.ask token).2 where
  room := h.room_ask token
  right := (Auditor.ask_recognizer h.right token).2
  latest := h.latest_ask token

theorem clear (h : Recalls capacity asked recognizer) :
    Recalls capacity ∅ recognizer.clear where
  room := h.room
  right := by intro entry hentry; cases hentry
  latest := by
    obtain ⟨history, hmirrors, -⟩ := h.latest
    exact ⟨_, hmirrors.perform .clear, rfl⟩

end Recalls

/-- One step gives the right answer and leaves a recognizer that recalls the tokens asked so far. -/
theorem Recalls.perform {capacity : Nat} {steps : List Step} {recognizer : Recognizer}
    (h : Recalls capacity (askedSinceClear steps) recognizer) (step : Step) :
    (recognizer.perform step).1 = step.answer? ∧
      Recalls capacity (askedSinceClear (steps ++ [step])) (recognizer.perform step).2 := by
  cases step with
  | ask token =>
    rw [askedSinceClear_ask]
    exact ⟨congrArg some (Auditor.ask_recognizer h.right token).1, h.ask token⟩
  | clear =>
    rw [askedSinceClear_clear]
    exact ⟨rfl, h.clear⟩

theorem recalls_performAll (capacity : Nat) (steps : List Step) :
    ((empty capacity).performAll steps).1 = steps.map Step.answer? ∧
      Recalls (max capacity 1) (askedSinceClear steps) ((empty capacity).performAll steps).2 := by
  induction steps using List.reverseRecOn with
  | nil => exact ⟨rfl, recalls_empty capacity⟩
  | append_singleton steps step ih =>
    obtain ⟨hanswers, hrecalls⟩ := ih
    obtain ⟨hanswer, hnext⟩ := hrecalls.perform step
    rw [performAll_concat, hanswers, hanswer, List.map_append]
    exact ⟨rfl, hnext⟩

/-- After any steps on a new recognizer, every answer was the one without memory, and as many
answers are remembered as different tokens were asked since the last time they were forgotten, or
as there is room for. -/
theorem answers_and_size_of_steps (capacity : Nat) (steps : List Step) :
    ((empty capacity).performAll steps).1 = steps.map Step.answer? ∧
      ((empty capacity).performAll steps).2.size =
        min (max capacity 1) (askedSinceClear steps).card := by
  obtain ⟨hanswers, hrecalls⟩ := recalls_performAll capacity steps
  exact ⟨hanswers, hrecalls.size_eq⟩

end ClassAudit.Recognizer
