import Mathlib.Tactic.Common

/-!
# Histories

Events, newest first. A history is justified when every event obeys a rule about the events before
it; an obligation about an event and what came after it is stated with `Since`.
-/

namespace Library

variable {α : Type}

def Justified (rule : α → List α → Prop) : List α → Prop
  | [] => True
  | event :: earlier => rule event earlier ∧ Justified rule earlier

theorem Justified.of_append {rule : α → List α → Prop} {later prior : List α}
    (h : Justified rule (later ++ prior)) : Justified rule prior := by
  induction later with
  | nil => exact h
  | cons event later ih => exact ih h.2

theorem Justified.rule {rule : α → List α → Prop} {later earlier : List α} {event : α}
    (h : Justified rule (later ++ event :: earlier)) : rule event earlier :=
  h.of_append.1

def Since (event later : α) (history : List α) : Prop :=
  ∃ after before, history = after ++ event :: before ∧ later ∈ after

theorem Since.cons {event later : α} {hist : List α} (h : Since event later hist)
    (newest : α) : Since event later (newest :: hist) := by
  obtain ⟨after, before, rfl, hmem⟩ := h
  exact ⟨newest :: after, before, rfl, List.mem_cons_of_mem _ hmem⟩

theorem since_newest {event later : α} {hist : List α} (h : event ∈ hist) :
    Since event later (later :: hist) := by
  obtain ⟨after, before, rfl⟩ := List.append_of_mem h
  exact ⟨later :: after, before, rfl, List.mem_cons_self⟩

end Library
