import Mathlib.Tactic.Common

/-!
# Undo journals

A state made of cells that are read and written one at a time, and a journal of writes that
recorded what each cell held before. Writing the preimages back, newest first, restores the state.
-/

namespace Library

/-- Cells of a state: cell `k` holds a value of type `β k`. -/
structure Cells (σ κ : Type) (β : κ → Type) where
  get : σ → (k : κ) → β k
  set : σ → (k : κ) → β k → σ
  set_get : ∀ s k, set s k (get s k) = s
  set_set : ∀ s k a b, set (set s k a) k b = set s k b

structure Edit (κ : Type) (β : κ → Type) where
  key : κ
  before : β key
  after : β key

namespace Cells

variable {σ κ : Type} {β : κ → Type} (c : Cells σ κ β)

def redo (s : σ) (edits : List (Edit κ β)) : σ :=
  edits.foldl (fun s e => c.set s e.key e.after) s

def revert (s : σ) (edits : List (Edit κ β)) : σ :=
  edits.foldr (fun e s => c.set s e.key e.before) s

def Fits : σ → List (Edit κ β) → Prop
  | _, [] => True
  | s, e :: es => c.get s e.key = e.before ∧ Fits (c.set s e.key e.after) es

theorem revert_redo {es : List (Edit κ β)} :
    ∀ {s : σ}, c.Fits s es → c.revert (c.redo s es) es = s := by
  induction es with
  | nil => intro s _; rfl
  | cons e es ih =>
    rintro s ⟨hbef, hes⟩
    change c.set (c.revert (c.redo (c.set s e.key e.after) es) es) e.key e.before = s
    rw [ih hes, c.set_set, ← hbef, c.set_get]

end Cells

end Library
