import Leani.Library.Fallible
import Leani.Library.Newest
import Mathlib.Logic.Function.Basic

/-!
# Overwriting a map

Items that each set the value of one key, applied in order: under a key stands what its newest item
set, and what stood there before if there is none. Items applied in order and then taken back newest
first leave under a key what the taking back of its oldest item sets (`overwrite_reverse_eq_iff`).
-/

namespace Library

variable {α β κ ν ε : Type} [DecidableEq κ] {key : α → κ} {value : α → ν}

def overwrite (key : α → κ) (value : α → ν) (view : κ → ν) (items : List α) : κ → ν :=
  items.foldl (fun view a => Function.update view (key a) (value a)) view

theorem overwrite_apply (view : κ → ν) (items : List α) (k : κ) :
    overwrite key value view items k = ((newest key items k).map value).getD (view k) := by
  induction items generalizing view with
  | nil => rfl
  | cons a items ih =>
    have hstep : overwrite key value view (a :: items) =
        overwrite key value (Function.update view (key a) (value a)) items := rfl
    rw [hstep, ih, newest_cons]
    cases newest key items k with
    | some b => rfl
    | none =>
      by_cases h : key a = k
      · subst h; simp
      · have hne : k ≠ key a := fun heq => h heq.symm
        simp [h, Function.update_of_ne hne]

variable {key' : β → κ} {f : α → Except ε β}

variable {items : List α}

theorem newest_of_mapM (hkey : ∀ a b, f a = .ok b → key' b = key a) : ∀ {ans : List β},
    items.mapM f = .ok ans → ∀ k, (newest key items k = none → newest key' ans k = none) ∧
    ∀ a, newest key items k = some a → ∃ b, f a = .ok b ∧ newest key' ans k = some b := by
  induction items with
  | nil =>
    intro ans h k; cases h; exact ⟨fun _ => rfl, nofun⟩
  | cons a items ih =>
    intro ans h k
    obtain ⟨b, ans, hb, hrest, rfl⟩ := mapM_cons_eq_ok.1 h
    obtain ⟨hnone, hsome⟩ := ih hrest k
    rw [newest_cons, newest_cons, hkey a b hb]
    cases hnew : newest key items k with
    | some c =>
      obtain ⟨d, hd, hans⟩ := hsome c hnew
      rw [hans]
      refine ⟨nofun, fun _ hc' => ?_⟩
      cases hc'; exact ⟨d, hd, rfl⟩
    | none =>
      rw [hnone hnew]
      by_cases h : key a = k
      · rw [if_pos h, if_pos h]
        refine ⟨nofun, fun c hc => ?_⟩
        cases hc; exact ⟨b, hb, rfl⟩
      · rw [if_neg h, if_neg h]; exact ⟨fun _ => rfl, nofun⟩

variable {value' : β → ν}

theorem overwrite_reverse_eq_iff (hkey : ∀ a b, f a = .ok b → key' b = key a)
    {ans : List β} (h : items.reverse.mapM f = .ok ans) (view : κ → ν) :
    overwrite key' value' (overwrite key value view items) ans = view ↔
      ∀ k a b, newest key items.reverse k = some a → f a = .ok b → value' b = view k := by
  rw [funext_iff]
  refine forall_congr' fun k => ?_
  rw [overwrite_apply]
  obtain ⟨hnone, hsome⟩ := newest_of_mapM hkey h k
  cases hnew : newest key items.reverse k with
  | none =>
    have hoff : newest key items k = none := by
      rw [newest_eq_none] at hnew ⊢; exact fun a ha => hnew a (List.mem_reverse.2 ha)
    rw [hnone hnew, overwrite_apply, hoff]; exact ⟨fun _ => nofun, fun _ => rfl⟩
  | some a =>
    obtain ⟨b, hb, hans⟩ := hsome a hnew
    rw [hans]
    constructor
    · intro heq _ _ ha' hb'
      cases ha'; rw [hb, Except.ok.injEq] at hb'; exact hb' ▸ heq
    · exact fun hall => hall a b rfl hb

end Library
