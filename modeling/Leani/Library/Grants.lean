import Leani.Library.Sums

/-!
# Grants

Keys are granted to holders and released again. The ledger remembers every grant made and who
released it.
-/

namespace Library

open Std List Table

variable {κ : Type} [Ord κ] [TransOrd κ] [LawfulEqOrd κ]

structure Ledger (κ : Type) [Ord κ] where
  holders : Table κ Nat
  made : List Nat
  releases : List (Nat × Option Nat)

namespace Ledger

def empty : Ledger κ := ⟨∅, [], []⟩

def grant (ledger : Ledger κ) (k : κ) (holder : Nat) : Ledger κ :=
  { ledger with holders := ledger.holders.insert k holder, made := holder :: ledger.made }

def release (ledger : Ledger κ) (k : κ) (releaser : Option Nat) : Ledger κ :=
  match ledger.holders[k]? with
  | none => ledger
  | some holder =>
    { ledger with
      holders := ledger.holders.erase k
      releases := (holder, releaser) :: ledger.releases }

def releaseAll (ledger : Ledger κ) : Ledger κ :=
  { ledger with
    holders := ∅
    releases := ledger.holders.toList.map (fun row => (row.2, none)) ++ ledger.releases }

def released (ledger : Ledger κ) : List Nat := ledger.releases.map (·.1)

structure WellKept (ledger : Ledger κ) : Prop where
  injective : ∀ {k k' : κ} {holder : Nat}, ledger.holders[k]? = some holder →
    ledger.holders[k']? = some holder → k = k'
  once : ledger.released.Nodup
  apart : ∀ {k : κ} {holder : Nat}, ledger.holders[k]? = some holder → holder ∉ ledger.released
  all : ∀ holder, holder ∈ ledger.made ↔
    (∃ k : κ, ledger.holders[k]? = some holder) ∨ holder ∈ ledger.released

variable {ledger : Ledger κ} {k : κ} {holder : Nat}

omit [LawfulEqOrd κ] in
theorem wellKept_empty : WellKept (empty : Ledger κ) where
  injective h := (not_mem_empty h).elim
  once := nodup_nil
  apart h := (not_mem_empty h).elim
  all holder := by
    constructor
    · intro h; cases h
    · rintro (⟨k, h⟩ | h)
      · exact (not_mem_empty h).elim
      · cases h

omit [LawfulEqOrd κ] in
theorem release_of_none (h : ledger.holders[k]? = none) (releaser : Option Nat) :
    ledger.release k releaser = ledger := by
  rw [release, h]

omit [LawfulEqOrd κ] in
theorem release_of_some (h : ledger.holders[k]? = some holder) (releaser : Option Nat) :
    ledger.release k releaser = { ledger with
        holders := ledger.holders.erase k
        releases := (holder, releaser) :: ledger.releases } := by
  rw [release, h]

omit [LawfulEqOrd κ] in
theorem made_release (releaser : Option Nat) : (ledger.release k releaser).made = ledger.made := by
  rw [release]
  split <;> rfl

variable [DecidableEq κ]

theorem holders_release (a : κ) (releaser : Option Nat) :
    (ledger.release k releaser).holders[a]? = if a = k then none else ledger.holders[a]? := by
  cases h : ledger.holders[k]? with
  | none =>
    rw [release_of_none h]
    split
    · rename_i ha; rw [ha, h]
    · rfl
  | some holder =>
    rw [release_of_some h, get?_erase_ite]

theorem WellKept.grant (h : WellKept ledger) (hkey : ledger.holders[k]? = none)
    (hnew : holder ∉ ledger.made) : WellKept (ledger.grant k holder) := by
  have hfree : ∀ a : κ, ledger.holders[a]? ≠ some holder := by
    intro a ha; exact hnew ((h.all holder).2 (.inl ⟨a, ha⟩))
  have hnever : holder ∉ ledger.released := by
    intro hmem; exact hnew ((h.all holder).2 (.inr hmem))
  refine ⟨?_, h.once, ?_, ?_⟩
  · intro a b holder' ha hb
    simp only [Ledger.grant, get?_insert_ite] at ha hb
    split at ha
    · rename_i hak
      cases ha
      split at hb
      · rename_i hbk; rw [hak, hbk]
      · exact absurd hb (hfree b)
    · split at hb
      · cases hb; exact absurd ha (hfree a)
      · exact h.injective ha hb
  · intro a holder' ha
    simp only [Ledger.grant, get?_insert_ite] at ha
    split at ha
    · cases ha; exact hnever
    · exact h.apart ha
  · intro holder'
    simp only [Ledger.grant, mem_cons, get?_insert_ite]
    constructor
    · rintro (rfl | hmade)
      · exact .inl ⟨k, if_pos rfl⟩
      · rcases (h.all holder').1 hmade with ⟨a, ha⟩ | hreld
        · refine .inl ⟨a, ?_⟩
          rw [if_neg, ha]
          rintro rfl; rw [hkey] at ha; cases ha
        · exact .inr hreld
    · rintro (⟨a, ha⟩ | hreld)
      · split at ha
        · cases ha; exact .inl rfl
        · exact .inr ((h.all holder').2 (.inl ⟨a, ha⟩))
      · exact .inr ((h.all holder').2 (.inr hreld))

theorem WellKept.release (h : WellKept ledger) (releaser : Option Nat) :
    WellKept (ledger.release k releaser) := by
  cases hkey : ledger.holders[k]? with
  | none =>
    rw [release_of_none hkey]; exact h
  | some holder =>
    rw [release_of_some hkey]
    refine ⟨?_, ?_, ?_, ?_⟩
    · intro a b holder' ha hb
      simp only [get?_erase_ite, ite_eq_iff, reduceCtorEq, and_false, false_or] at ha hb
      exact h.injective ha.2 hb.2
    · exact nodup_cons.2 ⟨h.apart hkey, h.once⟩
    · intro a holder' ha hmem
      simp only [get?_erase_ite, ite_eq_iff, reduceCtorEq, and_false, false_or] at ha
      rcases mem_cons.1 hmem with rfl | hold
      · exact ha.1 (h.injective ha.2 hkey)
      · exact h.apart ha.2 hold
    · intro holder'
      have hreld : ∀ holders : Table κ Nat, (⟨holders, ledger.made,
          (holder, releaser) :: ledger.releases⟩ : Ledger κ).released =
            holder :: ledger.released := fun _ => rfl
      rw [h.all holder', hreld, mem_cons]
      constructor
      · rintro (⟨a, ha⟩ | hold)
        · by_cases hak : a = k
          · rw [hak, hkey] at ha; cases ha; exact .inr (.inl rfl)
          · refine .inl ⟨a, ?_⟩
            rw [get?_erase_ite, if_neg hak, ha]
        · exact .inr (.inr hold)
      · rintro (⟨a, ha⟩ | rfl | hold)
        · obtain ⟨-, ha⟩ := erase_cases ha; exact .inl ⟨a, ha⟩
        · exact .inl ⟨k, hkey⟩
        · exact .inr hold

omit [DecidableEq κ] in
theorem WellKept.releaseAll (h : WellKept ledger) : WellKept ledger.releaseAll := by
  have hreld : ledger.releaseAll.released = ledger.holders.toList.map (·.2) ++ ledger.released := by
    simp [Ledger.releaseAll, Ledger.released]
  have hmem : ∀ holder, holder ∈ ledger.holders.toList.map (·.2) ↔
      ∃ k : κ, ledger.holders[k]? = some holder := by
    intro holder
    rw [mem_map]
    constructor
    · rintro ⟨⟨k, holder'⟩, hrow, rfl⟩; exact ⟨k, mem_toList.1 hrow⟩
    · rintro ⟨k, hk⟩; exact ⟨(k, holder), mem_toList.2 hk, rfl⟩
  refine ⟨fun hk => (not_mem_empty hk).elim, ?_, fun hk => (not_mem_empty hk).elim, ?_⟩
  · rw [hreld, nodup_append]
    refine ⟨?_, h.once, ?_⟩
    · refine List.Nodup.map_on ?_ (nodup_toList _)
      rintro ⟨a, holder⟩ ha ⟨b, holder'⟩ hb rfl
      rw [h.injective (mem_toList.1 ha) (mem_toList.1 hb)]
    · rintro a ha b hb rfl
      obtain ⟨k, hk⟩ := (hmem a).1 ha; exact h.apart hk hb
  · intro holder
    rw [hreld, mem_append, hmem, show ledger.releaseAll.made = ledger.made from rfl, h.all holder]
    constructor
    · exact .inr
    · rintro (⟨k, hk⟩ | hall)
      · exact (not_mem_empty hk).elim
      · exact hall

end Ledger

end Library
