import Leani.Library.Table
import Mathlib.Algebra.BigOperators.Group.List.Basic
import Mathlib.Algebra.Order.Group.Multiset

/-!
# Sums over a table

A store adds up a weight of its rows; a run of waiters is measured the same way. Writing or
deleting one row changes the sum by the weight of that row.
-/

namespace Library.Table

open Std List ExtTreeMap

variable {κ ν : Type} [Ord κ] [TransOrd κ] [LawfulEqOrd κ] {M : Type} [AddCommMonoid M]

def sum (t : Table κ ν) (f : κ → ν → M) : M := (t.toList.map fun row => f row.1 row.2).sum

theorem nodup_toList (t : Table κ ν) : t.toList.Nodup := by
  have h := nodup_keys_rowsWhere t fun _ _ => true
  rw [rowsWhere, filter_eq_self.2 fun _ _ => rfl] at h
  exact h.of_map

variable {t : Table κ ν} {k : κ} {v : ν}

theorem toList_perm_of_get? [DecidableEq κ] (h : t[k]? = some v) :
    t.toList.Perm ((k, v) :: (t.erase k).toList) := by
  have hnot : (k, v) ∉ (t.erase k).toList := by
    rw [mem_toList, get?_erase_ite, if_pos rfl]; exact nofun
  rw [perm_ext_iff_of_nodup (nodup_toList t) (nodup_cons.2 ⟨hnot, nodup_toList _⟩)]
  rintro ⟨a, u⟩
  rw [mem_cons, mem_toList, mem_toList, get?_erase_ite, Prod.mk.injEq]
  by_cases ha : a = k
  · subst ha; rw [h, if_pos rfl, Option.some.injEq]; simp [eq_comm]
  · simp [ha]

theorem size_of_get? [DecidableEq κ] (h : t[k]? = some v) : t.size = (t.erase k).size + 1 := by
  rw [← length_toList, (toList_perm_of_get? h).length_eq, length_cons, length_toList]

theorem sum_of_get? [DecidableEq κ] (f : κ → ν → M) (h : t[k]? = some v) :
    sum t f = f k v + sum (t.erase k) f := by
  rw [sum, ((toList_perm_of_get? h).map _).sum_eq, map_cons, sum_cons, sum]

theorem sum_insert [DecidableEq κ] (t : Table κ ν) (k : κ) (v : ν) (f : κ → ν → M) :
    sum (t.insert k v) f = f k v + sum (t.erase k) f := by
  have herase : (t.insert k v).erase k = t.erase k := by
    refine ext fun a => ?_
    rw [get?_erase_ite, get?_erase_ite, get?_insert_ite]
    split
    · rfl
    · rfl
  rw [sum_of_get? f (getElem?_insert_self t k v), herase]

theorem erase_of_get?_eq_none [DecidableEq κ] (h : t[k]? = none) : t.erase k = t := by
  refine ext fun a => ?_
  rw [get?_erase_ite]
  split
  · rename_i ha; rw [ha, h]
  · rfl

omit [LawfulEqOrd κ] in
theorem sum_empty (f : κ → ν → M) : sum (∅ : Table κ ν) f = 0 := rfl

omit [LawfulEqOrd κ] in
variable {f : κ → ν → Nat}

theorem sum_le_size (h : ∀ k v, f k v ≤ 1) : sum t f ≤ t.size := by
  have hrows : ∀ rows : List (κ × ν), (rows.map fun row => f row.1 row.2).sum ≤ rows.length := by
    intro rows
    induction rows with
    | nil => exact Nat.le_refl 0
    | cons row rows ih =>
      simp only [map_cons, sum_cons, length_cons]
      have := h row.1 row.2; omega
  have hlen := hrows t.toList; rwa [length_toList] at hlen

theorem le_sum_of_get? [DecidableEq κ] {t : Table κ ν} {k : κ} {v : ν} {f : κ → ν → Nat}
    (h : t[k]? = some v) : f k v ≤ sum t f := by
  rw [sum_of_get? f h]; exact Nat.le_add_right _ _

theorem sum_le_sum [DecidableEq κ] {f : κ → ν → Nat} : ∀ {n : Nat} {t u : Table κ ν}, t.size = n →
    (∀ (k : κ) (v : ν), t[k]? = some v → ∃ w, u[k]? = some w ∧ f k v ≤ f k w) →
      sum t f ≤ sum u f := by
  intro n
  induction n with
  | zero =>
    intro t u hsize _
    have hempty : t.toList = [] := by
      rw [← length_eq_zero_iff, length_toList, hsize]
    rw [sum, hempty]; exact Nat.zero_le _
  | succ n ih =>
    intro t u hsize h
    cases hlist : t.toList with
    | nil =>
      rw [sum, hlist]; exact Nat.zero_le _
    | cons row rows =>
      have hrow : t[row.1]? = some row.2 := by
        rw [← mem_toList, hlist]; exact mem_cons_self
      obtain ⟨w, hw, hle⟩ := h row.1 row.2 hrow
      have hrest : sum (t.erase row.1) f ≤ sum (u.erase row.1) f := by
        refine ih ?_ fun k v hv => ?_
        · have := size_of_get? hrow; omega
        · rw [get?_erase_ite] at hv ⊢
          split at hv
          · cases hv
          · rename_i hne; rw [if_neg hne]; exact h k v hv
      rw [sum_of_get? f hrow, sum_of_get? f hw]; exact Nat.add_le_add hle hrest

theorem sum_eq_zero {f : κ → ν → M} (h : ∀ (k : κ) (v : ν), t[k]? = some v → f k v = 0) :
    sum t f = 0 := by
  refine List.sum_eq_zero fun x hx => ?_
  obtain ⟨⟨k, v⟩, hrow, rfl⟩ := List.mem_map.1 hx; exact h k v (mem_toList.1 hrow)

theorem exists_of_mem_sum {α : Type} {f : κ → ν → Multiset α} {a : α} (h : a ∈ sum t f) :
    ∃ (k : κ) (v : ν), t[k]? = some v ∧ a ∈ f k v := by
  have hrows : ∀ rows : List (κ × ν), a ∈ (rows.map fun row => f row.1 row.2).sum →
      ∃ row ∈ rows, a ∈ f row.1 row.2 := by
    intro rows hrow
    induction rows with
    | nil => cases Multiset.notMem_zero a hrow
    | cons row rows ih =>
      rw [map_cons, sum_cons, Multiset.mem_add] at hrow
      rcases hrow with hrow | hrow
      · exact ⟨row, mem_cons_self, hrow⟩
      · obtain ⟨row', hmem, hin⟩ := ih hrow; exact ⟨row', mem_cons_of_mem _ hmem, hin⟩
  obtain ⟨⟨k, v⟩, hrow, hin⟩ := hrows t.toList h; exact ⟨k, v, mem_toList.1 hrow, hin⟩

end Library.Table
