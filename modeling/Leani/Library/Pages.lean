import Leani.Library.Table
import Mathlib.Data.List.Perm.Subperm

/-!
# Pages of sorted rows

Rows in key order, read a page at a time: a page is cut off behind some number of rows, and what it
holds are the rows from its lower bound through its last key.
-/

namespace Library.Pages

open Std List ReflOrd

variable {κ ν : Type} [Ord κ] [TransOrd κ]

def Sorted (rows : List (κ × ν)) : Prop := rows.Pairwise fun a b => compare a.1 b.1 = .lt

theorem isLE_iff_not_lt {a b : κ} : (compare a b).isLE = true ↔ ¬ compare b a = .lt := by
  have hswap : compare b a = (compare a b).swap := OrientedCmp.eq_swap
  rw [hswap]
  cases compare a b <;> decide

theorem isLE_self (a : κ) : (compare a a).isLE = true := by
  rw [compare_self]; rfl

theorem isLE_of_lt {a b : κ} (h : compare a b = .lt) : (compare a b).isLE = true := by
  rw [h]; rfl

variable {rows : List (κ × ν)} {n : Nat}

theorem take_filter_isLE (h : Sorted rows) (last : κ)
    (hn : n ≤ (rows.filter fun row => (compare row.1 last).isLE).length) :
    (rows.filter fun row => (compare row.1 last).isLE).take n = rows.take n := by
  induction rows generalizing n with
  | nil => rfl
  | cons row rows ih =>
    obtain ⟨hrow, h⟩ := pairwise_cons.1 h
    by_cases hle : (compare row.1 last).isLE = true
    · rw [filter_cons, if_pos hle] at hn ⊢
      cases n with
      | zero => rfl
      | succ n => rw [take_succ_cons, take_succ_cons, ih h (Nat.succ_le_succ_iff.1 hn)]
    · -- Behind the key nothing is left.
      have hnone : rows.filter (fun row => (compare row.1 last).isLE) = [] := by
        refine filter_eq_nil_iff.2 fun row' hrow' hle' => hle ?_
        exact TransCmp.isLE_trans (isLE_of_lt (hrow row' hrow')) hle'
      rw [filter_cons, if_neg hle, hnone] at hn ⊢; rw [Nat.le_zero.1 hn]; rfl

variable {last : κ × ν}

theorem mem_take_iff (h : Sorted rows) (hlast : (rows.take n).getLast? = some last) (row : κ × ν) :
    row ∈ rows.take n ↔ row ∈ rows ∧ (compare row.1 last.1).isLE = true := by
  have hsplit := take_append_drop n rows
  obtain ⟨_, hfront⟩ := getLast?_eq_some_iff.1 hlast
  have hsort : (rows.take n ++ rows.drop n).Pairwise fun a b => compare a.1 b.1 = .lt := by
    rw [hsplit]; exact h
  obtain ⟨htake, -, hdrop⟩ := pairwise_append.1 hsort
  constructor
  · intro hrow
    refine ⟨mem_of_mem_take hrow, ?_⟩
    rw [hfront] at htake hrow
    rcases mem_append.1 hrow with hrow | hrow
    · have hbef := (pairwise_append.1 htake).2.2
      exact isLE_of_lt (hbef row hrow last (mem_singleton_self _))
    · rw [mem_singleton.1 hrow]; exact isLE_self _
  · rintro ⟨hrow, hle⟩
    rw [← hsplit, mem_append] at hrow
    refine hrow.resolve_right fun hrow => ?_
    exact isLE_iff_not_lt.1 hle (hdrop last (mem_of_getLast? hlast) row hrow)

theorem length_behind_lt (h : Sorted rows) (hlast : (rows.take n).getLast? = some last) :
    (rows.filter fun row => compare last.1 row.1 = .lt).length < rows.length := by
  have hmem := mem_of_mem_take (mem_of_getLast? hlast)
  refine length_filter_lt_length_iff_exists.2 ⟨last, hmem, ?_⟩
  simp [compare_self]

end Library.Pages
