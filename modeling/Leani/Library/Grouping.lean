import Leani.Library.Table

/-!
# Grouping

A list grouped by a key: every key with the items that have it, in their order. And what a search of
a table from its last row finds.
-/

namespace Library

open Std List Table ExtTreeMap

variable {κ ν β : Type} [Ord κ] [TransOrd κ]

def groupStep (key : ν → κ) (groups : Table κ (List ν)) (item : ν) : Table κ (List ν) :=
  groups.insert (key item) (groups.getD (key item) [] ++ [item])

def groupBy (key : ν → κ) (items : List ν) : Table κ (List ν) :=
  items.foldl (groupStep key) ∅

variable [LawfulEqOrd κ]

private theorem getElem?_foldl_groupStep [DecidableEq κ] (key : ν → κ) (k : κ) (items : List ν) :
    ∀ groups : Table κ (List ν), (∀ group, groups[k]? = some group → group ≠ []) →
      (items.foldl (groupStep key) groups)[k]? =
        (if (groups[k]?).getD [] ++ items.filter (key · = k) = [] then none
          else some ((groups[k]?).getD [] ++ items.filter (key · = k))) := by
  induction items with
  | nil =>
    intro groups hgroups
    cases h : groups[k]? with
    | none => simp [h]
    | some group => simp [h, hgroups group h]
  | cons item rest ih =>
    intro groups hgroups
    have hnext : (groupStep key groups item)[k]? =
        if key item = k then some ((groups[k]?).getD [] ++ [item]) else groups[k]? := by
      unfold groupStep
      rw [get?_insert_ite]
      by_cases hk : key item = k
      · subst hk; simp [getD_eq_getD_getElem?]
      · simp [hk, Ne.symm hk]
    rw [foldl_cons, ih]
    · rw [hnext]
      by_cases hk : key item = k
      · simp [hk]
      · simp [hk]
    · intro group hgrp
      rw [hnext] at hgrp
      split at hgrp
      · cases hgrp; simp
      · exact hgroups group hgrp

theorem getElem?_groupBy [DecidableEq κ] (key : ν → κ) (items : List ν) (k : κ) :
    (groupBy key items)[k]? =
      (if items.filter (key · = k) = [] then none else some (items.filter (key · = k))) := by
  unfold groupBy
  rw [getElem?_foldl_groupStep key k items ∅ (by
    intro _ h; exact (not_mem_empty h).elim)]
  simp

theorem group_eq [DecidableEq κ] {key : ν → κ} {items : List ν} {k : κ} {group : List ν}
    (h : (groupBy key items)[k]? = some group) : group = items.filter (key · = k) ∧ group ≠ [] := by
  rw [getElem?_groupBy] at h
  split at h
  · cases h
  · rename_i hne; cases h; exact ⟨rfl, hne⟩

theorem exists_group [DecidableEq κ] {key : ν → κ} {items : List ν} {item : ν} (h : item ∈ items) :
    ∃ group, (groupBy key items)[key item]? = some group := by
  have hmem : item ∈ items.filter (key · = key item) := by simp [h]
  exact ⟨_, by rw [getElem?_groupBy, if_neg (ne_nil_of_mem hmem)]⟩

variable {t : Table κ ν} {f : κ × ν → Option β}

theorem findSome?_reverse_toList {b : β} (h : t.toList.reverse.findSome? f = some b) :
    ∃ k v, t[k]? = some v ∧ f (k, v) = some b ∧
      ∀ k' v', t[k']? = some v' → compare k k' = .lt → f (k', v') = none := by
  obtain ⟨bef, ⟨k, v⟩, after, hsplit, hf, hbef⟩ := findSome?_eq_some_iff.1 h
  have hlist : t.toList = after.reverse ++ (k, v) :: bef.reverse := by
    rw [← reverse_reverse t.toList, hsplit]; simp
  have hord : t.toList.Pairwise fun a b => compare a.1 b.1 = .lt :=
    ordered_keys_toList
  refine ⟨k, v, ?_, hf, ?_⟩
  · rw [← mem_toList, hlist]; simp
  · intro k' v' hv' hlt
    have hmem := mem_toList.2 hv'
    rw [hlist, mem_append, mem_cons] at hmem
    rw [hlist, pairwise_append] at hord
    rcases hmem with hmem | hmem | hmem
    · have hbelow := hord.2.2 _ hmem (k, v) mem_cons_self
      rw [OrientedCmp.gt_of_lt hbelow] at hlt; cases hlt
    · cases hmem; simp at hlt
    · exact hbef _ (mem_reverse.1 hmem)

theorem of_findSome?_reverse_toList_eq_none (h : t.toList.reverse.findSome? f = none)
    {k : κ} {v : ν} (hv : t[k]? = some v) : f (k, v) = none := by
  exact findSome?_eq_none_iff.1 h _ (mem_reverse.2 (mem_toList.2 hv))

end Library
