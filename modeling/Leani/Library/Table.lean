import Std.Data.ExtTreeMap
import Mathlib.Data.List.Sort
import Mathlib.Tactic.Common

/-!
# Keyed tables

A table with a primary key is a finite map in key order. On top of the map API this file has the
two statements a relational store runs over many rows at once, an update and a delete with a
condition, and the effect of writing a list of rows back.
-/

namespace Library

open Std List ExtTreeMap Prod

section Pair

variable {α β : Type} [Ord α] [Ord β]

instance pairOrd : Ord (α × β) := lexOrd

theorem compare_pair (a b : α × β) : compare a b = (compare a.1 b.1).then (compare a.2 b.2) := rfl

instance pairTransOrd [TransOrd α] [TransOrd β] : TransOrd (α × β) :=
  inferInstanceAs (TransCmp (compareLex (compareOn Prod.fst) (compareOn Prod.snd)))

instance pairLawfulEqOrd [LawfulEqOrd α] [LawfulEqOrd β] : LawfulEqOrd (α × β) where
  eq_of_compare {a b} h := by
    rw [compare_pair, Ordering.then_eq_eq] at h
    exact Prod.ext (LawfulEqOrd.eq_of_compare h.1) (LawfulEqOrd.eq_of_compare h.2)

end Pair

abbrev Table (κ ν : Type) [Ord κ] := ExtTreeMap κ ν

namespace Table

variable {κ ν : Type} [Ord κ] [TransOrd κ] [LawfulEqOrd κ]

omit [LawfulEqOrd κ] in
theorem not_mem_empty {k : κ} {v : ν} (h : (∅ : Table κ ν)[k]? = some v) : False := by
  rw [getElem?_empty] at h; cases h

omit [LawfulEqOrd κ] in
theorem mem_of_getElem? {t : Table κ ν} {k : κ} {v : ν} (h : t[k]? = some v) : k ∈ t :=
  mem_iff_isSome_getElem?.2 (h ▸ rfl)

def updateWhere (t : Table κ ν) (p : κ → ν → Bool) (f : ν → ν) : Table κ ν :=
  t.map fun k v => if p k v then f v else v

def deleteWhere (t : Table κ ν) (p : κ → ν → Bool) : Table κ ν :=
  t.filter fun k v => !p k v

def rowsWhere (t : Table κ ν) (p : κ → ν → Bool) : List (κ × ν) :=
  t.toList.filter fun row => p row.1 row.2

omit [LawfulEqOrd κ] in
theorem getElem?_insert_self (t : Table κ ν) (k : κ) (v : ν) : (t.insert k v)[k]? = some v := by
  simp

variable {a k : κ}

theorem getElem?_insert_of_ne (t : Table κ ν) (v : ν) (h : k ≠ a) : (t.insert k v)[a]? = t[a]? := by
  rw [ExtTreeMap.getElem?_insert, if_neg]; exact fun hc => h (LawfulEqOrd.eq_of_compare hc)

theorem get?_insert_ite [DecidableEq κ] (t : Table κ ν) (a k : κ) (v : ν) :
    (t.insert k v)[a]? = if a = k then some v else t[a]? := by
  by_cases h : a = k
  · subst h; rw [if_pos rfl, getElem?_insert_self]
  · rw [if_neg h, getElem?_insert_of_ne t v (Ne.symm h)]

theorem get?_erase_ite [DecidableEq κ] (t : Table κ ν) (a k : κ) :
    (t.erase k)[a]? = if a = k then none else t[a]? := by
  rw [getElem?_erase]
  by_cases h : a = k
  · subst h; simp
  · rw [if_neg h, if_neg]; exact fun hc => h (LawfulEqOrd.eq_of_compare hc).symm

theorem insert_cases [DecidableEq κ] {t : Table κ ν} {a k : κ} {v w : ν}
    (h : (t.insert k v)[a]? = some w) : a = k ∧ v = w ∨ a ≠ k ∧ t[a]? = some w := by
  rw [get?_insert_ite] at h
  split at h
  · exact .inl ⟨‹_›, Option.some.inj h⟩
  · exact .inr ⟨‹_›, h⟩

theorem erase_cases [DecidableEq κ] {t : Table κ ν} {a k : κ} {v : ν}
    (h : (t.erase k)[a]? = some v) : a ≠ k ∧ t[a]? = some v := by
  rw [get?_erase_ite] at h
  split at h
  · cases h
  · exact ⟨‹_›, h⟩

@[simp] theorem get?_updateWhere (t : Table κ ν) (p : κ → ν → Bool) (f : ν → ν) (k : κ) :
    (updateWhere t p f)[k]? = t[k]?.map fun v => if p k v then f v else v := by
  rw [updateWhere, ExtTreeMap.getElem?_map]

@[simp] theorem get?_deleteWhere (t : Table κ ν) (p : κ → ν → Bool) (k : κ) :
    (deleteWhere t p)[k]? = t[k]?.filter fun v => !p k v := by
  rw [deleteWhere, getElem?_filter']

variable {t : Table κ ν} {p : κ → ν → Bool} {v : ν}

theorem get?_updateWhere_eq_some {f : ν → ν} :
    (updateWhere t p f)[k]? = some v ↔ ∃ u, t[k]? = some u ∧ (if p k u then f u else u) = v := by
  rw [get?_updateWhere, Option.map_eq_some_iff]

theorem get?_updateWhere_of_not {f : ν → ν} (h : ∀ v, t[k]? = some v → ¬ p k v = true) :
    (updateWhere t p f)[k]? = t[k]? := by
  rw [get?_updateWhere]
  cases hv : t[k]? with
  | none => rfl
  | some v => rw [Option.map_some, if_neg (h v hv)]

theorem get?_deleteWhere_of_not (h : ∀ v, t[k]? = some v → ¬ p k v = true) :
    (deleteWhere t p)[k]? = t[k]? := by
  rw [get?_deleteWhere]
  cases hv : t[k]? with
  | none => rfl
  | some v =>
    refine Option.filter_some_pos ?_
    rw [Bool.not_eq_eq_eq_not, Bool.not_true]; exact Bool.eq_false_iff.2 (h v hv)

theorem get?_deleteWhere_of (h : ∀ v, t[k]? = some v → p k v = true) :
    (deleteWhere t p)[k]? = none := by
  rw [get?_deleteWhere, Option.filter_eq_none_iff]
  intro v hv; rw [h v hv]; exact Bool.false_ne_true

theorem get?_deleteWhere_key {q : κ → Bool} :
    (deleteWhere t fun k _ => q k)[k]? = if q k then none else t[k]? := by
  split
  · rename_i hq; exact get?_deleteWhere_of fun _ _ => hq
  · rename_i hq; exact get?_deleteWhere_of_not fun _ _ => hq

theorem get?_deleteWhere_eq_some :
    (deleteWhere t p)[k]? = some v ↔ t[k]? = some v ∧ p k v = false := by
  rw [get?_deleteWhere, Option.filter_eq_some_iff, Bool.not_eq_eq_eq_not, Bool.not_true]

theorem mem_insert_iff {t : Table κ ν} {a k : κ} {v : ν} : a ∈ t.insert k v ↔ a = k ∨ a ∈ t := by
  rw [mem_insert, LawfulEqCmp.compare_eq_iff_eq, eq_comm]

theorem mem_erase_iff {t : Table κ ν} {a k : κ} : a ∈ t.erase k ↔ a ≠ k ∧ a ∈ t := by
  rw [mem_erase, ne_eq, LawfulEqCmp.compare_eq_iff_eq, ne_comm]

theorem mem_toList {t : Table κ ν} {k : κ} {v : ν} : (k, v) ∈ t.toList ↔ t[k]? = some v :=
  mem_toList_iff_getElem?_eq_some

@[simp] theorem mem_rowsWhere {t : Table κ ν} {p : κ → ν → Bool} {k : κ} {v : ν} :
    (k, v) ∈ rowsWhere t p ↔ t[k]? = some v ∧ p k v = true := by
  rw [rowsWhere, mem_filter, mem_toList]

theorem nodup_keys_rowsWhere (t : Table κ ν) (p : κ → ν → Bool) :
    ((rowsWhere t p).map fst).Nodup := by
  have h : (t.toList.filter fun row => p row.1 row.2).Pairwise
      (fun a b => ¬ compare a.1 b.1 = .eq) := (distinct_keys_toList).filter _
  rw [rowsWhere, nodup_iff_pairwise_ne, pairwise_map]
  refine h.imp fun {a b} hne e => hne ?_
  rw [e]; exact ReflOrd.compare_self

omit [LawfulEqOrd κ] in
theorem sorted_rowsWhere (t : Table κ ν) (p : κ → ν → Bool) :
    (rowsWhere t p).Pairwise fun a b => compare a.1 b.1 = .lt :=
  ordered_keys_toList.filter _

variable {rows : List (κ × ν)}

theorem rowsWhere_eq (hsort : rows.Pairwise fun a b => compare a.1 b.1 = .lt)
    (hmem : ∀ k v, (k, v) ∈ rows ↔ t[k]? = some v ∧ p k v = true) : rowsWhere t p = rows := by
  let r : κ × ν → κ × ν → Prop := fun a b => compare a.1 b.1 = .lt
  have : Std.Irrefl r := ⟨fun a h => by
    have h : compare a.1 a.1 = .lt := h; rw [ReflOrd.compare_self] at h; cases h⟩
  have : Std.Antisymm r := ⟨fun a b h h' => by
    have h : compare a.1 b.1 = .lt := h; rw [@OrientedCmp.eq_swap _ compare, h'] at h; cases h⟩
  refine List.Pairwise.eq_of_mem_iff (r := r) (sorted_rowsWhere t p) hsort fun ⟨k, v⟩ => ?_
  rw [mem_rowsWhere, hmem]

def firstWhere (t : Table κ ν) (p : κ → ν → Bool) : Option (κ × ν) := (rowsWhere t p).head?

def lastWhere (t : Table κ ν) (p : κ → ν → Bool) : Option (κ × ν) := (rowsWhere t p).getLast?

theorem lastWhere_eq_none : lastWhere t p = none ↔ ∀ k v, t[k]? = some v → ¬ p k v = true := by
  rw [lastWhere, getLast?_eq_none_iff, eq_nil_iff_forall_not_mem]
  constructor
  · intro h k v hv hp; exact h (k, v) (mem_rowsWhere.2 ⟨hv, hp⟩)
  · rintro h ⟨k, v⟩ hmem
    obtain ⟨hv, hp⟩ := mem_rowsWhere.1 hmem; exact h k v hv hp

theorem firstWhere_eq_some (h : firstWhere t p = some (k, v)) : t[k]? = some v ∧ p k v = true ∧
      ∀ k' v', t[k']? = some v' → p k' v' = true → k' = k ∨ compare k k' = .lt := by
  obtain ⟨_, hrows⟩ := head?_eq_some_iff.1 h
  have hmem : (k, v) ∈ rowsWhere t p := by
    rw [hrows]; exact mem_cons_self
  refine ⟨(mem_rowsWhere.1 hmem).1, (mem_rowsWhere.1 hmem).2, fun k' v' hv hp => ?_⟩
  have hmem' := mem_rowsWhere.2 ⟨hv, hp⟩
  have hsort := sorted_rowsWhere t p
  rw [hrows, pairwise_cons] at hsort
  rw [hrows, mem_cons] at hmem'
  rcases hmem' with he | hmem'
  · exact .inl (congrArg fst he)
  · exact .inr (hsort.1 _ hmem')

theorem lastWhere_eq_some (h : lastWhere t p = some (k, v)) : t[k]? = some v ∧ p k v = true ∧
      ∀ k' v', t[k']? = some v' → p k' v' = true → k' = k ∨ compare k' k = .lt := by
  obtain ⟨_, hrows⟩ := getLast?_eq_some_iff.1 h
  have hmem : (k, v) ∈ rowsWhere t p := by
    rw [hrows]; exact mem_append_right _ mem_cons_self
  refine ⟨(mem_rowsWhere.1 hmem).1, (mem_rowsWhere.1 hmem).2, fun k' v' hv hp => ?_⟩
  have hmem' := mem_rowsWhere.2 ⟨hv, hp⟩
  have hsort := sorted_rowsWhere t p
  rw [hrows, pairwise_append] at hsort
  rw [hrows, mem_append] at hmem'
  rcases hmem' with hmem' | he
  · exact .inr (hsort.2.2 _ hmem' _ mem_cons_self)
  · rw [mem_singleton] at he; exact .inl (congrArg fst he)

theorem exists_firstWhere (hv : t[k]? = some v) (hp : p k v = true) :
    ∃ row, firstWhere t p = some row := by
  cases h : firstWhere t p with
  | some row => exact ⟨row, rfl⟩
  | none =>
    rw [firstWhere, head?_eq_none_iff] at h
    have hmem := mem_rowsWhere.2 ⟨hv, hp⟩; rw [h] at hmem; cases hmem

theorem isSome_firstWhere :
    (firstWhere t p).isSome = true ↔ ∃ k v, t[k]? = some v ∧ p k v = true := by
  constructor
  · intro h
    obtain ⟨⟨k, v⟩, hfirst⟩ := Option.isSome_iff_exists.1 h
    obtain ⟨hv, hp, -⟩ := firstWhere_eq_some hfirst; exact ⟨k, v, hv, hp⟩
  · rintro ⟨k, v, hv, hp⟩
    obtain ⟨_, hfirst⟩ := exists_firstWhere hv hp; rw [hfirst]; rfl

theorem exists_lastWhere (hv : t[k]? = some v) (hp : p k v = true) :
    ∃ row, lastWhere t p = some row := by
  cases h : lastWhere t p with
  | some row => exact ⟨row, rfl⟩
  | none => exact absurd hp (lastWhere_eq_none.1 h k v hv)

theorem ext {u : Table κ ν} (h : ∀ k : κ, t[k]? = u[k]?) : t = u :=
  ext_getElem? h

theorem erase_insert_of_notMem [DecidableEq κ] (h : k ∉ t) : (t.insert k v).erase k = t := by
  refine Table.ext fun a => ?_
  rw [get?_erase_ite, get?_insert_ite]
  split
  · rename_i ha
    rw [ha, getElem?_eq_none h]
  · rfl

def insertRows (t : Table κ ν) (rows : List (κ × ν)) : Table κ ν :=
  rows.foldl (fun t row => t.insert row.1 row.2) t

omit [LawfulEqOrd κ] in
@[simp] theorem insertRows_nil (t : Table κ ν) : insertRows t [] = t := rfl

omit [LawfulEqOrd κ] in
@[simp] theorem insertRows_cons (t : Table κ ν) (row : κ × ν) (rows : List (κ × ν)) :
    insertRows t (row :: rows) = insertRows (t.insert row.1 row.2) rows := rfl

omit [LawfulEqOrd κ] in
theorem insertRows_append (t : Table κ ν) (rows rows' : List (κ × ν)) :
    insertRows t (rows ++ rows') = insertRows (insertRows t rows) rows' :=
  foldl_append

theorem get?_insertRows_of_notMem :
    ∀ {t : Table κ ν} {k : κ}, k ∉ rows.map fst → (insertRows t rows)[k]? = t[k]? := by
  induction rows with
  | nil => intro t k _; rfl
  | cons row rows ih =>
    intro t k hk
    rw [map_cons, mem_cons, not_or] at hk
    rw [insertRows_cons, ih hk.2, getElem?_insert_of_ne _ _ (Ne.symm hk.1)]

theorem get?_insertRows_of_mem : ∀ {t : Table κ ν}
    {k : κ} {v : ν}, (rows.map fst).Nodup → (k, v) ∈ rows → (insertRows t rows)[k]? = some v := by
  induction rows with
  | nil => intro t k v _ h; cases h
  | cons row rows ih =>
    intro t k v hn h
    rw [map_cons, nodup_cons] at hn
    rw [insertRows_cons]
    rcases mem_cons.1 h with rfl | h
    · rw [get?_insertRows_of_notMem hn.1, getElem?_insert_self]
    · exact ih hn.2 h

theorem mem_insertRows_empty {rows : List (κ × ν)} {k : κ} :
    k ∈ insertRows ∅ rows ↔ k ∈ rows.map fst := by
  have hmem : ∀ t : Table κ ν, k ∈ insertRows t rows ↔ k ∈ t ∨ k ∈ rows.map fst := by
    induction rows with
    | nil => simp
    | cons row rows ih =>
      intro t
      rw [insertRows_cons, ih, mem_insert_iff, map_cons, mem_cons, or_comm (a := k = _), or_assoc]
  rw [hmem]; simp

theorem insertRows_injective {rows' : List (κ × ν)} (hkeys : rows.map fst = rows'.map fst)
    (hnodup : (rows.map fst).Nodup) (h : (insertRows ∅ rows : Table κ ν) = insertRows ∅ rows') :
    rows = rows' := by
  have hlookup : ∀ row ∈ rows, ∀ row' ∈ rows', row.1 = row'.1 → row = row' := by
    rintro ⟨k, v⟩ hrow ⟨_, v'⟩ hrow' rfl
    have hv := @get?_insertRows_of_mem _ _ _ _ _ rows ∅ k v hnodup hrow
    have hv' := @get?_insertRows_of_mem _ _ _ _ _ rows' ∅ k v' (hkeys ▸ hnodup) hrow'
    rw [h, hv', Option.some.injEq] at hv; rw [hv]
  clear h hnodup
  induction rows generalizing rows' with
  | nil =>
    rw [map_nil, eq_comm, map_eq_nil_iff] at hkeys; rw [hkeys]
  | cons row rows ih =>
    obtain ⟨row', rows', rfl, hkey, hrest⟩ := map_eq_cons_iff.1 hkeys.symm
    rw [hlookup row mem_cons_self row' mem_cons_self hkey.symm,
      ih hrest.symm fun r hr r' hr' => hlookup r (mem_cons_of_mem _ hr) r' (mem_cons_of_mem _ hr')]

def eraseRows (t : Table κ ν) (rows : List (κ × ν)) : Table κ ν :=
  rows.foldl (fun t row => t.erase row.1) t

omit [LawfulEqOrd κ] in
@[simp] theorem eraseRows_nil (t : Table κ ν) : eraseRows t [] = t := rfl

omit [LawfulEqOrd κ] in
@[simp] theorem eraseRows_cons (t : Table κ ν) (row : κ × ν) (rows : List (κ × ν)) :
    eraseRows t (row :: rows) = eraseRows (t.erase row.1) rows := rfl

theorem getElem?_eraseRows [DecidableEq κ] :
    ∀ {t : Table κ ν}, (eraseRows t rows)[k]? = if k ∈ rows.map fst then none else t[k]? := by
  induction rows with
  | nil => intro t; rfl
  | cons row rows ih =>
    intro t
    rw [eraseRows_cons, ih, get?_erase_ite, map_cons]
    by_cases hk : k = row.1
    · rw [if_pos hk, if_pos (mem_cons.2 (.inl hk)), ite_self]
    · rw [if_neg hk]
      refine if_congr ?_ rfl rfl
      rw [mem_cons, or_iff_right hk]

theorem rowsWhere_eraseRows_take [DecidableEq κ] (t : Table κ ν) (p : κ → ν → Bool) (n : Nat) :
    rowsWhere (eraseRows t ((rowsWhere t p).take n)) p = (rowsWhere t p).drop n := by
  have hnodup := nodup_keys_rowsWhere t p
  rw [← take_append_drop n (rowsWhere t p), map_append] at hnodup
  refine rowsWhere_eq ((sorted_rowsWhere t p).drop) fun k _ => ?_
  rw [getElem?_eraseRows]
  constructor
  · intro hmem
    rw [if_neg fun h => (nodup_append.1 hnodup).2.2 k h k (mem_map_of_mem hmem) rfl]
    exact mem_rowsWhere.1 (mem_of_mem_drop hmem)
  · rintro ⟨hv, hp⟩
    rw [Option.ite_none_left_eq_some] at hv
    have hmem := mem_rowsWhere.2 ⟨hv.2, hp⟩
    rw [← take_append_drop n (rowsWhere t p), mem_append] at hmem
    exact hmem.resolve_left fun h => hv.1 (mem_map_of_mem h)

theorem deleteWhere_eraseRows [DecidableEq κ] (h : ∀ row ∈ rows, row ∈ rowsWhere t p) :
    deleteWhere (eraseRows t rows) p = deleteWhere t p := by
  refine ext fun _ => ?_
  rw [get?_deleteWhere, get?_deleteWhere, getElem?_eraseRows]
  split
  · rename_i hk
    obtain ⟨⟨k', _⟩, hmem, rfl⟩ := mem_map.1 hk
    obtain ⟨hv, hp⟩ := mem_rowsWhere.1 (h _ hmem)
    change none = Option.filter _ t[k']?; rw [hv, Option.filter_some_neg (by rw [hp]; decide)]
  · rfl

theorem deleteWhere_of_rowsWhere_nil (h : rowsWhere t p = []) : deleteWhere t p = t := by
  refine ext fun _ => get?_deleteWhere_of_not fun _ hv hp => ?_
  have hmem := mem_rowsWhere.2 ⟨hv, hp⟩; rw [h] at hmem; cases hmem

end Table

end Library
