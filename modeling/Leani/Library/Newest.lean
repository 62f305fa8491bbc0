import Leani.Library.Table
import Mathlib.Data.List.Nodup

/-!
# The newest item under a key

Of a list of items with keys, the last one under each key, and the items that no later one replaces.
-/

namespace Library

open Std List Option Table

variable {α κ : Type} [DecidableEq κ] {key : α → κ} {items later : List α} {a b : α} {k : κ}

def newest (key : α → κ) (items : List α) (k : κ) : Option α := items.reverse.find? fun a => key a = k

def keepNewest (key : α → κ) : List α → List α
  | [] => []
  | a :: items =>
    if items.any fun b => key b = key a then keepNewest key items else a :: keepNewest key items

@[simp] theorem newest_nil : newest key [] k = none := rfl

theorem newest_append :
    newest key (items ++ later) k = (newest key later k).or (newest key items k) := by
  simp [newest, find?_append]

theorem newest_cons :
    newest key (a :: items) k = (newest key items k).or (if key a = k then some a else none) := by
  rw [← singleton_append, newest_append]
  by_cases h : key a = k <;> simp [newest, h]

theorem newest_eq_none : newest key items k = none ↔ ∀ a ∈ items, key a ≠ k := by
  simp [newest, find?_eq_none]

theorem newest_mem (h : newest key items k = some a) : a ∈ items ∧ key a = k := by
  refine ⟨mem_reverse.1 (mem_of_find?_eq_some h), ?_⟩
  simpa using find?_some h

theorem exists_newest (key : α → κ) (ha : a ∈ items) : ∃ b, newest key items (key a) = some b := by
  rw [← ne_none_iff_exists', ne_eq, newest_eq_none]; exact fun h => h a ha rfl

theorem newest_greatest {R : α → α → Prop} (hrefl : ∀ a, R a a) (hord : items.Pairwise R)
    (h : newest key items k = some a) (hb : b ∈ items) (hkey : key b = k) : R b a := by
  induction items with
  | nil => cases hb
  | cons c items ih =>
    rw [pairwise_cons] at hord
    rw [newest_cons] at h
    cases hnew : newest key items k with
    | some d =>
      rw [hnew, some_or, some.injEq] at h
      subst h
      rcases mem_cons.1 hb with rfl | hb
      · exact hord.1 d (newest_mem hnew).1
      · exact ih hord.2 hnew hb
    | none =>
      rw [hnew, none_or] at h
      rcases mem_cons.1 hb with rfl | hb
      · rw [if_pos hkey, some.injEq] at h; exact h ▸ hrefl b
      · exact absurd hkey (newest_eq_none.1 hnew b hb)

theorem any_key_iff : (items.any fun b => key b = k) = true ↔ ∃ b ∈ items, key b = k := by
  simp [List.any_eq_true]

theorem keepNewest_sublist : (keepNewest key items).Sublist items := by
  induction items with
  | nil => exact .slnil
  | cons a items ih =>
    rw [keepNewest]
    split
    · exact ih.cons a
    · exact ih.cons_cons a

theorem newest_keepNewest : newest key (keepNewest key items) k = newest key items k := by
  induction items with
  | nil => rfl
  | cons a items ih =>
    rw [keepNewest]
    split
    · rename_i h
      rw [newest_cons, ih]
      by_cases hkey : key a = k
      · obtain ⟨_, hb, hsame⟩ := any_key_iff.1 h
        obtain ⟨_, hc⟩ := exists_newest key hb; rw [← hkey, ← hsame, hc, some_or]
      · rw [if_neg hkey, or_none]
    · rw [newest_cons, newest_cons, ih]

theorem nodup_keepNewest : ((keepNewest key items).map key).Nodup := by
  induction items with
  | nil => exact nodup_nil
  | cons a items ih =>
    rw [keepNewest]
    split
    · exact ih
    · rename_i h
      rw [map_cons, nodup_cons]
      refine ⟨fun hmem => h (any_key_iff.2 ?_), ih⟩
      obtain ⟨b, hb, hsame⟩ := mem_map.1 hmem; exact ⟨b, keepNewest_sublist.subset hb, hsame⟩

theorem newest_of_nodup (hnodup : (items.map key).Nodup) (ha : a ∈ items) :
    newest key items (key a) = some a := by
  obtain ⟨_, hb⟩ := exists_newest key ha
  rw [hb, inj_on_of_nodup_map hnodup (newest_mem hb).1 ha (newest_mem hb).2]

theorem filter_keepNewest :
    (keepNewest key items).filter (fun a => key a = k) = (newest key items k).toList := by
  induction items with
  | nil => rfl
  | cons a items ih =>
    rw [keepNewest, newest_cons]
    by_cases h : ∃ b ∈ items, key b = key a
    · rw [if_pos (any_key_iff.2 h), ih]
      by_cases hkey : key a = k
      · obtain ⟨b, hb, hsame⟩ := h
        obtain ⟨_, hc⟩ := exists_newest key hb; rw [← hkey, ← hsame, hc, some_or]
      · rw [if_neg hkey, or_none]
    · rw [if_neg fun hany => h (any_key_iff.1 hany), filter_cons, ih]
      by_cases hkey : key a = k
      · have hnone := newest_eq_none.2 fun b hb hb' => h ⟨b, hb, hb'.trans hkey.symm⟩
        simp [hkey, hnone]
      · simp [hkey]

variable [Ord κ] [TransOrd κ] [LawfulEqOrd κ]

def indexRows (key : α → κ) (items : List α) (start : Nat) : List (κ × Nat) :=
  (items.zipIdx start).map fun item => (key item.1, item.2)

omit [DecidableEq κ] [Ord κ] [TransOrd κ] [LawfulEqOrd κ] in
variable {start : Nat}

theorem indexRows_cons :
    indexRows key (a :: items) start = (key a, start) :: indexRows key items (start + 1) := rfl

theorem exists_getElem?_indexRows (start : Nat) (h : ∃ b ∈ items, key b = k) : ∀ t : Table κ Nat,
    ∃ index, (insertRows t (indexRows key items start))[k]? = some index ∧ start ≤ index := by
  induction items generalizing start with
  | nil => simp at h
  | cons c items ih =>
    intro t
    rw [indexRows_cons, insertRows_cons]
    by_cases hlater : ∃ b ∈ items, key b = k
    · obtain ⟨index, hindex, _⟩ := ih (start + 1) hlater (t.insert (key c) start)
      exact ⟨index, hindex, by omega⟩
    · obtain ⟨b, hb, hkey⟩ := h
      rcases mem_cons.1 hb with rfl | hb
      · refine ⟨start, ?_, le_rfl⟩
        rw [get?_insertRows_of_notMem, hkey, getElem?_insert_self]
        intro hmem
        obtain ⟨_, hrow, hsame⟩ := mem_map.1 hmem
        obtain ⟨item, hitem, rfl⟩ := mem_map.1 hrow
        exact hlater ⟨item.1, fst_mem_of_mem_zipIdx hitem, hsame⟩
      · exact absurd ⟨b, hb, hkey⟩ hlater

theorem keepNewest_eq_filter {t : Table κ Nat} : ((items.zipIdx start).filter fun item =>
      (insertRows t (indexRows key items start))[key item.1]? = some item.2).map Prod.fst =
        keepNewest key items := by
  induction items generalizing start t with
  | nil => rfl
  | cons a items ih =>
    rw [indexRows_cons, insertRows_cons, zipIdx_cons, filter_cons, keepNewest]
    by_cases hlater : ∃ b ∈ items, key b = key a
    · obtain ⟨index, hindex, _⟩ :=
        exists_getElem?_indexRows (start + 1) hlater (t.insert (key a) start)
      have hne : ¬ index = start := by omega
      rw [if_pos (any_key_iff.2 hlater), if_neg (by simpa [hindex] using hne)]; exact ih
    · have hhead : (insertRows (t.insert (key a) start)
          (indexRows key items (start + 1)))[key a]? = some start := by
        rw [get?_insertRows_of_notMem, getElem?_insert_self]
        intro hmem
        obtain ⟨_, hrow, hsame⟩ := mem_map.1 hmem
        obtain ⟨item, hitem, rfl⟩ := mem_map.1 hrow
        exact hlater ⟨item.1, fst_mem_of_mem_zipIdx hitem, hsame⟩
      rw [if_neg fun h => hlater (any_key_iff.1 h), if_pos (by simpa using hhead), map_cons, ih]

end Library
