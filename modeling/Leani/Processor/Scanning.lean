import Leani.Library.Pages
import Leani.Library.Sums
import Leani.Processor.Reducer

/-!
# Prefix scans

A reducer that scans a prefix sees the committed rows with its own writes applied. The committed
rows come in pages, and deletes of the reducer may hide a whole page, so pages are read until enough
rows are visible; a write of the reducer counts once everything before it was read.
-/

namespace Leani.Processor

open Library Std List Option Table ExtTreeMap Pages Prod ReflOrd TransCmp

theorem lt_append_zero {k last : Bytes} :
    compare k (last ++ [0]) = .lt ↔ (compare k last).isLE = true := by
  induction last generalizing k with
  | nil =>
    cases k with
    | nil => simp
    | cons b bs =>
      have hb : compare b 0 ≠ .lt := by
        rw [ne_eq, Std.compare_eq_lt]; exact Nat.not_lt_zero b.toNat
      have hbs : compare bs [] ≠ .lt := by cases bs <;> simp
      simp only [List.nil_append, List.compare_cons_cons, List.compare_cons_nil]
      cases h : compare b 0 with
      | lt => exact absurd h hb
      | eq => simpa using hbs
      | gt => simp
  | cons c last ih =>
    cases k with
    | nil => simp
    | cons b bs =>
      simp only [List.cons_append, List.compare_cons_cons]
      cases compare b c with
      | lt => simp
      | eq => simpa using ih
      | gt => simp

theorem isPrefixOf_iff {start k : Bytes} : start.isPrefixOf k = true ↔ (compare start k).isLE = true ∧
      ((prefixUpperBound start).all fun upper => compare k upper = .lt) = true := by
  induction start generalizing k with
  | nil => simp [prefixUpperBound, List.isLE_compare_nil_left]
  | cons b bs ih =>
    cases k with
    | nil => simp
    | cons c cs =>
      by_cases hbc : b = c
      · subst hbc
        have hself : compare b b = .eq := compare_self
        have ih := @ih cs
        have hsucc : b ≠ 255 → compare b (b + 1) = .lt := by
          intro hb
          rw [Std.compare_eq_lt, UInt8.lt_iff_toNat_lt]
          have hlt : b.toNat ≠ 255 := fun h => hb (UInt8.toNat.inj h)
          have hbound := b.toNat_lt
          rw [UInt8.toNat_add]
          have hone : (1 : UInt8).toNat = 1 := rfl; omega
        rw [prefixUpperBound]
        cases hupper : prefixUpperBound bs with
        | some upper =>
          rw [hupper] at ih; simpa [List.compare_cons_cons, hself] using ih
        | none =>
          rw [hupper] at ih
          by_cases hb : b = 255
          · simpa [List.compare_cons_cons, hself, hb] using ih
          · simpa [List.compare_cons_cons, hself, hb, hsucc hb] using ih
      · -- Another first byte is smaller, or not below the upper bound.
        have hstarts : (b :: bs).isPrefixOf (c :: cs) = false := by
          simp [isPrefixOf, hbc]
        rw [hstarts]
        refine iff_of_false nofun ?_
        rintro ⟨hle, hupper⟩
        have hlt : compare b c = .lt := by
          rw [List.compare_cons_cons] at hle
          cases h : compare b c with
          | lt => rfl
          | eq => exact absurd (LawfulEqOrd.eq_of_compare h) hbc
          | gt =>
            rw [h] at hle; cases hle
        have hgt : compare c b = .gt := by
          have hswap : compare c b = (compare b c).swap := OrientedCmp.eq_swap; rw [hswap, hlt]; rfl
        rw [prefixUpperBound] at hupper
        cases hbs : prefixUpperBound bs with
        | some upper =>
          rw [hbs] at hupper; simp [List.compare_cons_cons, hgt] at hupper
        | none =>
          rw [Std.compare_eq_lt, UInt8.lt_iff_toNat_lt] at hlt
          have hbound := c.toNat_lt
          have hb : b ≠ 255 := by
            rintro rfl
            have h255 : (255 : UInt8).toNat = 255 := rfl; omega
          rw [hbs] at hupper
          rw [if_neg hb, Option.all_some, decide_eq_true_iff, List.compare_cons_cons] at hupper
          have hnot : compare c (b + 1) ≠ .lt := by
            rw [ne_eq, Std.compare_eq_lt, UInt8.lt_iff_toNat_lt, UInt8.toNat_add]
            have hone : (1 : UInt8).toNat = 1 := rfl; omega
          cases h : compare c (b + 1) with
          | lt => exact hnot h
          | eq =>
            rw [h] at hupper
            cases cs <;> simp at hupper
          | gt =>
            rw [h] at hupper; cases hupper

def committedRows (t : Table StateKey Bytes) (scope : String) : List (Bytes × Bytes) :=
  (Table.rowsWhere t fun key _ => key.1 = scope).map fun row => (row.1.2, row.2)

def applyWrites (rows : Table Bytes Bytes) (written : Table Bytes (Option Bytes)) :
    Table Bytes Bytes :=
  written.toList.foldl (fun rows write => writeRow rows write.1 write.2) rows

def visibleRows (t : Table StateKey Bytes) (overlay : Table StateKey (OverlayValue (Option Bytes)))
    (scope : String) : Table Bytes Bytes :=
  applyWrites (Table.insertRows ∅ (committedRows t scope)) (writtenUnder overlay scope [])

theorem mem_committedRows {t : Table StateKey Bytes} {scope : String} {k v : Bytes} :
    (k, v) ∈ committedRows t scope ↔ t[((scope, k) : StateKey)]? = some v := by
  rw [committedRows, List.mem_map]
  constructor
  · rintro ⟨⟨⟨_, _⟩, _⟩, hrow, heq⟩
    obtain ⟨hget, hscope⟩ := mem_rowsWhere.1 hrow
    rw [Prod.mk.injEq] at heq
    obtain ⟨rfl, rfl⟩ := heq; rw [← of_decide_eq_true hscope]; exact hget
  · exact fun hget => ⟨((scope, k), v), mem_rowsWhere.2 ⟨hget, decide_eq_true rfl⟩, rfl⟩

theorem sorted_committedRows (t : Table StateKey Bytes) (scope : String) :
    Pages.Sorted (committedRows t scope) := by
  unfold Pages.Sorted committedRows
  rw [pairwise_map]
  refine (sorted_rowsWhere t _).imp_of_mem fun {_ _} ha hb hlt => ?_
  have hscope := of_decide_eq_true (mem_rowsWhere.1 ha).2
  have hscope' := of_decide_eq_true (mem_rowsWhere.1 hb).2
  rw [Library.compare_pair, hscope, hscope', compare_self] at hlt; exact hlt

theorem nodup_keys {rows : List (Bytes × Bytes)} (h : Pages.Sorted rows) : (rows.map fst).Nodup := by
  rw [nodup_iff_pairwise_ne, pairwise_map]
  refine h.imp fun {_ _} hlt heq => ?_
  rw [heq, compare_self] at hlt; cases hlt

theorem getElem?_foldl_writeRow {writes : List (Bytes × Option Bytes)} {k : Bytes} :
    ∀ {rows : Table Bytes Bytes}, (writes.map fst).Nodup → (∀ w, (k, w) ∈ writes →
        (writes.foldl (fun rows write => writeRow rows write.1 write.2) rows)[k]? = w) ∧
      (k ∉ writes.map fst →
        (writes.foldl (fun rows write => writeRow rows write.1 write.2) rows)[k]? = rows[k]?) := by
  induction writes with
  | nil => exact fun _ => ⟨nofun, fun _ => rfl⟩
  | cons write writes ih =>
    intro rows hnodup
    rw [map_cons, nodup_cons] at hnodup
    obtain ⟨hin, hout⟩ := @ih (writeRow rows write.1 write.2) hnodup.2
    constructor
    · intro w hw
      rw [foldl_cons]
      rcases mem_cons.1 hw with rfl | hw
      · rw [hout hnodup.1, get?_writeRow, if_pos rfl]
      · exact hin w hw
    · intro hk
      rw [map_cons, mem_cons, not_or] at hk
      rw [foldl_cons, hout hk.2, get?_writeRow, if_neg hk.1]

theorem getElem?_applyWrites {rows : Table Bytes Bytes} {written : Table Bytes (Option Bytes)}
    (k : Bytes) : (applyWrites rows written)[k]? = (written[k]?).getD rows[k]? := by
  have hnodup : (written.toList.map fst).Nodup := by
    have h := nodup_keys_rowsWhere written fun _ _ => true
    rwa [rowsWhere, filter_eq_self.2 fun _ _ => rfl] at h
  obtain ⟨hin, hout⟩ := @getElem?_foldl_writeRow _ k rows hnodup
  unfold applyWrites
  cases hk : written[k]? with
  | some w => exact hin w (mem_toList.2 hk)
  | none =>
    refine hout fun hmem => ?_
    obtain ⟨⟨_, w⟩, hrow, rfl⟩ := List.mem_map.1 hmem; rw [Table.mem_toList, hk] at hrow; cases hrow

def writtenRows (t : Table StateKey (OverlayValue (Option Bytes))) (scope : String)
    (start : Bytes) : List (Bytes × Option Bytes) :=
  (Table.rowsWhere t fun key _ => key.1 = scope && start.isPrefixOf key.2).map fun row =>
    (row.1.2, row.2.after)

theorem mem_writtenRows {t : Table StateKey (OverlayValue (Option Bytes))} {scope : String}
    {start k : Bytes} {w : Option Bytes} : (k, w) ∈ writtenRows t scope start ↔
      start.isPrefixOf k = true ∧ (t[((scope, k) : StateKey)]?).map (·.after) = some w := by
  rw [writtenRows, List.mem_map]
  constructor
  · rintro ⟨⟨⟨_, _⟩, value⟩, hrow, heq⟩
    obtain ⟨hget, hkey⟩ := mem_rowsWhere.1 hrow
    rw [Bool.and_eq_true] at hkey
    rw [Prod.mk.injEq] at heq
    obtain ⟨rfl, rfl⟩ := heq
    refine ⟨hkey.2, ?_⟩
    rw [← of_decide_eq_true hkey.1, hget]; rfl
  · rintro ⟨hstarts, hget⟩
    obtain ⟨value, hvalue, rfl⟩ := map_eq_some_iff.1 hget
    exact ⟨((scope, k), value), mem_rowsWhere.2 ⟨hvalue, by simp [hstarts]⟩, rfl⟩

theorem nodup_writtenRows (t : Table StateKey (OverlayValue (Option Bytes))) (scope : String)
    (start : Bytes) : ((writtenRows t scope start).map fst).Nodup := by
  rw [writtenRows, List.map_map, List.nodup_iff_pairwise_ne, List.pairwise_map]
  refine (Table.sorted_rowsWhere t _).imp_of_mem fun {a b} ha hb hlt heq => ?_
  have ha' := (mem_rowsWhere.1 ha).2
  have hb' := (mem_rowsWhere.1 hb).2
  rw [Bool.and_eq_true] at ha' hb'
  rw [Library.compare_pair, of_decide_eq_true ha'.1, of_decide_eq_true hb'.1] at hlt
  have heq : a.1.2 = b.1.2 := heq; rw [heq, compare_self, compare_self] at hlt; cases hlt

theorem getElem?_writtenUnder {t : Table StateKey (OverlayValue (Option Bytes))} {scope : String}
    {start k : Bytes} : (writtenUnder t scope start)[k]? =
      if start.isPrefixOf k then (t[((scope, k) : StateKey)]?).map (·.after) else none := by
  have hrows : writtenUnder t scope start = insertRows ∅ (writtenRows t scope start) := rfl
  rw [hrows]
  cases hw : if start.isPrefixOf k then (t[((scope, k) : StateKey)]?).map (·.after) else none with
  | some w =>
    refine get?_insertRows_of_mem (nodup_writtenRows t scope start) ?_
    rw [mem_writtenRows]
    split at hw
    · rename_i hstarts; exact ⟨hstarts, hw⟩
    · cases hw
  | none =>
    rw [get?_insertRows_of_notMem, getElem?_empty]
    intro hin
    obtain ⟨⟨_, w⟩, hrow, rfl⟩ := mem_map.1 hin
    obtain ⟨hstarts, hget⟩ := mem_writtenRows.1 hrow; rw [if_pos hstarts, hget] at hw; cases hw

theorem getElem?_visibleRows {t : Table StateKey Bytes}
    {ovl : Table StateKey (OverlayValue (Option Bytes))} {scope : String} {k : Bytes} :
    (visibleRows t ovl scope)[k]? =
      ((ovl[((scope, k) : StateKey)]?).map (·.after)).getD t[((scope, k) : StateKey)]? := by
  have hcommitted : (insertRows ∅ (committedRows t scope))[k]? = t[((scope, k) : StateKey)]? := by
    cases hk : t[((scope, k) : StateKey)]? with
    | some v =>
      exact get?_insertRows_of_mem (nodup_keys (sorted_committedRows t scope))
        (mem_committedRows.2 hk)
    | none =>
      rw [get?_insertRows_of_notMem, getElem?_empty]
      intro hin
      obtain ⟨⟨_, v⟩, hrow, rfl⟩ := mem_map.1 hin; rw [mem_committedRows, hk] at hrow; cases hrow
  rw [visibleRows, getElem?_applyWrites, hcommitted, getElem?_writtenUnder]; rfl

def rowsUnder (t : Table StateKey Bytes) (scope : String) (start : Bytes) : List (Bytes × Bytes) :=
  (committedRows t scope).filter fun row => start.isPrefixOf row.1

theorem sorted_rowsUnder (t : Table StateKey Bytes) (scope : String) (start : Bytes) :
    Pages.Sorted (rowsUnder t scope start) := (sorted_committedRows t scope).filter _

theorem committedPage_eq {t : Table StateKey Bytes} {scope : String} {start lower : Bytes}
    {limit : Nat} (h : (compare start lower).isLE = true) : committedPage t scope start limit lower =
    ((rowsUnder t scope start).filter fun row => (compare lower row.1).isLE).take limit := by
  unfold committedPage rowsUnder committedRows Table.rowsWhere
  rw [List.filter_map, List.filter_map, List.filter_filter, List.filter_filter]
  congr 2
  refine filter_congr fun row _ => ?_
  rw [Bool.eq_iff_iff]
  simp only [Function.comp_apply, Bool.and_eq_true, decide_eq_true_eq]
  rw [isPrefixOf_iff]
  constructor
  · rintro ⟨⟨hscope, hle⟩, hupper⟩; exact ⟨⟨hle, isLE_trans h hle, hupper⟩, hscope⟩
  · rintro ⟨⟨hle, -, hupper⟩, hscope⟩; exact ⟨⟨hscope, hle⟩, hupper⟩

section Pages

variable {rows : List (Bytes × Bytes)} {written : Table Bytes (Option Bytes)} {limit : Nat}

/-- The answer of the page loop: the committed rows through some key, or all of them, that the
overlay does not hide, and enough of them with the writes up to that key. -/
structure ReadThrough (rows : List (Bytes × Bytes)) (written : Table Bytes (Option Bytes))
    (limit : Nat) (result : Table Bytes Bytes × Option Bytes) : Prop where
  merged : ∀ k v, result.1[k]? = some v ↔ (k, v) ∈ rows ∧ k ∉ written ∧
    (result.2.all fun last => (compare k last).isLE) = true
  enough : ∀ last, result.2 = some last → limit ≤ result.1.size +
    (Table.rowsWhere written fun key value => (compare key last).isLE && value.isSome).length

theorem getElem?_foldl_page {page : List (Bytes × Bytes)} {k v : Bytes}
    (hnodup : (page.map fst).Nodup) : ∀ {merged : Table Bytes Bytes}, (∀ row ∈ page, row.1 ∉ merged) →
      ((page.foldl (fun merged row =>
        if row.1 ∈ written then merged else merged.insert row.1 row.2) merged)[k]? = some v ↔
        merged[k]? = some v ∨ (k, v) ∈ page ∧ k ∉ written) := by
  induction page with
  | nil => simp
  | cons row page ih =>
    intro merged hnew
    rw [map_cons, nodup_cons] at hnodup
    have hrest : ∀ row' ∈ page, row'.1 ∉ (if row.1 ∈ written then merged
        else merged.insert row.1 row.2) := by
      intro row' hrow' hin
      split at hin
      · exact hnew row' (mem_cons_of_mem _ hrow') hin
      · rcases mem_insert_iff.1 hin with heq | hin
        · exact hnodup.1 (heq ▸ mem_map_of_mem hrow')
        · exact hnew row' (mem_cons_of_mem _ hrow') hin
    rw [foldl_cons, ih hnodup.2 hrest, mem_cons]
    have hnone : merged[row.1]? = none := by
      cases hget : merged[row.1]? with
      | none => rfl
      | some _ => exact absurd (mem_of_getElem? hget) (hnew row mem_cons_self)
    split
    · rename_i hwr
      constructor
      · rintro (h | ⟨h, hk⟩)
        · exact .inl h
        · exact .inr ⟨.inr h, hk⟩
      · rintro (h | ⟨rfl | h, hk⟩)
        · exact .inl h
        · exact absurd hwr hk
        · exact .inr ⟨h, hk⟩
    · rename_i hwr
      rw [get?_insert_ite]
      split
      · rename_i hk
        subst hk
        rw [hnone, some.injEq]
        constructor
        · rintro (rfl | ⟨h, -⟩)
          · exact .inr ⟨.inl rfl, hwr⟩
          · exact absurd (mem_map_of_mem h) hnodup.1
        · rintro (h | ⟨h | h, -⟩)
          · cases h
          · rw [← h]; exact .inl rfl
          · exact absurd (mem_map_of_mem h) hnodup.1
      · rename_i hk
        constructor
        · rintro (h | ⟨h, hw⟩)
          · exact .inl h
          · exact .inr ⟨.inr h, hw⟩
        · rintro (h | ⟨rfl | h, hw⟩)
          · exact .inl h
          · exact absurd rfl hk
          · exact .inr ⟨h, hw⟩

theorem readThrough_of_end {lower : Bytes} {merged : Table Bytes Bytes}
    (hempty : (rows.filter fun row => (compare lower row.1).isLE) = [])
    (hmerged : ∀ k v, merged[k]? = some v ↔ (k, v) ∈ rows ∧ k ∉ written ∧ compare k lower = .lt) :
    ReadThrough rows written limit (merged, none) where
  merged k v := by
    rw [hmerged, all_none]
    refine and_congr_right fun hrow => and_congr_right fun _ => iff_of_true ?_ rfl
    have hle := filter_eq_nil_iff.1 hempty _ hrow; rwa [isLE_iff_not_lt, not_not] at hle
  enough _ h := nomatch h

theorem scanPages_readThrough {page : Bytes → List (Bytes × Bytes)} {start : Bytes}
    (hrows : Pages.Sorted rows) (hlimit : 0 < limit)
    (hpage : ∀ lower, (compare start lower).isLE = true →
      page lower = (rows.filter fun row => (compare lower row.1).isLE).take limit) (n : Nat) :
    ∀ {lower : Bytes} {merged : Table Bytes Bytes}, (compare start lower).isLE = true →
      (rows.filter fun row => (compare lower row.1).isLE).length ≤ n →
      (∀ k v, merged[k]? = some v ↔ (k, v) ∈ rows ∧ k ∉ written ∧ compare k lower = .lt) →
      ∃ res, ReadThrough rows written limit res ∧
        ∀ fuel, n < fuel → scanPages page written limit fuel lower merged = res := by
  induction n with
  | zero =>
    intro lower merged hstart hleft hmerged
    have hempty := length_eq_zero_iff.1 (Nat.le_zero.1 hleft)
    refine ⟨(merged, none), readThrough_of_end hempty hmerged, fun fuel hfuel => ?_⟩
    cases fuel with
    | zero => cases hfuel
    | succ fuel => simp [scanPages, hpage lower hstart, hempty]
  | succ n ih =>
    intro lower merged hstart hleft hmerged
    have hsort : Pages.Sorted (rows.filter fun row => (compare lower row.1).isLE) :=
      hrows.filter _
    have hnew : ∀ row ∈ page lower, row.1 ∉ merged := by
      intro row hrow hin
      rw [hpage lower hstart] at hrow
      have hle := (mem_filter.1 (mem_of_mem_take hrow)).2
      obtain ⟨v, hv⟩ := isSome_iff_exists.1 (mem_iff_isSome_getElem?.1 hin)
      exact isLE_iff_not_lt.1 hle ((hmerged row.1 v).1 hv).2.2
    have hnodup : ((page lower).map fst).Nodup := by
      rw [hpage lower hstart]; exact nodup_keys (hsort.sublist (take_sublist _ _))
    have hmerged' := fun k v => @getElem?_foldl_page written (page lower) k v hnodup merged hnew
    generalize hfold : (page lower).foldl (fun merged row =>
      if row.1 ∈ written then merged else merged.insert row.1 row.2) merged = merged' at hmerged'
    rw [hpage lower hstart] at hmerged'
    have hscan {row : Bytes × Bytes} (hlast : ((rows.filter fun row =>
        (compare lower row.1).isLE).take limit).getLast? = some row) (fuel : Nat) :
        scanPages page written limit (fuel + 1) lower merged =
          if ((rows.filter fun row => (compare lower row.1).isLE).take limit).length < limit then
            (merged', none)
          else if limit ≤ merged'.size + (rowsWhere written fun key value =>
              (compare key row.1).isLE && value.isSome).length then (merged', some row.1)
          else scanPages page written limit fuel (row.1 ++ [0]) merged' := by
      rw [← hpage lower hstart] at hlast ⊢
      rw [scanPages, hlast]; simp only [hfold]
    by_cases hfull : limit ≤ (rows.filter fun row => (compare lower row.1).isLE).length
    · have hlen := length_take_of_le hfull
      obtain ⟨⟨last, value⟩, hlast⟩ : ∃ row,
          ((rows.filter fun row => (compare lower row.1).isLE).take limit).getLast? = some row := by
        rw [← isSome_iff_exists, getLast?_isSome]; exact ne_nil_of_length_pos (by omega)
      have hmem := mem_take_iff hsort hlast
      have hle := (mem_filter.1 (mem_of_mem_take (mem_of_getLast? hlast))).2
      -- The page holds the rows through its last key.
      have hthru : ∀ k v, merged'[k]? = some v ↔ (k, v) ∈ rows ∧ k ∉ written ∧
          (compare k last).isLE = true := by
        intro k v
        rw [hmerged', hmerged, hmem, mem_filter]
        constructor
        · rintro (⟨hrow, hk, hlt⟩ | ⟨⟨⟨hrow, -⟩, hlast⟩, hk⟩)
          · exact ⟨hrow, hk, isLE_of_lt (lt_of_lt_of_isLE hlt hle)⟩
          · exact ⟨hrow, hk, hlast⟩
        · rintro ⟨hrow, hk, hlast⟩
          by_cases hlt : compare k lower = .lt
          · exact .inl ⟨hrow, hk, hlt⟩
          · exact .inr ⟨⟨⟨hrow, isLE_iff_not_lt.2 hlt⟩, hlast⟩, hk⟩
      by_cases henough : limit ≤ merged'.size + (rowsWhere written fun key value =>
          (compare key last).isLE && value.isSome).length
      · refine ⟨(merged', some last), ⟨hthru, fun _ h => ?_⟩, fun fuel hfuel => ?_⟩
        · cases h; exact henough
        · obtain ⟨fuel, rfl⟩ := Nat.exists_eq_succ_of_ne_zero (Nat.ne_zero_of_lt hfuel)
          rw [hscan hlast]; simp only [hlen, Nat.lt_irrefl, if_false, henough, if_true]
      · have hnext := isLE_trans hstart (isLE_trans hle (isLE_of_lt (lt_append_zero.2 (isLE_self last))))
        have hbehind : ∀ k, (compare (last ++ [0]) k).isLE = true ↔ compare last k = .lt := by
          intro k; rw [isLE_iff_not_lt, lt_append_zero, isLE_iff_not_lt, not_not]
        have hleft' : (rows.filter fun row => (compare (last ++ [0]) row.1).isLE).length ≤ n := by
          have hlt := length_behind_lt hsort hlast
          rw [List.filter_filter] at hlt
          dsimp only at hlt
          have hsame : (rows.filter fun row => (compare (last ++ [0]) row.1).isLE) =
              rows.filter fun row => decide (compare last row.1 = .lt) &&
                (compare lower row.1).isLE := by
            refine filter_congr fun row _ => ?_
            rw [Bool.eq_iff_iff, hbehind, Bool.and_eq_true, decide_eq_true_iff]
            refine ⟨fun h => ⟨h, ?_⟩, And.left⟩
            exact isLE_trans hle (isLE_of_lt h)
          rw [hsame]; omega
        have hmerged'' : ∀ k v, merged'[k]? = some v ↔ (k, v) ∈ rows ∧ k ∉ written ∧
            compare k (last ++ [0]) = .lt := by
          intro k v; rw [hthru, lt_append_zero]
        obtain ⟨res, hres, hends⟩ := ih hnext hleft' hmerged''
        refine ⟨res, hres, fun fuel hfuel => ?_⟩
        obtain ⟨fuel, rfl⟩ := Nat.exists_eq_succ_of_ne_zero (Nat.ne_zero_of_lt hfuel)
        rw [hscan hlast]
        simp only [hlen, Nat.lt_irrefl, if_false, henough]
        exact hends fuel (Nat.lt_of_succ_lt_succ hfuel)
    · -- A page that is not full is the last.
      have htake : (rows.filter fun row => (compare lower row.1).isLE).take limit =
          rows.filter fun row => (compare lower row.1).isLE :=
        take_of_length_le (by omega)
      refine ⟨(merged', none), ⟨fun k v => ?_, by simp⟩, fun fuel hfuel => ?_⟩
      · rw [hmerged', hmerged, htake, mem_filter, all_none, eq_self_iff_true, and_true]
        constructor
        · rintro (⟨hrow, hk, -⟩ | ⟨⟨hrow, -⟩, hk⟩)
          · exact ⟨hrow, hk⟩
          · exact ⟨hrow, hk⟩
        · rintro ⟨hrow, hk⟩
          by_cases hlt : compare k lower = .lt
          · exact .inl ⟨hrow, hk, hlt⟩
          · exact .inr ⟨⟨hrow, isLE_iff_not_lt.2 hlt⟩, hk⟩
      · obtain ⟨fuel, rfl⟩ := Nat.exists_eq_succ_of_ne_zero (Nat.ne_zero_of_lt hfuel)
        cases hlast : ((rows.filter fun row => (compare lower row.1).isLE).take limit).getLast? with
        | none =>
          rw [← hpage lower hstart] at hlast
          rw [scanPages, hlast]; simp only [hfold]
        | some row => rw [hscan hlast, htake, if_pos (by omega)]

end Pages

def writesThrough (written : Table Bytes (Option Bytes)) (through : Option Bytes) :
    List (Bytes × Bytes) :=
  written.toList.filterMap fun row =>
    row.2.bind fun value =>
      if through.all fun last => (compare row.1 last).isLE then some (row.1, value) else none

theorem foldl_writes_eq {written : List (Bytes × Option Bytes)} {thru : Option Bytes} :
    ∀ merged : Table Bytes Bytes, written.foldl (fun merged row =>
      match row.2 with
      | some value =>
        if thru.all fun last => (compare row.1 last).isLE then merged.insert row.1 value
        else merged
      | none => merged) merged =
      insertRows merged (written.filterMap fun row => row.2.bind fun value =>
        if thru.all fun last => (compare row.1 last).isLE then some (row.1, value) else none) := by
  induction written with
  | nil => exact fun _ => rfl
  | cons row written ih =>
    obtain ⟨_, value⟩ := row
    intro merged
    rw [foldl_cons, ih]
    cases value with
    | none => rfl
    | some value =>
      simp only [filterMap_cons, bind_some]
      split <;> rfl

theorem mem_writesThrough {written : Table Bytes (Option Bytes)} {thru : Option Bytes}
    {k v : Bytes} : (k, v) ∈ writesThrough written thru ↔
      written[k]? = some (some v) ∧ (thru.all fun last => (compare k last).isLE) = true := by
  rw [writesThrough, mem_filterMap]
  constructor
  · rintro ⟨⟨_, value⟩, hrow, heq⟩
    obtain ⟨value, rfl, hvalue⟩ := bind_eq_some_iff.1 heq
    split at hvalue
    · rename_i hthru; cases hvalue; exact ⟨mem_toList.1 hrow, hthru⟩
    · cases hvalue
  · rintro ⟨hget, hthru⟩; exact ⟨(k, some v), mem_toList.2 hget, by simp [hthru]⟩

theorem nodup_writesThrough (written : Table Bytes (Option Bytes)) (thru : Option Bytes) :
    ((writesThrough written thru).map fst).Nodup := by
  have hkeys : ((writesThrough written thru).map fst).Sublist (written.toList.map fst) := by
    unfold writesThrough
    generalize written.toList = rows
    induction rows with
    | nil => exact List.Sublist.refl _
    | cons row rows ih =>
      obtain ⟨_, value⟩ := row
      rw [filterMap_cons, map_cons]
      split
      · exact ih.cons _
      · rename_i entry hentry
        obtain ⟨value, rfl, hvalue⟩ := bind_eq_some_iff.1 hentry
        split at hvalue
        · cases hvalue; exact ih.cons_cons _
        · cases hvalue
  have hnodup := nodup_keys_rowsWhere written fun _ _ => true
  rw [rowsWhere, filter_eq_self.2 fun _ _ => rfl] at hnodup
  exact hkeys.nodup hnodup

theorem length_writesThrough (written : Table Bytes (Option Bytes)) (last : Bytes) :
    (writesThrough written (some last)).length = (rowsWhere written fun key value =>
      (compare key last).isLE && value.isSome).length := by
  unfold writesThrough rowsWhere
  generalize written.toList = rows
  induction rows with
  | nil => rfl
  | cons row rows ih =>
    obtain ⟨key, value⟩ := row
    cases value with
    | none => simpa using ih
    | some value =>
      by_cases hle : (compare key last).isLE = true
      · simpa [hle] using ih
      · simpa [hle] using ih

section Scan

variable {t : Table StateKey Bytes} {overlay : Table StateKey (OverlayValue (Option Bytes))}
  {scope : String} {start : Bytes} {limit : Nat} {merged : Table Bytes Bytes}
  {through : Option Bytes}

theorem getElem?_insertWrites
    (h : ReadThrough (rowsUnder t scope start) (writtenUnder overlay scope start) limit
      (merged, through)) (k v : Bytes) :
    (insertRows merged (writesThrough (writtenUnder overlay scope start) through))[k]? = some v ↔
      (visibleRows t overlay scope)[k]? = some v ∧ start.isPrefixOf k = true ∧
        (through.all fun last => (compare k last).isLE) = true := by
  have hwr := @getElem?_writtenUnder overlay scope start k
  have hnotin : (∀ v, (writtenUnder overlay scope start)[k]? ≠ some (some v) ∨
      ¬ (through.all fun last => (compare k last).isLE) = true) →
      (insertRows merged (writesThrough (writtenUnder overlay scope start) through))[k]? =
        merged[k]? := by
    intro hnone
    refine get?_insertRows_of_notMem fun hin => ?_
    obtain ⟨⟨_, v⟩, hrow, rfl⟩ := mem_map.1 hin
    obtain ⟨hget, hthru⟩ := mem_writesThrough.1 hrow
    exact (hnone v).elim (fun hne => hne hget) fun hne => hne hthru
  have hmerged := h.merged k v
  rw [rowsUnder, mem_filter, mem_committedRows] at hmerged
  rw [getElem?_visibleRows]
  by_cases hstarts : start.isPrefixOf k = true
  · rw [if_pos hstarts] at hwr
    rw [← hwr]
    cases hk : (writtenUnder overlay scope start)[k]? with
    | none =>
      have hnot : k ∉ writtenUnder overlay scope start := fun hin => by
        rw [mem_iff_isSome_getElem?, hk] at hin; cases hin
      rw [hnotin fun v => .inl (by rw [hk]; nofun), hmerged]
      simp [hstarts, hnot]
    | some w =>
      have hin := mem_of_getElem? hk
      have hgone : merged[k]? ≠ some v := fun hv => (hmerged.1 hv).2.1 hin
      cases w with
      | none =>
        rw [hnotin fun v => .inl (by rw [hk]; simp)]
        simpa using hgone
      | some w =>
        by_cases hthru : (through.all fun last => (compare k last).isLE) = true
        · rw [get?_insertRows_of_mem (nodup_writesThrough _ _) (mem_writesThrough.2 ⟨hk, hthru⟩)]
          simp [hstarts, hthru]
        · rw [hnotin fun _ => .inr hthru]
          exact iff_of_false hgone fun h => hthru h.2.2
  · rw [if_neg hstarts] at hwr
    rw [hnotin fun v => .inl (by rw [hwr]; nofun), hmerged]
    simp [hstarts]

theorem le_length_of_readThrough
    (h : ReadThrough (rowsUnder t scope start) (writtenUnder overlay scope start) limit
      (merged, through)) {last : Bytes} (hlast : through = some last) : limit ≤ (insertRows merged
      (writesThrough (writtenUnder overlay scope start) through)).toList.length := by
  subst hlast
  refine (h.enough last rfl).trans ?_
  rw [← length_writesThrough, ← ExtTreeMap.length_toList, ← length_append]
  have hnodup : (merged.toList ++
      writesThrough (writtenUnder overlay scope start) (some last)).Nodup := by
    refine nodup_append.2 ⟨nodup_toList merged, (nodup_writesThrough _ _).of_map _, ?_⟩
    rintro ⟨k, v⟩ hrow ⟨_, _⟩ hrow' heq
    rw [Prod.mk.injEq] at heq
    obtain ⟨rfl, rfl⟩ := heq
    have hin := mem_of_getElem? (mem_writesThrough.1 hrow').1
    exact ((h.merged k v).1 (mem_toList.1 hrow)).2.1 hin
  refine (hnodup.subperm fun row hrow => ?_).length_le
  obtain ⟨k, v⟩ := row
  rw [Table.mem_toList]
  rcases List.mem_append.1 hrow with hrow | hrow
  · have hget := mem_toList.1 hrow
    have hnot := ((h.merged k v).1 hget).2.1
    rw [get?_insertRows_of_notMem, hget]
    intro hin
    obtain ⟨⟨_, _⟩, hw, rfl⟩ := mem_map.1 hin
    exact hnot (mem_of_getElem? (mem_writesThrough.1 hw).1)
  · exact get?_insertRows_of_mem (nodup_writesThrough _ _) hrow

theorem scanPages_start (t : Table StateKey Bytes)
    (ovl : Table StateKey (OverlayValue (Option Bytes))) (scope : String) (start : Bytes)
    (hlimit : 0 < limit) : ∃ res,
      ReadThrough (rowsUnder t scope start) (writtenUnder ovl scope start) limit res ∧
      ∀ fuel ≥ t.size + 1, scanPages (committedPage t scope start limit)
        (writtenUnder ovl scope start) limit fuel start ∅ = res := by
  have hempty : ∀ k v, (∅ : Table Bytes Bytes)[k]? = some v ↔ (k, v)
      ∈ rowsUnder t scope start ∧ k ∉ writtenUnder ovl scope start ∧ compare k start = .lt := by
    intro k v
    refine iff_of_false (fun h => not_mem_empty h) ?_
    rintro ⟨hrow, -, hlt⟩
    have hstarts := (mem_filter.1 hrow).2; exact isLE_iff_not_lt.1 (isPrefixOf_iff.1 hstarts).1 hlt
  obtain ⟨res, hread, hends⟩ := scanPages_readThrough (sorted_rowsUnder t scope start) hlimit
    (fun _ h => committedPage_eq h) (rowsUnder t scope start).length (isLE_self start)
    (length_filter_le _ _) hempty
  refine ⟨res, hread, fun fuel hfuel => hends fuel (Nat.lt_of_lt_of_le ?_ hfuel)⟩
  have hrows : (rowsUnder t scope start).length ≤ t.size := by
    refine (length_filter_le _ _).trans ?_
    rw [committedRows, length_map, ← ExtTreeMap.length_toList]; exact length_filter_le _ _
  omega

/-- A scan answers with the first rows under the prefix of what the reducer sees, whatever the
committed rows and the reducer's writes are, and its loop ends. -/
theorem scanAnswer_eq (t : Table StateKey Bytes)
    (overlay : Table StateKey (OverlayValue (Option Bytes))) (scope : String) (start : Bytes)
    (hlimit : 1 ≤ limit) (hmax : limit ≤ 10000) :
    scanAnswer t overlay scope start limit =
      .ok ((Table.rowsWhere (visibleRows t overlay scope) fun key _ =>
        start.isPrefixOf key).take limit) ∧
    ∀ fuel ≥ t.size + 1,
      scanPages (committedPage t scope start limit) (writtenUnder overlay scope start) limit fuel
          start ∅ =
        scanPages (committedPage t scope start limit) (writtenUnder overlay scope start) limit
          (t.size + 1) start ∅ := by
  obtain ⟨⟨merged, through⟩, hread, hends⟩ := scanPages_start t overlay scope start hlimit
  refine ⟨?_, fun fuel hfuel => (hends fuel hfuel).trans (hends _ le_rfl).symm⟩
  have hscan : scanMergedPrefix t scope start limit (writtenUnder overlay scope start) =
      (insertRows merged (writesThrough (writtenUnder overlay scope start)
        through)).toList.take limit := by
    rw [scanMergedPrefix, hends _ le_rfl]
    exact congrArg (fun rows : Table Bytes Bytes => rows.toList.take limit) (foldl_writes_eq merged)
  rw [scanAnswer, if_neg (by omega), hscan]
  -- What is returned are the rows through the last key that was read.
  have hrows : (insertRows merged (writesThrough (writtenUnder overlay scope start)
      through)).toList = (rowsWhere (visibleRows t overlay scope) fun key _ =>
        start.isPrefixOf key).filter fun row => through.all fun last => (compare row.1 last).isLE := by
    have hsorted := sorted_rowsWhere (insertRows merged
      (writesThrough (writtenUnder overlay scope start) through)) fun _ _ => true
    rw [rowsWhere, filter_eq_self.2 fun _ _ => rfl] at hsorted
    have heq := rowsWhere_eq (t := visibleRows t overlay scope) (p := fun key _ =>
      start.isPrefixOf key && through.all fun last => (compare key last).isLE) hsorted
      fun _ _ => by rw [Table.mem_toList, getElem?_insertWrites hread, Bool.and_eq_true]
    rw [← heq, Table.rowsWhere, Table.rowsWhere, List.filter_filter]
    exact List.filter_congr fun row _ => Bool.and_comm _ _
  congr 1
  cases hthrough : through with
  | none =>
    rw [hthrough] at hrows; rw [hrows]; exact congrArg _ (filter_eq_self.2 fun _ _ => rfl)
  | some last =>
    have hlength := le_length_of_readThrough hread hthrough
    rw [hthrough] at hrows hlength
    rw [hrows] at hlength ⊢; exact take_filter_isLE (sorted_rowsWhere _ _) last hlength

end Scan

def oneRow : Table StateKey Bytes := (∅ : Table StateKey Bytes).insert ("balances", [255, 1]) [7]

def deletedAndAdded : Table StateKey (OverlayValue (Option Bytes)) :=
  ((∅ : Table StateKey (OverlayValue (Option Bytes))).insert ("balances", [255, 1])
    ⟨some [7], none⟩).insert ("balances", [255, 2]) ⟨none, some [8]⟩

/-- A prefix that cannot be raised, so that the scan has no upper bound. -/
theorem scanAnswer_eq_deleted :
    scanAnswer oneRow deletedAndAdded "balances" [255] 1 =
      .ok ((Table.rowsWhere (visibleRows oneRow deletedAndAdded "balances") fun key _ =>
        ([255] : Bytes).isPrefixOf key).take 1) ∧
    ∀ fuel ≥ oneRow.size + 1,
      scanPages (committedPage oneRow "balances" [255] 1)
          (writtenUnder deletedAndAdded "balances" [255]) 1 fuel [255] ∅ =
        scanPages (committedPage oneRow "balances" [255] 1)
          (writtenUnder deletedAndAdded "balances" [255]) 1 (oneRow.size + 1) [255] ∅ :=
  scanAnswer_eq oneRow deletedAndAdded "balances" [255] (by decide) (by decide)

end Leani.Processor
