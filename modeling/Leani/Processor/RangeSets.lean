import Leani.Processor.BackfillRecords
import Leani.Processor.Coverage

/-!
# Sets of blocks as ranges

The store, the runtime and the node each have a copy of one loop that sorts ranges and merges
neighbours. The rows of the shared owner of coverage are kept apart in the same way, one added range
at a time.
-/

namespace Leani.Processor

open Library List

def toRange (range : BlockRange) : Range := ⟨range.start, range.last, range.start_le_last⟩

def normalizeBackfillRanges (ranges : List BlockRange) : Except StoreError (List Range) := do
  ensure (ranges ≠ []) (.invalidConfig "backfill range set must not be empty")
  pure (normalizeRanges (ranges.map toRange))

inductive BackfillUpperBound where
  | number (number : Nat)
  | finalized

def BackfillUpperBound.resolve (bound : BackfillUpperBound) (finalizedNumber : Nat) : Nat :=
  match bound with
  | .number block => block
  | .finalized => finalizedNumber

structure CreateBackfillRequest where
  fromBlock : Option Nat
  toBlock : Option BackfillUpperBound
  ranges : List (Nat × BackfillUpperBound)

inductive BackfillControlError where
  | invalid (message : String)
  | historyNotFinalized (requested finalized : Nat) (finalizedHash : BlockHash)
  | rangeAfterFinalizedHead (requested finalized : Nat) (finalizedHash : BlockHash)

def maxRequestRanges : Nat := 1024

section

variable (request : CreateBackfillRequest) (finalizedNumber : Nat) (finalizedHash : BlockHash)

def resolveRange (range : Nat × BackfillUpperBound) : Except BackfillControlError BlockRange := do
  ensure (range.1 ≤ finalizedNumber)
    (.rangeAfterFinalizedHead range.1 finalizedNumber finalizedHash)
  let last := range.2.resolve finalizedNumber
  ensure (last ≤ finalizedNumber) (.historyNotFinalized last finalizedNumber finalizedHash)
  required (BlockRange.new? range.1 last) (.invalid (Backfills.blockRangeError range.1 last))

def requestedRanges : Except BackfillControlError (List BlockRange) := do
  if request.ranges = [] then
    match request.fromBlock, request.toBlock with
    | some first, some last => mapM (resolveRange finalizedNumber finalizedHash) [(first, last)]
    | _, _ => .error (.invalid "provide either ranges or both fromBlock and toBlock")
  else
    ensure (request.fromBlock.isNone ∧ request.toBlock.isNone)
      (.invalid "ranges cannot be combined with fromBlock or toBlock")
    ensure (request.ranges.length ≤ maxRequestRanges)
      (.invalid ("range set contains " ++ toString request.ranges.length ++
        " entries; maximum is " ++ toString maxRequestRanges))
    request.ranges.mapM (resolveRange finalizedNumber finalizedHash)

def normalizedRequestRanges : Except BackfillControlError (List Range) := do
  let ranges ← requestedRanges request finalizedNumber finalizedHash
  let normalized := normalizeRanges (ranges.map toRange)
  let _ ← foldExcept (fun total range => do
    let total := total + satAdd (range.last - range.start) 1
    ensure (total ≤ u64Max) (.invalid "requested range set block count overflows")
    pure total) 0 normalized
  pure normalized

end

/-- The result of one of the three functions for the ranges. -/
inductive Normalizes (ranges : List BlockRange) : List Range → Prop
  | store : Normalizes ranges (normalizeRanges (ranges.map toRange))
  | runtime {out} : normalizeBackfillRanges ranges = .ok out → Normalizes ranges out
  | node {out} (request finalizedNumber finalizedHash) :
      requestedRanges request finalizedNumber finalizedHash = .ok ranges →
      normalizedRequestRanges request finalizedNumber finalizedHash = .ok out →
      Normalizes ranges out

variable {ranges : List BlockRange} {out : List Range}

theorem Normalizes.eq (h : Normalizes ranges out) : out = normalizeRanges (ranges.map toRange) := by
  cases h with
  | store => rfl
  | runtime h =>
    simp only [normalizeBackfillRanges, eq_ok] at h
    obtain ⟨-, -, rfl⟩ := h; rfl
  | node request finalizedNumber finalizedHash hranges h =>
    simp only [normalizedRequestRanges, hranges, eq_ok, Except.ok.injEq] at h
    obtain ⟨_, rfl, -, -, rfl⟩ := h; rfl

theorem Normalizes.spec (h : Normalizes ranges out) : Range.Separated out ∧
    ∀ n, Range.Covers out n ↔ Range.Covers (ranges.map toRange) n := by
  rw [h.eq]
  exact Range.normalize_spec (forall_mem_map.2 fun range _ => range.last_le)

/-- Every copy keeps the blocks and leaves a gap between neighbours, and no two of them differ, on the
same ranges in another order or on ranges that are normalized already. -/
theorem normalizations_agree (h : Normalizes ranges out) : Range.Separated out ∧
    (∀ n, Range.Covers out n ↔ ∃ range ∈ ranges, range.contains n) ∧
    ∀ ranges' out', Normalizes ranges' out' →
      ranges'.Perm ranges ∨ ranges'.map toRange = out → out' = out := by
  refine ⟨h.spec.1, fun n => ?_, fun ranges' out' h' hsame => h'.spec.1.eq h.spec.1 fun n => ?_⟩
  · rw [h.spec.2]
    simp only [Range.Covers, mem_map, exists_exists_and_eq_and, BlockRange.contains_iff]
    rfl
  · rcases hsame with hperm | rfl
    · rw [h'.spec.2, h.spec.2, Range.Covers.perm (hperm.map toRange)]
    · exact h'.spec.2 n

theorem normalizations_agree_touching :
    Range.Separated (normalizeRanges [⟨5, 9, by decide⟩, ⟨1, 4, by decide⟩]) :=
  (@normalizations_agree [⟨5, 9, by decide, by decide⟩, ⟨1, 4, by decide, by decide⟩] _ .store).1

def Instance.extendSharedCoverageOwnerRange (i : Instance) (range : BlockRange) :
    Except StoreError Instance := do
  let start ← u64I64 range.start "shared coverage owner start"
  let last ← u64I64 range.last "shared coverage owner end"
  pure (i.extendSharedOwner start last)

/-- A call that fails leaves the instance as it was. -/
def Instance.extendShared (i : Instance) (range : BlockRange) : Instance :=
  (i.extendSharedCoverageOwnerRange range).toOption.getD i

/-- The rows of an owner are ranges with a gap between any two, which hold the blocks added. -/
structure Owners (rows : Table Nat Nat) (added : Nat → Prop) : Prop where
  ordered {first last : Nat} : rows[first]? = some last → first ≤ last
  separated {first last first' last' : Nat} : rows[first]? = some last → rows[first']? = some last' →
    first < first' → last + 1 < first'
  covers n : (∃ first last : Nat, rows[first]? = some last ∧ first ≤ n ∧ n ≤ last) ↔ added n

theorem foldl_max_spec {rows : List (Nat × Nat)} : ∀ {last merged : Nat},
    rows.foldl (fun merged row => max merged row.2) last = merged → last ≤ merged ∧
      (∀ row ∈ rows, row.2 ≤ merged) ∧ (merged = last ∨ ∃ row ∈ rows, row.2 = merged) := by
  induction rows with
  | nil =>
    rintro last _ rfl; exact ⟨le_rfl, nofun, .inl rfl⟩
  | cons row rows ih =>
    intro last merged h
    obtain ⟨hle, hrows, heq⟩ := ih h
    simp only [mem_cons, forall_eq_or_imp, exists_eq_or_imp]
    refine ⟨(Nat.le_max_left ..).trans hle, ⟨(Nat.le_max_right ..).trans hle, hrows⟩, ?_⟩
    rcases heq with heq | heq
    · rcases Nat.le_total row.2 last with hmax | hmax
      · exact .inl (heq.trans (Nat.max_eq_left hmax))
      · exact .inr (.inl (heq.trans (Nat.max_eq_right hmax)).symm)
    · exact .inr (.inr heq)

def touching (first last start stop : Nat) : Bool := start ≤ last + 1 && first - 1 ≤ stop

theorem touching_iff {first last start stop : Nat} :
    touching first last start stop = true ↔ start ≤ last + 1 ∧ first - 1 ≤ stop := by
  rw [touching, Bool.and_eq_true, decide_eq_true_iff, decide_eq_true_iff]

theorem touching_eq {first last : Nat} :
    (fun start stop => decide (start ≤ last + 1) && decide (first - 1 ≤ stop)) = touching first last := rfl

theorem head_min_spec {rows : List (Nat × Nat)} {first start : Nat}
    (hsort : rows.Pairwise fun a b => compare a.1 b.1 = .lt)
    (h : rows.head?.elim first (fun row => min first row.1) = start) :
    start ≤ first ∧ (∀ row ∈ rows, start ≤ row.1) ∧ (start = first ∨ ∃ row ∈ rows, row.1 = start) := by
  subst h
  cases rows with
  | nil => exact ⟨le_rfl, nofun, .inl rfl⟩
  | cons row rows =>
    have hle : ∀ row' ∈ rows, row.1 ≤ row'.1 := fun row' hmem =>
      (Nat.compare_eq_lt.1 ((pairwise_cons.1 hsort).1 row' hmem)).le
    simp only [mem_cons, forall_eq_or_imp, exists_eq_or_imp]
    refine ⟨Nat.min_le_left .., ⟨Nat.min_le_right .., fun row' hmem =>
      (Nat.min_le_right ..).trans (hle row' hmem)⟩, ?_⟩
    rcases Nat.le_total first row.1 with hmin | hmin
    · exact .inl (Nat.min_eq_left hmin)
    · exact .inr (.inl (Nat.min_eq_right hmin).symm)

/-- The rows that touch the range become one row with it, also where a row is updated in place. -/
theorem extendSharedOwner_row {i : Instance} {first last start stop k v : Nat}
    (hstart : (Table.rowsWhere i.sharedOwner (touching first last)).head?.elim first
      (fun row => min first row.1) = start)
    (hstop : (Table.rowsWhere i.sharedOwner (touching first last)).foldl
      (fun merged row => max merged row.2) last = stop) :
    (i.extendSharedOwner first last).sharedOwner[k]? = some v ↔ k = start ∧ v = stop ∨
      k ≠ start ∧ i.sharedOwner[k]? = some v ∧ touching first last k v = false := by
  have hreplaced : ((Table.deleteWhere i.sharedOwner (touching first last)).insert start stop)[k]? =
      some v ↔ k = start ∧ v = stop ∨
        k ≠ start ∧ i.sharedOwner[k]? = some v ∧ touching first last k v = false := by
    rw [Table.get?_insert_ite]
    split
    · grind
    · rw [Table.get?_deleteWhere_eq_some]; grind
  unfold Instance.extendSharedOwner
  simp only [touching_eq, hstart, hstop]
  split
  · rename_i start' stop' hrows
    split
    · rename_i heq
      subst heq
      have hmem (k v : Nat) := @Table.mem_rowsWhere _ _ _ _ _ i.sharedOwner (touching first last) k v
      simp only [hrows, mem_singleton, Prod.mk.injEq] at hmem
      have hsame := ((hmem start' stop').1 ⟨rfl, rfl⟩).1
      have hother (hne : k ≠ start') (hv : i.sharedOwner[k]? = some v) :
          touching first last k v = false :=
        Bool.eq_false_iff.2 fun htouch => hne ((hmem k v).2 ⟨hv, htouch⟩).1
      split
      · rw [Table.get?_insert_ite]; grind
      · grind
    · exact hreplaced
  · exact hreplaced

variable {i : Instance} {first last : Nat} {added : Nat → Prop}

theorem Owners.extend (h : Owners i.sharedOwner added) (hle : first ≤ last) :
    Owners (i.extendSharedOwner first last).sharedOwner fun n => added n ∨ first ≤ n ∧ n ≤ last := by
  have hmin := @head_min_spec _ first _
    (Table.sorted_rowsWhere i.sharedOwner (touching first last)) rfl
  have hmax := @foldl_max_spec (Table.rowsWhere i.sharedOwner (touching first last)) last _ rfl
  have hrow (k v : Nat) := @extendSharedOwner_row i first last _ _ k v rfl rfl
  generalize (Table.rowsWhere i.sharedOwner (touching first last)).head?.elim first
    (fun row => min first row.1) = start at *
  generalize (Table.rowsWhere i.sharedOwner (touching first last)).foldl
    (fun merged row => max merged row.2) last = stop at *
  simp only [Prod.forall, Prod.exists, Table.mem_rowsWhere, touching_iff] at hmin hmax
  simp only [← Bool.not_eq_true, touching_iff] at hrow
  obtain ⟨hstart, hmin, hstart'⟩ := hmin
  obtain ⟨_, hmax, hstop'⟩ := hmax
  have hclear {k v : Nat} (hold : i.sharedOwner[k]? = some v)
      (hapart : ¬ (k ≤ last + 1 ∧ first - 1 ≤ v)) : v + 1 < start ∨ stop + 1 < k := by
    have hkv := h.ordered hold
    rcases Nat.lt_or_ge (last + 1) k with hafter | _
    · rcases hstop' with rfl | ⟨a, _, ⟨ha, htouch⟩, rfl⟩
      · exact .inr hafter
      · exact .inr (h.separated ha hold (htouch.1.trans_lt hafter))
    · rcases hstart' with rfl | ⟨_, b, ⟨hb, htouch⟩, rfl⟩
      · omega
      · rename_i a
        rcases Nat.lt_trichotomy a k with hlt | rfl | hlt
        · have := h.separated hb hold hlt; omega
        · cases hold.symm.trans hb; exact absurd htouch hapart
        · exact .inl (h.separated hold hb hlt)
  refine ⟨fun hr => ?_, fun hr hr' hlt => ?_, fun n => ?_⟩
  · rcases (hrow ..).1 hr with ⟨rfl, rfl⟩ | ⟨-, hold, -⟩
    · omega
    · exact h.ordered hold
  · rcases (hrow ..).1 hr with ⟨rfl, rfl⟩ | ⟨-, hold, hapart⟩ <;>
      rcases (hrow ..).1 hr' with ⟨rfl, rfl⟩ | ⟨-, hold', hapart'⟩
    · omega
    · have := hclear hold' hapart'
      have := h.ordered hold'; omega
    · have := hclear hold hapart
      have := h.ordered hold; omega
    · exact h.separated hold hold' hlt
  · simp only [hrow, ← h.covers]
    constructor
    · rintro ⟨k, v, ⟨rfl, rfl⟩ | ⟨-, hold, -⟩, hk, hv⟩
      · -- What the joined row has beside the range is in the rows at its ends.
        rcases Nat.lt_or_ge n first with hn | hn
        · rcases hstart' with rfl | ⟨_, b, ⟨hb, htouch⟩, rfl⟩
          · omega
          · exact .inl ⟨_, b, hb, hk, by omega⟩
        · rcases hstop' with rfl | ⟨a, _, ⟨ha, htouch⟩, rfl⟩
          · exact .inr ⟨hn, hv⟩
          · rcases Nat.lt_or_ge last n with hn' | hn'
            · exact .inl ⟨a, _, ha, by omega, hv⟩
            · exact .inr ⟨hn, hn'⟩
      · exact .inl ⟨k, v, hold, hk, hv⟩
    · rintro (⟨k, v, hold, hk, hv⟩ | ⟨hk, hv⟩)
      · by_cases htouch : k ≤ last + 1 ∧ first - 1 ≤ v
        · have := hmin k v ⟨hold, htouch⟩
          have := hmax k v ⟨hold, htouch⟩
          exact ⟨start, stop, .inl ⟨rfl, rfl⟩, by omega, by omega⟩
        · have := hclear hold htouch
          have := h.ordered hold
          exact ⟨k, v, .inr ⟨by omega, hold, htouch⟩, hk, hv⟩
      · exact ⟨start, stop, .inl ⟨rfl, rfl⟩, by omega, by omega⟩

theorem Owners.extendShared (h : Owners i.sharedOwner added) (range : BlockRange) :
    Owners (i.extendShared range).sharedOwner
      fun n => added n ∨ range.last ≤ i64Max ∧ range.contains n := by
  have hle := range.start_le_last
  simp only [Instance.extendShared, Instance.extendSharedCoverageOwnerRange, u64I64,
    BlockRange.contains_iff]
  by_cases hfits : range.last ≤ i64Max
  · rw [if_pos (hle.trans hfits), if_pos hfits]
    simp only [hfits, true_and]; exact h.extend hle
  · rw [if_neg hfits]
    simp only [hfits, false_and, or_false]
    split <;> exact h

/-- Ranges added one after the other, in whatever order, end as ranges with a gap between any two that
hold exactly the blocks added. A range that does not fit the signed columns is refused. -/
theorem shared_owner_ranges (d : ProcessorDescriptor) (ranges : List BlockRange) :
    Owners (ranges.foldl Instance.extendShared (.registered d)).sharedOwner
      fun n => ∃ range ∈ ranges, range.last ≤ i64Max ∧ range.contains n := by
  have hrun (ranges : List BlockRange) : ∀ {i : Instance} {added : Nat → Prop},
      Owners i.sharedOwner added → Owners (ranges.foldl Instance.extendShared i).sharedOwner
        fun n => added n ∨ ∃ range ∈ ranges, range.last ≤ i64Max ∧ range.contains n := by
    induction ranges with
    | nil => exact fun h => by simpa using h
    | cons range ranges ih =>
      intro i added h
      simpa only [foldl_cons, mem_cons, exists_eq_or_imp, or_assoc] using ih (h.extendShared range)
  have hnone (n v : Nat) : (∅ : Table Nat Nat)[n]? ≠ some v := fun h => Table.not_mem_empty h
  simpa using @hrun ranges (.registered d) (fun _ => False) ⟨fun h => absurd h (hnone _ _),
    fun h => absurd h (hnone _ _), fun n => ⟨fun ⟨_, _, h, _⟩ => hnone _ _ h, False.elim⟩⟩

end Leani.Processor
