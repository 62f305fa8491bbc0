import Leani.Delivery.Retention

/-!
# Where commits end

Neighbouring records with the same block, finality, direction and origin count as one commit. What
the consumer of a live stream may acknowledge is therefore decided by two neighbours in the log, and
once a record has a successor it never changes whether a commit ends there.
-/

namespace Leani.Delivery

open Library Std List Option Table Log

/-- No record of the same commit follows the record `seq`. -/
def EndsCommit (history : List ChangeRow) (seq : Nat) : Prop :=
  ∀ r r', history[seq - 1]? = some r → history[seq]? = some r' → ¬ r.SameCommit r'

/-- The first of `rows` does not carry on the commit at the end of `history`. -/
def Separated (history rows : List ChangeRow) : Prop :=
  ∀ last ∈ history.getLast?, ∀ first ∈ rows.head?, ¬ last.SameCommit first

variable {seq : Nat}

theorem EndsCommit.append {hist rows : List ChangeRow} (h : EndsCommit hist seq) (hpos : 0 < seq)
    (hle : seq ≤ hist.length) (hsep : Separated hist rows) : EndsCommit (hist ++ rows) seq := by
  intro r r' hr hr' hsame
  rw [getElem?_append_left (by omega)] at hr
  rcases Nat.lt_or_eq_of_le hle with hlt | rfl
  · rw [getElem?_append_left hlt] at hr'; exact h r r' hr hr' hsame
  · rw [getElem?_append_right le_rfl, Nat.sub_self, ← head?_eq_getElem?] at hr'
    rw [← getLast?_eq_getElem?] at hr; exact hsep r hr r' hr' hsame

variable {log : Log ChangeRow} {s : Stream}

theorem Holds.newest_eq (h : Holds log s) :
    (lastWhere s.changeLog fun _ _ => true).map (·.2) = log.history.getLast? := by
  have hlatest := h.latestSequence
  unfold Delivery.latestSequence at hlatest
  cases hlast : lastWhere s.changeLog fun _ _ => true with
  | none =>
    rw [hlast] at hlatest
    by_cases h0 : log.head = 0
    · rw [map_none, eq_nil_of_length_eq_zero h0, getLast?_nil]
    · rw [if_neg h0] at hlatest; cases hlatest
  | some row =>
    rw [hlast] at hlatest
    obtain ⟨hrow, -, -⟩ := lastWhere_eq_some hlast
    have hb := h.bounds hrow
    rw [if_neg (by omega), map_some, some.injEq] at hlatest
    rw [hlatest] at hrow
    rw [map_some, getLast?_eq_getElem?, ← hrow, h.entries, row?_of_lt (h.newest (by omega))]; rfl

theorem Holds.next_row (h : Holds log s) (hseq : log.pruned < seq) :
    (firstWhere s.changeLog fun n _ => seq < n).map (·.2) = log.history[seq]? := by
  rw [firstWhere, h.rows_after (Nat.le_of_lt hseq)]
  cases hdrop : log.history.drop seq with
  | nil =>
    rw [drop_eq_nil_iff] at hdrop; rw [numbered_nil, head?_nil, map_none, getElem?_eq_none hdrop]
  | cons r rs =>
    have hr : (log.history.drop seq)[0]? = some r := by rw [hdrop]; rfl
    rw [getElem?_drop, Nat.add_zero] at hr; rw [numbered_cons, head?_cons, map_some, hr]

variable {block : Nat}

theorem Holds.continues_iff (h : Holds log s) :
    liveCommitContinuesAfter s seq = some block ↔ log.pruned < seq ∧ ∃ r r', log.history[seq - 1]? =
    some r ∧ log.history[seq]? = some r' ∧ r.SameCommit r' ∧ r.block.number = block := by
  unfold liveCommitContinuesAfter
  cases hcurr : s.changeLog[seq]? with
  | none =>
    refine iff_of_false nofun ?_
    rintro ⟨hseq, r, r', hr, -⟩; rw [h.entries, row?_of_lt hseq, hr] at hcurr; cases hcurr
  | some current =>
    have hseq := (h.bounds hcurr).1
    rw [h.entries, row?_of_lt hseq] at hcurr
    have hnext := h.next_row hseq
    cases hfirst : firstWhere s.changeLog fun n _ => seq < n with
    | none =>
      rw [hfirst, map_none] at hnext
      refine iff_of_false nofun ?_
      rintro ⟨-, r, r', -, hr', -⟩; rw [← hnext] at hr'; cases hr'
    | some row =>
      rw [hfirst, map_some] at hnext
      rw [ite_none_right_eq_some, some.injEq]
      constructor
      · rintro ⟨hsame, hblock⟩; exact ⟨hseq, current, row.2, hcurr, hnext.symm, hsame, hblock⟩
      · rintro ⟨-, r, r', hr, hr', hsame, hblock⟩
        rw [hcurr, some.injEq] at hr
        rw [← hnext, some.injEq] at hr'
        subst hr
        subst hr'; exact ⟨hsame, hblock⟩

theorem Holds.endsCommit (h : Holds log s) {r : ChangeRow} (hr : s.changeLog[seq]? = some r)
    (hlast : liveCommitContinuesAfter s seq = none) : EndsCommit log.history seq := by
  intro r₁ r' hr₁ hr' hsame
  have hsome := h.continues_iff.2 ⟨(h.bounds hr).1, r₁, r', hr₁, hr', hsame, rfl⟩
  rw [hlast] at hsome; cases hsome

theorem newlyAcknowledgedWork_error {acknowledged sequence : Nat} :
    newlyAcknowledgedWork s acknowledged sequence ≠ .error (.acknowledgementMidBlock seq block) := by
  intro h
  obtain ⟨_, _, -, h⟩ := exists_of_foldExcept_eq_error h
  simp only [bind_eq_error, ensure_eq_error, reduceCtorEq, and_false,
    pure_ne_error, exists_false, or_false] at h
  unfold backfillProgressBlocks at h
  split at h
  · cases h
  · simp only [bind_eq_error, ensure_eq_error, reduceCtorEq, and_false, false_or,
      pure_ne_error, exists_false] at h

theorem acknowledgeConsumer_midBlock {now : Nat} {id : String} {sess : Option Nat} {sequence : Nat}
    (h : acknowledgeConsumer s now id sess sequence = .error (.acknowledgementMidBlock seq block)) :
    liveCommitContinuesAfter s sequence = some block := by
  simp only [acknowledgeConsumer, bind_eq_error, required_eq_error, ensure_eq_error, reduceCtorEq,
    and_false, false_or] at h
  obtain ⟨_, -, _, -, h⟩ := h
  split at h
  · simp only [advanceAcknowledgement, bind_eq_error, ensure_eq_error, u64I64_eq_error,
      newlyAcknowledgedWork_error, reduceCtorEq, and_false, false_or, pure_ne_error, exists_false,
      or_false] at h
    obtain ⟨_, -, h⟩ := h
    unfold validateAdvance at h
    split at h
    · simp only [bind_eq_error, ensure_eq_error, reduceCtorEq, and_false, false_or] at h
      obtain ⟨_, -, _, -, h⟩ := h
      unfold validateBoundary at h
      split at h
      · rw [ensure_eq_error] at h; cases h.2
      · split at h
        · rename_i b hb
          rw [hb]; cases h; rfl
        · cases h
      · cases h
    · exact absurd h pure_ne_error
  · simp only [bind_eq_error, ensure_eq_error, reduceCtorEq, and_false, false_or, pure_ne_error,
      exists_false] at h

end Leani.Delivery
