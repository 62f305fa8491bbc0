import Leani.RawHistory.Publishing

/-!
# Progress of raw-history jobs

The counters of a job are the sums over the closed segments it owns, a complete job's blocks lie in
them, and a cancelled or failed job keeps its state. Each transaction keeps the first two, whatever
its arguments: a job whose segments change is counted again in the same transaction.
-/

namespace Leani.RawHistory

open Library Std Leani.Filtering List Table Catalog SegmentOwnerKind

variable {digests : Digests} {c c' : Catalog} {id segment : String} {row : SegmentRow}

/-! ## Owned segments -/

variable {claim : SegmentOwnerClaim}

theorem Catalog.owns_iff :
    c.owns segment claim = true ↔ c.owners[(segment, claim.kind.asStr, claim.ownerId)]? = some () := by
  rw [owns, ExtTreeMap.contains_iff_mem, ExtTreeMap.mem_iff_isSome_getElem?, Option.isSome_iff_exists]
  exact ⟨fun ⟨_, h⟩ => h, fun h => ⟨(), h⟩⟩

theorem Catalog.mem_ownedSegments : (segment, row) ∈ c.ownedSegments id ↔ c.segments[segment]? =
    some row ∧ row.state = .closed ∧ c.owns segment ⟨.rawHistoryJob, id⟩ = true := by
  rw [ownedSegments, mem_rowsWhere, Bool.and_eq_true, decide_eq_true_iff]

theorem Catalog.mem_jobOwners : id ∈ c.jobOwners segment ↔
    c.owns segment ⟨.rawHistoryJob, id⟩ = true := by
  rw [jobOwners, mem_map, owns_iff]
  constructor
  · rintro ⟨⟨⟨_, _, _⟩, ⟨⟩⟩, hrow, rfl⟩
    rw [mem_rowsWhere, Bool.and_eq_true, decide_eq_true_iff, decide_eq_true_iff] at hrow
    obtain ⟨hrow, rfl, rfl⟩ := hrow; exact hrow
  · intro h
    refine ⟨((segment, SegmentOwnerKind.rawHistoryJob.asStr, id), ()), ?_, rfl⟩
    rw [mem_rowsWhere, Bool.and_eq_true, decide_eq_true_iff, decide_eq_true_iff]
    exact ⟨h, rfl, rfl⟩

theorem Catalog.ownedSegments_congr (h : ∀ seg row,
    (c.segments[seg]? = some row ∧ row.state = .closed ∧ c.owns seg ⟨.rawHistoryJob, id⟩ = true) ↔
      c'.segments[seg]? = some row ∧ row.state = .closed ∧
        c'.owns seg ⟨.rawHistoryJob, id⟩ = true) : c.ownedSegments id = c'.ownedSegments id := by
  refine rowsWhere_eq (sorted_rowsWhere _ _) fun seg row => ?_
  rw [mem_ownedSegments, Bool.and_eq_true, decide_eq_true_iff]; exact (h seg row).symm

/-! ## The invariant -/

/-- The counters of a job are the sums over `owned`, the closed segments it owns. -/
structure Counted (owned : List (String × SegmentRow)) (job : JobRow) : Prop where
  segments : job.committedSegments = owned.length
  logicalBytes : job.committedLogicalBytes = (owned.map (·.2.metadata.logicalBytes)).sum
  physicalBytes : job.committedPhysicalBytes = (owned.map (·.2.metadata.physicalBytes)).sum

/-- Every block a job asks for lies in one of the segments `owned`. -/
def Covered (owned : List (String × SegmentRow)) (job : JobRow) : Prop :=
  ∃ spec, decodeSpec job.spec = .ok spec ∧ ∀ block, Range.Covers spec.ranges block →
    ∃ segment ∈ owned, block ∈ segment.2.metadata.descriptor.range

/-- The jobs and their segments agree, but for the counters of the jobs in `stale` and the coverage
of the jobs in `lapsed`: inside a transaction a job waits there to be counted again. -/
structure Coherent (stale lapsed : String → Prop) (c : Catalog) : Prop where
  owned : ∀ {key : String × String × String}, c.owners[key]? = some () →
    ∃ row, c.segments[key.1]? = some row ∧ row.state = .closed
  known : ∀ {segment id : String}, c.owns segment ⟨.rawHistoryJob, id⟩ = true →
    ∃ job, c.jobs[id]? = some job
  counted : ∀ {id : String} {job : JobRow}, c.jobs[id]? = some job → ¬ stale id →
    Counted (c.ownedSegments id) job
  covered : ∀ {id : String} {job : JobRow}, c.jobs[id]? = some job → ¬ lapsed id →
    job.state = .complete → Covered (c.ownedSegments id) job

abbrev Consistent (c : Catalog) : Prop := Coherent (fun _ => False) (fun _ => False) c

variable {stale lapsed : String → Prop}

theorem Coherent.mono {stale' lapsed' : String → Prop} (h : Coherent stale lapsed c) (hstale : ∀ id,
    stale id → stale' id) (hlapsed : ∀ id, lapsed id → lapsed' id) : Coherent stale' lapsed' c where
  owned := h.owned
  known := h.known
  counted := fun hjob hid => h.counted hjob (mt (hstale _) hid)
  covered := fun hjob hid => h.covered hjob (mt (hlapsed _) hid)

theorem consistent_empty : Consistent empty where
  owned := fun h => (not_mem_empty h).elim
  known := fun h => (not_mem_empty (owns_iff.1 h)).elim
  counted := fun h => (not_mem_empty h).elim
  covered := fun h => (not_mem_empty h).elim

theorem Coherent.reservations (h : Coherent stale lapsed c)
    (reservations : Table String PendingSegment) :
    Coherent stale lapsed { c with reservations := reservations } :=
  ⟨h.owned, h.known, h.counted, h.covered⟩

/-! ## Jobs that persist -/

structure JobEvolves (job job' : JobRow) : Prop where
  spec : job'.spec = job.spec
  settled : job.state.isSettled = true → job'.state = job.state

def JobsEvolve (c c' : Catalog) : Prop :=
  ∀ id : String, Option.Rel JobEvolves c.jobs[id]? c'.jobs[id]?

theorem JobEvolves.refl (job : JobRow) : JobEvolves job job := ⟨rfl, fun _ => rfl⟩

theorem JobEvolves.trans {a b d : JobRow} (h : JobEvolves a b) (h' : JobEvolves b d) :
    JobEvolves a d where
  spec := h'.spec.trans h.spec
  settled := fun ha => by
    have hb := h.settled ha; rw [h'.settled (hb ▸ ha), hb]

theorem JobsEvolve.refl (c : Catalog) : JobsEvolve c c := by
  intro id
  cases c.jobs[id]? with
  | none => exact .none
  | some job => exact .some (.refl job)

variable {c'' : Catalog}

theorem JobsEvolve.trans (h : JobsEvolve c c') (h' : JobsEvolve c' c'') : JobsEvolve c c'' := by
  intro id
  have hid := h id
  have hid' := h' id
  revert hid hid'
  cases c.jobs[id]? <;> cases c'.jobs[id]? <;> cases c''.jobs[id]? <;> intro hid hid' <;>
    cases hid <;> cases hid'
  · exact .none
  · rename_i h₁ h₂; exact .some (h₁.trans h₂)

variable {job : JobRow}

theorem JobsEvolve.exists_after (h : JobsEvolve c c') (hjob : c.jobs[id]? = some job) :
    ∃ job', c'.jobs[id]? = some job' ∧ JobEvolves job job' := by
  have hid := h id
  rw [hjob] at hid
  cases hid' : c'.jobs[id]? with
  | none => rw [hid'] at hid; cases hid
  | some job' => rw [hid'] at hid; cases hid with | some h => exact ⟨job', rfl, h⟩

variable {job' : JobRow}

theorem JobsEvolve.exists_before (h : JobsEvolve c c')
    (hjob : c'.jobs[id]? = some job') : ∃ job, c.jobs[id]? = some job ∧ JobEvolves job job' := by
  have hid := h id
  rw [hjob] at hid
  cases hid' : c.jobs[id]? with
  | none => rw [hid'] at hid; cases hid
  | some job => rw [hid'] at hid; cases hid with | some h => exact ⟨job, rfl, h⟩

theorem JobsEvolve.insert (hjob : c.jobs[id]? = some job)
    (h : JobEvolves job job') : JobsEvolve c { c with jobs := c.jobs.insert id job' } := by
  intro a
  rw [get?_insert_ite]
  split
  · rename_i ha; rw [ha, hjob]; exact .some h
  · exact JobsEvolve.refl c a

variable {p : String → JobRow → Bool} {f : JobRow → JobRow}

theorem JobsEvolve.updateWhere (h : ∀ id job, p id job = true → JobEvolves job (f job)) :
    JobsEvolve c { c with jobs := updateWhere c.jobs p f } := by
  intro a
  rw [get?_updateWhere]
  cases c.jobs[a]? with
  | none => exact .none
  | some job =>
    refine .some ?_
    dsimp only
    split
    · exact h a job ‹_›
    · exact .refl job

/-! ## Writing jobs -/

theorem Coherent.updateWhere (h : Coherent stale lapsed c) (hspec : ∀ job, (f job).spec = job.spec)
    (hcnt : ∀ {owned job}, Counted owned job → Counted owned (f job))
    (hst : ∀ job, (f job).state = .complete → job.state = .complete) :
    Coherent stale lapsed { c with jobs := updateWhere c.jobs p f } where
  owned := h.owned
  known := fun howns => by
    obtain ⟨job, hjob⟩ := h.known howns; exact ⟨_, by rw [get?_updateWhere, hjob]; rfl⟩
  counted := fun {id} job' hjob hid => by
    rw [get?_updateWhere_eq_some] at hjob
    obtain ⟨job, hjob, rfl⟩ := hjob
    split
    · exact hcnt (h.counted hjob hid)
    · exact h.counted hjob hid
  covered := fun {id} job' hjob hid hcompl => by
    rw [get?_updateWhere_eq_some] at hjob
    obtain ⟨job, hjob, rfl⟩ := hjob
    split at hcompl
    · rename_i hp
      obtain ⟨spec, hdec, hcover⟩ := h.covered hjob hid (hst job hcompl)
      rw [if_pos hp]; exact ⟨spec, by rw [hspec]; exact hdec, hcover⟩
    · rename_i hp; rw [if_neg hp]; exact h.covered hjob hid hcompl

theorem Coherent.insert (h : Coherent stale lapsed c)
    (hcnt : ¬ stale id → Counted (c.ownedSegments id) job')
    (hcov : ¬ lapsed id → job'.state = .complete → Covered (c.ownedSegments id) job') :
    Coherent stale lapsed { c with jobs := c.jobs.insert id job' } where
  owned := h.owned
  known := fun {_ a} howns => by
    obtain ⟨other, hother⟩ := h.known howns
    rw [get?_insert_ite]
    split
    · exact ⟨_, rfl⟩
    · exact ⟨other, hother⟩
  counted := fun {a} other hother ha => by
    rcases insert_cases hother with ⟨heq, rfl⟩ | ⟨-, hother⟩
    · exact heq ▸ hcnt (heq ▸ ha)
    · exact h.counted hother ha
  covered := fun {a} other hother ha hcompl => by
    rcases insert_cases hother with ⟨heq, rfl⟩ | ⟨-, hother⟩
    · exact heq ▸ hcov (heq ▸ ha) hcompl
    · exact h.covered hother ha hcompl

/-! ## Counting a job again -/

theorem checkedSum_eq_ok {vals : List Nat} {sum : Nat} (h : checkedSum vals = .ok sum) :
    sum = vals.sum := by
  induction vals generalizing sum with
  | nil =>
    rw [checkedSum, pure_eq_ok] at h; exact h.symm
  | cons value vals ih =>
    simp only [checkedSum, eq_ok] at h
    obtain ⟨_, hrest, -, -, rfl⟩ := h; rw [sum_cons, ih hrest]

theorem u64I64_eq_ok {value value' : Nat} {name : String} (h : u64I64 value name = .ok value') :
    value' = value := by
  simp only [u64I64, eq_ok] at h
  obtain ⟨-, -, rfl⟩ := h; rfl

structure Refreshed (owned : List (String × SegmentRow)) (job job' : JobRow) : Prop where
  evolves : JobEvolves job job'
  counted : Counted owned job'
  covered : job'.state = .complete → job.state = .complete ∨ Covered owned job'

theorem refreshJobProgress_eq_ok (h : refreshJobProgress c id = .ok c') : ∃ job job',
    c.jobs[id]? = some job ∧ Refreshed (c.ownedSegments id) job job' ∧
      c' = { c with jobs := c.jobs.insert id job' } := by
  simp only [refreshJobProgress, eq_ok] at h
  obtain ⟨job, hjob, spec, hspec, _, hlogical, _, hphysical, _, hcount, _,
    hlogical', physical', hphysical', rfl⟩ := h
  refine ⟨job, _, hjob, ?_, rfl⟩
  refine ⟨⟨rfl, fun hsettled => ?_⟩, ⟨?_, ?_, ?_⟩, fun hcompl => ?_⟩
  · rw [hsettled, Bool.not_true, Bool.and_false, if_neg Bool.false_ne_true]
  · exact u64I64_eq_ok hcount
  · exact (u64I64_eq_ok hlogical').trans (checkedSum_eq_ok hlogical)
  · exact (u64I64_eq_ok hphysical').trans (checkedSum_eq_ok hphysical)
  · split at hcompl
    · rename_i hgaps
      rw [Bool.and_eq_true, List.isEmpty_iff] at hgaps
      refine .inr ⟨spec, hspec, fun _ hblk => ?_⟩
      obtain ⟨_, hrange, hin⟩ := covers_of_requestedGaps_eq_nil hgaps.1 hblk
      obtain ⟨seg, hseg, rfl⟩ := mem_map.1 hrange; exact ⟨seg, hseg, hin⟩
    · exact .inl hcompl

theorem Coherent.refresh (h : Coherent stale lapsed c) (hlapsed : lapsed id → ∀ job,
    c.jobs[id]? = some job → job.state ≠ .complete) (hrefresh : refreshJobProgress c id = .ok c') :
    Coherent (fun a => stale a ∧ a ≠ id) (fun a => lapsed a ∧ a ≠ id) c' ∧ JobsEvolve c c' := by
  obtain ⟨job, job', hjob, hrefr, rfl⟩ := refreshJobProgress_eq_ok hrefresh
  have hcov : job'.state = .complete → Covered (c.ownedSegments id) job' := by
    intro hcompl
    rcases hrefr.covered hcompl with hbef | hcov
    · have hnot : ¬ lapsed id := fun hid => hlapsed hid job hjob hbef
      obtain ⟨spec, hdec, hcover⟩ := h.covered hjob hnot hbef
      exact ⟨spec, hrefr.evolves.spec ▸ hdec, hcover⟩
    · exact hcov
  refine ⟨⟨h.owned, ?_, ?_, ?_⟩, .insert hjob hrefr.evolves⟩
  · exact (h.insert (fun _ => hrefr.counted) fun _ => hcov).known
  · intro a other hother ha
    rcases insert_cases hother with ⟨heq, rfl⟩ | ⟨hne, hother⟩
    · exact heq ▸ hrefr.counted
    · exact h.counted hother fun hstale => ha ⟨hstale, hne⟩
  · intro a other hother ha hcompl
    rcases insert_cases hother with ⟨heq, rfl⟩ | ⟨hne, hother⟩
    · exact heq ▸ hcov hcompl
    · exact h.covered hother (fun hlapse => ha ⟨hlapse, hne⟩) hcompl

/-! ## Owners -/

def Catalog.withOwner (c : Catalog) (segment : String) (owner : SegmentOwnerClaim) : Catalog :=
  { c with owners := c.owners.insert (segment, owner.kind.asStr, owner.ownerId) () }

variable {owner : SegmentOwnerClaim} {s a : String}

theorem Catalog.owns_withOwner : (c.withOwner segment owner).owns s ⟨.rawHistoryJob, a⟩ = true ↔
      (s = segment ∧ owner.kind = .rawHistoryJob ∧ a = owner.ownerId) ∨
        c.owns s ⟨.rawHistoryJob, a⟩ = true := by
  rw [owns_iff, owns_iff, withOwner, get?_insert_ite]
  split
  · rename_i heq
    simp only [Prod.mk.injEq] at heq
    exact ⟨fun _ => .inl ⟨heq.1, (asStr_injective heq.2.1).symm, heq.2.2⟩, fun _ => rfl⟩
  · rename_i hne
    refine ⟨.inr, fun hor => hor.resolve_left fun ⟨hs, hkind, ha⟩ => hne ?_⟩
    rw [hs, hkind, ha]

theorem insertOwner_rows (h : insertOwner segment c owner = .ok c') :
    c'.segments = c.segments ∧ c'.owners = (c.withOwner segment owner).owners := by
  unfold insertOwner at h
  split at h
  · cases h; exact ⟨rfl, rfl⟩
  · cases h; exact ⟨rfl, rfl⟩
  · obtain ⟨_, _, -, -, rfl⟩ := refreshJobProgress_eq_ok h; exact ⟨rfl, rfl⟩

theorem Consistent.insertOwnerRow (h : Consistent c)
    (hrow : ∃ row, c.segments[segment]? = some row ∧ row.state = .closed) (hjob : owner.kind =
    .rawHistoryJob → ∃ job, c.jobs[owner.ownerId]? = some job) : Coherent (fun a => owner.kind =
    .rawHistoryJob ∧ a = owner.ownerId) (fun _ => False) (c.withOwner segment owner) := by
  refine ⟨fun {_} hkey => ?_, fun {s a} hown => ?_, fun {a job} hjob ha => ?_,
    fun {a job} hjob _ hcompl => ?_⟩
  · rw [withOwner] at hkey
    rcases insert_cases hkey with ⟨heq, hkey⟩ | ⟨-, hkey⟩
    · rw [heq]; exact hrow
    · exact h.owned hkey
  · rcases owns_withOwner.1 hown with ⟨-, hkind, rfl⟩ | hown
    · exact hjob hkind
    · exact h.known hown
  · rw [← ownedSegments_congr (c := c) fun s row => ?_]
    · exact h.counted hjob id
    · rw [owns_withOwner]
      exact ⟨fun ⟨h₁, h₂, h₃⟩ => ⟨h₁, h₂, .inr h₃⟩, fun ⟨h₁, h₂, h₃⟩ =>
        ⟨h₁, h₂, h₃.resolve_left fun ⟨_, hkind, heq⟩ => ha ⟨hkind, heq⟩⟩⟩
  · obtain ⟨spec, hdec, hcover⟩ := h.covered hjob id hcompl
    refine ⟨spec, hdec, fun block hblk => ?_⟩
    obtain ⟨⟨s, row⟩, hmem, hin⟩ := hcover block hblk
    rw [mem_ownedSegments] at hmem
    exact ⟨(s, row), mem_ownedSegments.2 ⟨hmem.1, hmem.2.1, owns_withOwner.2 (.inr hmem.2.2)⟩, hin⟩

structure Keeps (c c' : Catalog) : Prop where
  consistent : Consistent c → Consistent c'
  jobs : JobsEvolve c c'

theorem Keeps.refl (c : Catalog) : Keeps c c := ⟨id, .refl c⟩

theorem Keeps.trans (h : Keeps c c') (h' : Keeps c' c'') : Keeps c c'' :=
  ⟨fun hc => h'.consistent (h.consistent hc), h.jobs.trans h'.jobs⟩

structure Sheds (c c' : Catalog) : Prop extends Keeps c c' where
  owners : ∀ key : String × String × String, c'.owners[key]? = some () → c.owners[key]? = some ()
  segments : ∀ {segment : String} {row : SegmentRow}, c'.segments[segment]? = some row →
    c.segments[segment]? = some row

theorem Sheds.refl (c : Catalog) : Sheds c c := ⟨.refl c, fun _ => id, id⟩

theorem Sheds.trans (h : Sheds c c') (h' : Sheds c' c'') : Sheds c c'' :=
  ⟨h.toKeeps.trans h'.toKeeps, fun key hkey => h.owners key (h'.owners key hkey),
    fun hrow => h.segments (h'.segments hrow)⟩

theorem refreshJobProgress_sheds (h : refreshJobProgress c id = .ok c') : Sheds c c' := by
  have hconsis : Consistent c → Consistent c' := fun hc =>
    (Coherent.refresh hc (fun hfalse => hfalse.elim) h).1.mono (fun _ => And.left) fun _ => And.left
  obtain ⟨_, _, hjob, hrefr, rfl⟩ := refreshJobProgress_eq_ok h
  exact ⟨⟨hconsis, .insert hjob hrefr.evolves⟩, fun _ hkey => hkey, fun hrow => hrow⟩

theorem JobEvolves.lastError (job : JobRow) (error : Option String) :
    JobEvolves job { job with lastError := error } := ⟨rfl, fun _ => rfl⟩

theorem insertOwner_keeps (hrow : ∃ row, c.segments[segment]? = some row ∧ row.state = .closed)
    (h : insertOwner segment c owner = .ok c') : Keeps c c' := by
  unfold insertOwner at h
  have hother : owner.kind ≠ .rawHistoryJob → Keeps c (c.withOwner segment owner) :=
    fun hkind => ⟨fun hc => (hc.insertOwnerRow hrow fun heq => absurd heq hkind).mono
      (fun _ ha => hkind ha.1) fun _ => id, JobsEvolve.refl c⟩
  split at h
  · rename_i hkind; cases h; exact hother fun heq => by rw [heq] at hkind; cases hkind
  · rename_i hkind; cases h; exact hother fun heq => by rw [heq] at hkind; cases hkind
  · rename_i hkind
    obtain ⟨job, _, hjob, hrefr, rfl⟩ := refreshJobProgress_eq_ok h
    have hexists : ∃ job, c.jobs[owner.ownerId]? = some job := by
      obtain ⟨bef, hbef, -⟩ := get?_updateWhere_eq_some.1 hjob; exact ⟨bef, hbef⟩
    refine ⟨fun hc => ?_, ?_⟩
    · have hrows := (hc.insertOwnerRow hrow fun _ => hexists).updateWhere (p := fun id row => id =
        owner.ownerId && !row.state.isTerminal) (f := fun row => { row with lastError := none })
        (fun _ => rfl) (fun hcnt => ⟨hcnt.1, hcnt.2, hcnt.3⟩) fun _ hst => hst
      exact (hrows.refresh (fun hfalse => hfalse.elim) h).1.mono
        (fun _ ⟨⟨_, heq⟩, hne⟩ => hne heq) fun _ => And.left
    · refine .trans (JobsEvolve.updateWhere fun _ job _ => .lastError job none) (.insert hjob ?_)
      exact hrefr.evolves

variable {owners : List SegmentOwnerClaim}

theorem insertOwners_keeps (hrow : ∃ row, c.segments[segment]? = some row ∧ row.state = .closed)
    (h : insertOwners c segment owners = .ok c') : Keeps c c' := by
  have hinvariant := foldExcept_invariant
    (fun t => Keeps c t ∧ t.segments = c.segments) (fun {t _ _} _ ht hstep => by
      obtain ⟨hkeeps, hsegs⟩ := ht
      exact ⟨hkeeps.trans (insertOwner_keeps (hsegs ▸ hrow) hstep),
        (insertOwner_rows hstep).1.trans hsegs⟩) ⟨.refl c, rfl⟩ h
  exact hinvariant.1

theorem closedSegment_eq_some : closedSegment c id = some row ↔
    c.segments[id]? = some row ∧ row.state = .closed := by
  rw [closedSegment, Option.filter_eq_some_iff, decide_eq_true_iff]

theorem addOwner_keeps (h : addOwner digests c id owner = .ok c') : Keeps c c' := by
  simp only [addOwner, eq_ok] at h
  obtain ⟨-, -, row, hrow, -, -, h⟩ := h
  exact insertOwner_keeps ⟨row, closedSegment_eq_some.1 hrow⟩ h

/-! ## Segments that go -/

variable {error : String}

theorem lapseJob_refreshes (hc : Coherent stale lapsed c) (h : lapseJob error c id = .ok c') :
    Coherent (fun a => stale a ∧ a ≠ id) (fun a => lapsed a ∧ a ≠ id) c' := by
  unfold lapseJob at h
  have hrows := hc.updateWhere (p := fun a row => a = id && !row.state.isSettled)
    (f := fun row => { row with
      lastError := some error
      state := if row.state = .complete then .queued else row.state }) (fun _ => rfl)
    (fun hcnt => ⟨hcnt.1, hcnt.2, hcnt.3⟩) (fun job hst => by
      split at hst
      · cases hst
      · exact hst)
  refine (hrows.refresh (fun _ job hjob hcompl => ?_) h).1
  obtain ⟨_, -, rfl⟩ := get?_updateWhere_eq_some.1 hjob
  split at hcompl
  · split at hcompl
    · cases hcompl
    · contradiction
  · -- a complete job is not settled, so it was sent back to the queue
    rename_i hnot
    apply hnot
    rw [hcompl, decide_eq_true rfl]; rfl

theorem lapseJob_evolves (h : lapseJob error c id = .ok c') :
    JobsEvolve c c' ∧ c'.owners = c.owners ∧ c'.segments = c.segments := by
  unfold lapseJob at h
  have hrows := JobsEvolve.updateWhere (c := c) (p := fun a row => a = id && !row.state.isSettled)
    (f := fun row => { row with
      lastError := some error
      state := if row.state = .complete then .queued else row.state })
    fun a row hp => ⟨rfl, fun hsettled => by
      rw [hsettled, Bool.not_true, Bool.and_false] at hp; exact absurd hp Bool.false_ne_true⟩
  obtain ⟨_, _, hjob, hrefr, rfl⟩ := refreshJobProgress_eq_ok h
  exact ⟨hrows.trans (.insert hjob hrefr.evolves), rfl, rfl⟩

theorem foldExcept_lapseJob {owners : List String} : ∀ {c : Catalog}, Coherent (fun a => a ∈ owners)
    (fun a => a ∈ owners) c → foldExcept (lapseJob error) c owners = .ok c' → Consistent c' := by
  induction owners with
  | nil =>
    intro c hc h
    rw [foldExcept_nil, Except.ok.injEq] at h
    subst h; exact hc.mono (fun _ hmem => not_mem_nil hmem) fun _ hmem => not_mem_nil hmem
  | cons owner owners ih =>
    intro c hc h
    rw [foldExcept_cons, bind_eq_ok] at h
    obtain ⟨_, ht, h⟩ := h
    refine ih ((lapseJob_refreshes hc ht).mono ?_ ?_) h
    · exact fun a ha => (mem_cons.1 ha.1).resolve_left ha.2
    · exact fun a ha => (mem_cons.1 ha.1).resolve_left ha.2

def Catalog.withoutSegment (c : Catalog) (segment : String) : Catalog :=
  { c with
    segments := c.segments.erase segment
    owners := Table.deleteWhere c.owners fun key _ => key.1 = segment }

theorem Catalog.owns_withoutSegment :
    (c.withoutSegment segment).owns s claim = true ↔ s ≠ segment ∧ c.owns s claim = true := by
  rw [owns_iff, owns_iff, withoutSegment, get?_deleteWhere_eq_some, decide_eq_false_iff_not]
  exact and_comm

theorem Catalog.get?_withoutSegment :
    (c.withoutSegment segment).segments[s]? = if s = segment then none else c.segments[s]? :=
  get?_erase_ite c.segments s segment

theorem Consistent.withoutSegment (h : Consistent c) : Coherent (fun a => a ∈ c.jobOwners segment)
    (fun a => a ∈ c.jobOwners segment) (c.withoutSegment segment) := by
  have hsame : ∀ {a : String}, a ∉ c.jobOwners segment →
      c.ownedSegments a = (c.withoutSegment segment).ownedSegments a := by
    intro a ha
    refine ownedSegments_congr fun s _ => ?_
    rw [owns_withoutSegment, get?_withoutSegment]
    by_cases hs : s = segment
    · rw [if_pos hs]; exact ⟨fun ⟨_, _, howns⟩ => absurd (mem_jobOwners.2 (hs ▸ howns)) ha, nofun⟩
    · rw [if_neg hs]
      exact ⟨fun ⟨h₁, h₂, h₃⟩ => ⟨h₁, h₂, hs, h₃⟩, fun ⟨h₁, h₂, _, h₃⟩ => ⟨h₁, h₂, h₃⟩⟩
  refine ⟨fun {_} hkey => ?_, fun {s a} hown => ?_, fun {a job} hjob ha => ?_,
    fun {a job} hjob ha hcompl => ?_⟩
  · obtain ⟨hkey, hne⟩ := get?_deleteWhere_eq_some.1 hkey
    rw [decide_eq_false_iff_not] at hne
    rw [get?_withoutSegment, if_neg hne]; exact h.owned hkey
  · exact h.known (owns_withoutSegment.1 hown).2
  · exact hsame ha ▸ h.counted hjob id
  · exact hsame ha ▸ h.covered hjob id hcompl

variable {metadata : SegmentMetadata} {reason : String}

theorem dropSegment_cases (h : dropSegment c id metadata reason = .ok c') :
    c' = c ∨ ∃ error, foldExcept (lapseJob error) (c.withoutSegment id) (c.jobOwners id) = .ok c' := by
  unfold dropSegment at h
  split at h
  · cases h; exact .inl rfl
  · split at h
    · exact .inr ⟨_, h⟩
    · cases h; exact .inl rfl

theorem dropSegment_sheds (h : dropSegment c id metadata reason = .ok c') : Sheds c c' := by
  rcases dropSegment_cases h with rfl | ⟨_, h⟩
  · exact .refl c'
  · have hfold : JobsEvolve c c' ∧ c'.owners = (c.withoutSegment id).owners ∧
        c'.segments = (c.withoutSegment id).segments := by
      have hbef : JobsEvolve c (c.withoutSegment id) := JobsEvolve.refl c
      refine foldExcept_invariant (fun t => JobsEvolve c t ∧ t.owners = (c.withoutSegment id).owners ∧
        t.segments = (c.withoutSegment id).segments) (fun _ ht hstep => ?_) ⟨hbef, rfl, rfl⟩ h
      obtain ⟨hjobs, howners, hsegs⟩ := lapseJob_evolves hstep
      exact ⟨ht.1.trans hjobs, howners.trans ht.2.1, hsegs.trans ht.2.2⟩
    refine ⟨⟨fun hc => foldExcept_lapseJob hc.withoutSegment h, hfold.1⟩, fun _ hkey => ?_,
      fun {_ _} hrow => ?_⟩
    · rw [hfold.2.1] at hkey; exact (get?_deleteWhere_eq_some.1 hkey).1
    · rw [hfold.2.2, get?_withoutSegment] at hrow
      split at hrow
      · cases hrow
      · exact hrow

def Unowned (c : Catalog) (segment : String) : Prop :=
  ∀ key : String × String × String, c.owners[key]? = some () → key.1 ≠ segment

theorem Unowned.not_owns (h : Unowned c segment) (claim : SegmentOwnerClaim) :
    ¬ c.owns segment claim = true :=
  fun howns => h _ (owns_iff.1 howns) rfl

theorem Consistent.withoutUnowned (h : Consistent c) (hfree : Unowned c segment) :
    Consistent (c.withoutSegment segment) := by
  have hnone : ∀ a, ¬ a ∈ c.jobOwners segment :=
    fun a ha => hfree.not_owns _ (mem_jobOwners.1 ha)
  exact h.withoutSegment.mono hnone hnone

theorem Consistent.insertSegment (h : Consistent c) (row : SegmentRow) (hfree : Unowned c segment) :
    Consistent { c with segments := c.segments.insert segment row } := by
  have hsame : ∀ a : String, c.ownedSegments a =
      ownedSegments { c with segments := c.segments.insert segment row } a := by
    intro a
    refine ownedSegments_congr fun _ _ => ?_
    rw [get?_insert_ite]
    split
    · rename_i hs
      exact ⟨fun ⟨_, _, howns⟩ => absurd (hs ▸ howns) (hfree.not_owns _),
        fun ⟨_, _, howns⟩ => absurd (hs ▸ howns) (hfree.not_owns _)⟩
    · exact Iff.rfl
  refine ⟨fun {key} hkey => ?_, h.known, fun {a job} hjob ha => ?_, fun {a job} hjob ha hcompl => ?_⟩
  · rw [get?_insert_ite, if_neg (hfree key hkey)]; exact h.owned hkey
  · exact hsame a ▸ h.counted hjob ha
  · exact hsame a ▸ h.covered hjob ha hcompl

theorem deleteMarked_sheds (c : Catalog) (id : String) : Sheds c (deleteMarked c id) := by
  unfold deleteMarked
  split
  · rename_i row hrow
    split
    · rename_i hdeleting
      refine ⟨⟨fun hc => hc.withoutUnowned fun key hkey heq => ?_, JobsEvolve.refl c⟩,
        fun key hkey => (get?_deleteWhere_eq_some.1 hkey).1, fun {_ _} hother => ?_⟩
      · obtain ⟨_, hrow', hclosed⟩ := hc.owned hkey
        rw [heq, hrow] at hrow'
        cases hrow'; rw [hdeleting] at hclosed; cases hclosed
      · obtain ⟨-, hother⟩ := erase_cases hother; exact hother
    · exact .refl c
  · exact .refl c

theorem unowned_of_rowsWhere_eq_nil
    (h : (rowsWhere c.owners fun key _ => key.1 = segment) = []) : Unowned c segment := by
  intro key hkey heq
  have hmem : (key, ()) ∈ rowsWhere c.owners fun key _ => key.1 = segment :=
    mem_rowsWhere.2 ⟨hkey, decide_eq_true heq⟩
  rw [h] at hmem; exact not_mem_nil hmem

theorem markUnowned_keeps (h : markUnowned c id = .ok c') : Keeps c c' := by
  simp only [markUnowned, eq_ok] at h
  obtain ⟨-, hnone, _, -, rfl⟩ := h
  exact ⟨fun hc => hc.insertSegment _ (unowned_of_rowsWhere_eq_nil hnone), JobsEvolve.refl c⟩

theorem deleteUnowned_keeps (c : Catalog) (id : String) (removed : Except HistoryStoreError Unit) :
    Keeps c (deleteUnowned c id removed).1 := by
  unfold deleteUnowned
  split
  · exact .refl c
  · rename_i marked h
    cases removed with
    | error error => exact markUnowned_keeps h
    | ok _ => exact (markUnowned_keeps h).trans (deleteMarked_sheds marked id).toKeeps

theorem removeOwner_sheds (h : removeOwner c id owner = .ok c') : Sheds c c' := by
  simp only [removeOwner, eq_ok] at h
  obtain ⟨-, -, -, hkind, rfl⟩ := h
  have howns : ∀ s a, owns { c with owners := c.owners.erase (id, owner.kind.asStr, owner.ownerId) } s
        ⟨.rawHistoryJob, a⟩ = true ↔ c.owns s ⟨.rawHistoryJob, a⟩ = true := by
    intro s a
    rw [owns_iff, owns_iff]
    rw [get?_erase_ite, if_neg]
    intro heq; simp only [Prod.mk.injEq] at heq; exact hkind (asStr_injective heq.2.1).symm
  have howners : ∀ key : String × String × String,
      (c.owners.erase (id, owner.kind.asStr, owner.ownerId))[key]? = some () →
        c.owners[key]? = some () := by
    intro key hkey
    obtain ⟨-, hkey⟩ := erase_cases hkey; exact hkey
  refine ⟨⟨fun hc => ?_, JobsEvolve.refl c⟩, howners, fun hrow => hrow⟩
  have hsame : ∀ a : String, c.ownedSegments a = ownedSegments
      { c with owners := c.owners.erase (id, owner.kind.asStr, owner.ownerId) } a :=
    fun a => ownedSegments_congr fun s _ => by rw [howns]
  exact ⟨fun {key} hkey => hc.owned (howners key hkey), fun {s a} hown => hc.known ((howns s a).1 hown),
    fun {a job} hjob ha => hsame a ▸ hc.counted hjob ha,
    fun {a job} hjob ha hcompl => hsame a ▸ hc.covered hjob ha hcompl⟩

/-! ## Calls of several transactions -/

variable {pending : PendingSegment}

theorem insertSegment_keeps (h : insertSegment c id metadata pending = .ok c') :
    Keeps c c' ∧ ∃ row, c'.segments[id]? = some row ∧ row.state = .closed := by
  simp only [insertSegment, eq_ok] at h
  obtain ⟨-, -, -, -, -, -, -, hnew, rfl⟩ := h
  refine ⟨⟨fun hc => hc.insertSegment _ fun _ hkey heq => ?_, JobsEvolve.refl c⟩,
    _, getElem?_insert_self c.segments id _, rfl⟩
  obtain ⟨row, hrow, -⟩ := hc.owned hkey; exact hnew (heq ▸ mem_of_getElem? hrow)

variable {retained : Option (String × SegmentRow)}

theorem sameMaterial_eq_ok (h : sameMaterial c metadata pending = .ok retained) :
    ∀ id row, retained = some (id, row) → c.segments[id]? = some row ∧ row.state = .closed ∧
      isSameMaterial metadata pending row = true := by
  rintro id row rfl
  simp only [sameMaterial, eq_ok] at h
  obtain ⟨-, -, -, -, -, -, -, -, h⟩ := h
  split at h
  · cases h
  · rename_i id' row' hfst
    simp only [eq_ok] at h
    obtain ⟨-, hclosed, h⟩ := h
    cases h
    obtain ⟨hrow, hsame, -⟩ := firstWhere_eq_some hfst; exact ⟨hrow, hclosed, hsame⟩

theorem insertOrAdopt_keeps (h : insertOrAdopt c id metadata pending owners = .ok c') : Keeps c c' := by
  rw [insertOrAdopt, bind_eq_ok] at h
  obtain ⟨ret, hret, h⟩ := h
  cases ret with
  | some pair =>
    obtain ⟨ret, row⟩ := pair
    simp only [eq_ok] at h
    obtain ⟨-, -, h⟩ := h
    obtain ⟨hrow, hclosed, -⟩ := sameMaterial_eq_ok hret ret row rfl
    exact insertOwners_keeps ⟨row, hrow, hclosed⟩ h
  | none =>
    simp only [bind_eq_ok] at h
    obtain ⟨_, ht, h⟩ := h
    obtain ⟨hkeeps, hrow⟩ := insertSegment_keeps ht; exact hkeeps.trans (insertOwners_keeps hrow h)

theorem dropUnusable_sheds {file : FileState}
    (h : dropUnusable c id file retained = .ok c') : Sheds c c' := by
  unfold dropUnusable at h
  split at h
  · cases h; exact .refl c
  · split at h
    · exact dropSegment_sheds h
    · cases file with
      | missing => exact dropSegment_sheds h
      | corrupt => exact dropSegment_sheds h
      | present => cases h; exact .refl c
      | unavailable => cases h; exact .refl c

theorem Sheds.reservations (c : Catalog) (reservations : Table String PendingSegment) :
    Sheds c { c with reservations := reservations } :=
  ⟨⟨fun hc => hc.reservations _, JobsEvolve.refl c⟩, fun _ => id, id⟩

theorem publish_keeps (c : Catalog) (id : String) (file : Except HistoryStoreError ClosedFile)
    (owners : List SegmentOwnerClaim) (retainedFile : FileState) :
    Keeps c (publish digests c id file owners retainedFile).1 := by
  refine Keeps.trans ?_ (Sheds.reservations _ _).toKeeps
  unfold publishSegment
  split
  · exact .refl c
  · split
    · exact .refl c
    · rename_i usable husable
      rw [bind_eq_ok] at husable
      obtain ⟨_, -, husable⟩ := husable
      split
      · exact (dropUnusable_sheds husable).toKeeps
      · rename_i published hpub
        exact (dropUnusable_sheds husable).toKeeps.trans (insertOrAdopt_keeps hpub)

theorem foldKeeping_sheds {γ : Type} {f : Catalog → γ → Except HistoryStoreError Catalog}
    {as : List γ} (h : ∀ {t a t'}, f t a = .ok t' → Sheds t t') : Sheds c (foldKeeping f c as).1 :=
  foldKeeping_invariant (Sheds c) (fun _ ht hstep => ht.trans (h hstep)) (.refl c)

theorem claimSegment_keeps {job : RawHistoryJob} {files : String → FileState} {count : Nat}
    {pair : String × SegmentRow} {claimed : Catalog × Nat}
    (h : claimSegment digests job files (c, count) pair = .ok claimed) : Keeps c claimed.1 := by
  obtain ⟨_, _⟩ := pair
  simp only [claimSegment] at h
  split at h
  · cases h; exact .refl c
  · split at h
    · split at h
      · simp only [eq_ok] at h
        obtain ⟨t, ht, rfl⟩ := h; exact (dropSegment_sheds ht).toKeeps
      · cases h; exact .refl c
    · cases h
    · simp only [eq_ok] at h
      obtain ⟨t, ht, -, -, rfl⟩ := h; exact addOwner_keeps ht
    · simp only [eq_ok] at h
      obtain ⟨t, ht, -, -, rfl⟩ := h; exact addOwner_keeps ht

theorem claimCompatibleSegments_keeps (c : Catalog) (id : RawHistoryJobId)
    (files : String → FileState) : Keeps c (claimCompatibleSegments digests c id files).1 := by
  unfold claimCompatibleSegments
  split
  · exact .refl c
  · split
    · exact .refl c
    · exact foldKeeping_invariant (fun t : Catalog × Nat => Keeps c t.1)
        (fun {t _ _} _ ht hstep => ht.trans (@claimSegment_keeps _ t.1 _ _ t.2 _ _ hstep)) (.refl c)

variable {files : String → FileState} {pair : String × SegmentRow}

theorem recoverMarked_sheds (h : recoverMarked files c pair = .ok c') : Sheds c c' := by
  unfold recoverMarked at h
  split at h
  · cases h; exact deleteMarked_sheds c pair.1
  · cases h; exact deleteMarked_sheds c pair.1
  · cases h; exact deleteMarked_sheds c pair.1
  · cases h

theorem recoverSegment_sheds (h : recoverSegment files c pair = .ok c') : Sheds c c' := by
  unfold recoverSegment at h
  split at h
  · cases h; exact .refl c
  · cases h; exact .refl c
  · exact dropSegment_sheds h
  · cases h

theorem dropMissing_sheds (c : Catalog) (files : String → FileState)
    (rows : List (String × SegmentRow)) : Sheds c (dropMissing c files rows).1 := by
  simp only [dropMissing]
  split
  · exact .refl c
  · exact foldKeeping_sheds fun hstep => dropSegment_sheds hstep

theorem recover_sheds (c : Catalog) (files : String → FileState) : Sheds c (recover c files).1 := by
  have hcleared : Sheds c { c with reservations := ∅ } := .reservations c ∅
  have hmarked : Sheds c (foldKeeping (recoverMarked files) { c with reservations := ∅ }
      (rowsWhere c.segments fun _ row => row.state = .deleting)).1 :=
    hcleared.trans (foldKeeping_sheds recoverMarked_sheds)
  simp only [recover]
  split
  · rename_i t error heq; rwa [heq] at hmarked
  · rename_i t heq
    rw [heq] at hmarked
    have hscan : Sheds t (foldKeeping (recoverSegment files) t
        (rowsWhere t.segments fun _ row => row.state = .closed)).1 :=
      foldKeeping_sheds recoverSegment_sheds
    split
    · rename_i t' error heq'; rw [heq'] at hscan; exact hmarked.trans hscan
    · rename_i t' heq'
      rw [heq'] at hscan; exact (hmarked.trans hscan).trans (dropMissing_sheds _ _ _)

theorem reopen_sheds (c : Catalog) (files : String → FileState) : Sheds c (reopen c files).1 := by
  have hrecovered := recover_sheds c files
  simp only [reopen]
  split
  · rename_i t error heq; rwa [heq] at hrecovered
  · rename_i t heq
    rw [heq] at hrecovered
    exact hrecovered.trans (foldKeeping_sheds fun hstep => refreshJobProgress_sheds hstep)

/-! ## Calls on jobs -/

theorem transition_sheds {jobId : RawHistoryJobId}
    {update : JobRow → JobRow} (hspec : ∀ job, (update job).spec = job.spec)
    (hcnt : ∀ {owned job}, Counted owned job → Counted owned (update job)) (hst : ∀ job,
    (update job).state ≠ .complete) (h : transition c jobId update = .ok c') : Sheds c c' := by
  unfold transition at h
  split at h
  · cases h
  · rename_i job hjob
    split at h
    · cases h
    · rename_i hact
      cases h
      refine ⟨⟨fun hc => ?_, .insert hjob ⟨hspec job, fun hsettled => ?_⟩⟩, fun _ hkey => hkey,
        fun hrow => hrow⟩
      · exact hc.insert (fun _ => hcnt (hc.counted hjob not_false))
          fun _ hcompl => absurd hcompl (hst job)
      · cases hcase : job.state <;> rw [hcase] at hact hsettled <;>
          first | exact absurd rfl hact | cases hsettled

variable {jobId : RawHistoryJobId}

theorem cancelRawHistoryJob_sheds (h : cancelRawHistoryJob c jobId = .ok c') : Sheds c c' := by
  unfold cancelRawHistoryJob at h
  split at h
  · cases h
  · rename_i job hjob
    split at h
    · cases h; exact .refl c
    · rename_i hact
      refine @transition_sheds _ c' jobId (fun row => { row with state := .cancelled })
        (fun _ => rfl) (fun hcnt => ⟨hcnt.1, hcnt.2, hcnt.3⟩) (fun _ => nofun) ?_
      rw [transition, hjob]
      dsimp only; rw [if_neg hact]; exact h

variable {spec : RawHistoryJobSpec}

theorem createRawHistoryJob_cases (h : createRawHistoryJob digests c jobId spec = .ok c') :
    c' = c ∨ ∃ job, c.jobs[jobId.value]? = none ∧
    Counted [] job ∧ job.state = .queued ∧ c' = { c with jobs := c.jobs.insert jobId.value job } := by
  rw [createRawHistoryJob, bind_eq_ok] at h
  obtain ⟨_, -, h⟩ := h
  rw [bind_eq_ok] at h
  obtain ⟨existing, hexisting, h⟩ := h
  cases existing with
  | some existing =>
    simp only [eq_ok] at h
    obtain ⟨-, -, rfl⟩ := h; exact .inl rfl
  | none =>
    dsimp only at h
    split at h
    · rw [pure_eq_ok] at h; exact .inl h.symm
    · simp only [eq_ok] at h
      obtain ⟨-, -, rfl⟩ := h
      refine .inr ⟨_, ?_, ⟨rfl, rfl, rfl⟩, rfl, rfl⟩
      unfold rawHistoryJob at hexisting
      split at hexisting
      · assumption
      · simp only [eq_ok, reduceCtorEq, and_false, exists_false] at hexisting

theorem Consistent.ownedSegments_eq_nil (hc : Consistent c) (h : c.jobs[id]? = none) :
    c.ownedSegments id = [] := by
  refine eq_nil_iff_forall_not_mem.2 fun ⟨_, _⟩ hmem => ?_
  obtain ⟨_, hjob⟩ := hc.known (mem_ownedSegments.1 hmem).2.2; rw [h] at hjob; cases hjob

theorem createRawHistoryJob_consistent
    (hc : Consistent c) (h : createRawHistoryJob digests c jobId spec = .ok c') : Consistent c' := by
  rcases createRawHistoryJob_cases h with rfl | ⟨_, hnone, hcnt, hqueued, rfl⟩
  · exact hc
  · refine hc.insert (fun _ => ?_) fun _ hcompl => ?_
    · exact hc.ownedSegments_eq_nil hnone ▸ hcnt
    · rw [hqueued] at hcompl; cases hcompl

theorem deleteRawHistoryJob_eq_ok (h : deleteRawHistoryJob digests c jobId = .ok c') : c' = { c with
      owners := deleteWhere c.owners fun key _ =>
        key.2.1 = SegmentOwnerKind.rawHistoryJob.asStr && key.2.2 = jobId.value
      jobs := c.jobs.erase jobId.value } := by
  simp only [deleteRawHistoryJob, eq_ok] at h
  obtain ⟨-, -, -, -, rfl⟩ := h; rfl

theorem Catalog.owns_withoutJob {jobs : Table String JobRow} : owns { c with
      owners := deleteWhere c.owners fun key _ =>
        key.2.1 = SegmentOwnerKind.rawHistoryJob.asStr && key.2.2 = id
      jobs := jobs } s ⟨.rawHistoryJob, a⟩ = true ↔
      a ≠ id ∧ c.owns s ⟨.rawHistoryJob, a⟩ = true := by
  rw [Catalog.owns_iff, Catalog.owns_iff, get?_deleteWhere_eq_some, and_comm]
  refine and_congr_left fun _ => ?_
  simp

theorem deleteRawHistoryJob_consistent (hc : Consistent c)
    (h : deleteRawHistoryJob digests c jobId = .ok c') : Consistent c' := by
  rw [deleteRawHistoryJob_eq_ok h]
  have hsame : ∀ {a : String}, a ≠ jobId.value → c.ownedSegments a = ownedSegments { c with
      owners := deleteWhere c.owners fun key _ =>
        key.2.1 = SegmentOwnerKind.rawHistoryJob.asStr && key.2.2 = jobId.value
      jobs := c.jobs.erase jobId.value } a := by
    intro a ha
    refine ownedSegments_congr fun s _ => ?_
    rw [owns_withoutJob]
    exact ⟨fun ⟨h₁, h₂, h₃⟩ => ⟨h₁, h₂, ha, h₃⟩, fun ⟨h₁, h₂, _, h₃⟩ => ⟨h₁, h₂, h₃⟩⟩
  have hjobs : ∀ {a job}, (c.jobs.erase jobId.value)[a]? = some job →
      a ≠ jobId.value ∧ c.jobs[a]? = some job := by
    intro a job hjob
    rw [get?_erase_ite] at hjob
    split at hjob
    · cases hjob
    · exact ⟨‹_›, hjob⟩
  refine ⟨fun {key} hkey => ?_, fun {s a} hown => ?_, fun {a job} hjob ha => ?_,
    fun {a job} hjob ha hcompl => ?_⟩
  · exact hc.owned (get?_deleteWhere_eq_some.1 hkey).1
  · obtain ⟨ha, hown⟩ := owns_withoutJob.1 hown
    rw [get?_erase_ite, if_neg ha]; exact hc.known hown
  · obtain ⟨hne, hjob⟩ := hjobs hjob; exact hsame hne ▸ hc.counted hjob ha
  · obtain ⟨hne, hjob⟩ := hjobs hjob; exact hsame hne ▸ hc.covered hjob ha hcompl

end Leani.RawHistory
