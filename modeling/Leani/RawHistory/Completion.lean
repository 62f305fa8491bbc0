import Leani.RawHistory.Progress

/-!
# Complete raw-history jobs

What a run of the store's calls keeps of the jobs. That the segments a job owns meet its request
needs a condition on the calls: the check of a new owner looks at the chain, the material and the
guarantees of the segment, but not at its profile and its indexes, as the claim of what is retained
does.
-/

namespace Leani.RawHistory

open Library Std Leani.Filtering List Option Table Catalog

variable {digests : Digests} {c c' : Catalog} {id segment : String} {row : SegmentRow}
  {spec : RawHistoryJobSpec}

structure Meets (digests : Digests) (row : SegmentRow) (spec : RawHistoryJobSpec) : Prop where
  chain : row.metadata.descriptor.chainId = spec.chainId
  shape : row.metadata.descriptor.materialShape = shapeId digests spec.material
  capabilities : row.metadata.descriptor.completeCapabilities.withDerivable.containsAll
    spec.requiredCapabilities = true
  verification : spec.verification ≤ row.metadata.descriptor.verification
  trust : spec.minimumTrust ≤ row.metadata.descriptor.trust
  profile : row.profile.satisfies spec.profile = true
  indexes : row.indexes.contains spec.indexes = true

def Fitting (digests : Digests) (c : Catalog) : Prop :=
  ∀ ⦃segment id : String⦄ ⦃row : SegmentRow⦄ ⦃job : JobRow⦄ ⦃spec : RawHistoryJobSpec⦄,
    c.owns segment ⟨.rawHistoryJob, id⟩ = true → c.segments[segment]? = some row →
    c.jobs[id]? = some job → decodeSpec job.spec = .ok spec → Meets digests row spec

def HoldsData (digests : Digests) (c : Catalog) (id : String) (job : JobRow) : Prop :=
  ∃ spec, decodeSpec job.spec = .ok spec ∧ ∀ block, Range.Covers spec.ranges block → ∃ segment row,
    c.segments[segment]? = some row ∧ row.state = .closed ∧ c.owns segment ⟨.rawHistoryJob, id⟩ =
    true ∧ block ∈ row.metadata.descriptor.range ∧ Meets digests row spec

theorem meets_of_describes (h : describes digests row.metadata.descriptor spec = true)
    (hprofile : row.profile.satisfies spec.profile = true)
    (hindexes : row.indexes.contains spec.indexes = true) : Meets digests row spec := by
  simp only [describes, Bool.and_eq_true, decide_eq_true_iff] at h
  exact ⟨h.1.1.1.1.1, h.1.1.1.1.2, h.1.1.1.2, h.1.1.2, h.1.2, hprofile, hindexes⟩

theorem holdsData_of_complete (hc : Consistent c) (hfit : Fitting digests c) {job : JobRow}
    (hjob : c.jobs[id]? = some job) (hcompl : job.state = .complete) :
    HoldsData digests c id job := by
  obtain ⟨spec, hdec, hcover⟩ := hc.covered hjob not_false hcompl
  refine ⟨spec, hdec, fun block hblk => ?_⟩
  obtain ⟨⟨seg, row⟩, howned, hin⟩ := hcover block hblk
  obtain ⟨hrow, hclosed, howns⟩ := mem_ownedSegments.1 howned
  exact ⟨seg, row, hrow, hclosed, howns, hin, hfit howns hrow hjob hdec⟩

/-- The profile and the indexes meet what the job asks for that `owner` names. -/
def suits (c : Catalog) (profile : RawHistoryProfile) (indexes : RawHistoryIndexPolicy)
    (owner : SegmentOwnerClaim) : Bool :=
  owner.kind ≠ .rawHistoryJob ||
    match c.jobs[owner.ownerId]? with
    | none => true
    | some job =>
      match decodeSpec job.spec with
      | .error _ => true
      | .ok spec => profile.satisfies spec.profile && indexes.contains spec.indexes

def Call.suits (c : Catalog) : Call → Bool
  | .addOwner id owner =>
    c.segments[id.value]?.all fun row => RawHistory.suits c row.profile row.indexes owner
  | .publish id _ owners _ =>
    c.reservations[id.value]?.all fun pending =>
      owners.all (RawHistory.suits c pending.profile pending.indexes)
  | _ => true

def Suited (digests : Digests) : Catalog → List Call → Prop
  | _, [] => True
  | c, call :: calls => call.suits c = true ∧ Suited digests (step digests c call) calls

variable {profile : RawHistoryProfile} {indexes : RawHistoryIndexPolicy} {owner : SegmentOwnerClaim}

theorem of_suits {job : JobRow} (h : suits c profile indexes owner = true) (hkind : owner.kind =
    .rawHistoryJob) (hjob : c.jobs[owner.ownerId]? = some job) (hdec : decodeSpec job.spec =
    .ok spec) : profile.satisfies spec.profile = true ∧ indexes.contains spec.indexes = true := by
  rw [suits, hjob] at h
  dsimp only at h
  rw [hdec, Bool.or_eq_true, decide_eq_true_iff] at h
  exact Bool.and_eq_true_iff.1 (h.resolve_left fun hne => hne hkind)

variable {job : RawHistoryJob}

theorem rawHistoryJob_eq_ok (h : rawHistoryJob digests c id = .ok (some job)) : ∃ row, c.jobs[id]? =
    some row ∧ decodeSpec row.spec = .ok job.spec ∧ job.id = id ∧ job.state = row.state := by
  unfold rawHistoryJob at h
  split at h
  · cases h
  · rename_i row hrow
    simp only [eq_ok] at h
    obtain ⟨spec, hspec, -, -, h⟩ := h; cases h; exact ⟨row, hrow, hspec, rfl, rfl⟩

theorem requiredJob_eq_ok (h : requiredJob digests c id = .ok job) : ∃ row, c.jobs[id]? =
    some row ∧ decodeSpec row.spec = .ok job.spec ∧ job.id = id ∧ job.state = row.state := by
  simp only [requiredJob, eq_ok] at h
  obtain ⟨_, hfound, rfl⟩ := h; exact rawHistoryJob_eq_ok hfound

theorem forall_of_forM_eq_ok {γ : Type} {f : γ → Except HistoryStoreError Unit} {as : List γ}
    (h : as.forM f = .ok ()) : ∀ a ∈ as, f a = .ok () := by
  induction as with
  | nil => exact fun _ ha => (not_mem_nil ha).elim
  | cons a as ih =>
    change (f a >>= fun _ => as.forM f) = .ok () at h
    rw [bind_eq_ok] at h
    obtain ⟨⟨⟩, ha, h⟩ := h
    intro b hb
    rcases mem_cons.1 hb with rfl | hb
    · exact ha
    · exact ih h b hb

variable {descriptor : SegmentDescriptor}

theorem describes_of_validate {job : JobRow} (h : validateOwnerClaim digests c descriptor owner =
    .ok ()) (hkind : owner.kind = .rawHistoryJob) (hjob : c.jobs[owner.ownerId]? = some job)
    (hdec : decodeSpec job.spec = .ok spec) : describes digests descriptor spec = true := by
  rw [validateOwnerClaim, hkind] at h
  simp only [eq_ok] at h
  obtain ⟨jobId, hid, _, hfound, -, hdescr⟩ := h
  have hval : jobId.value = owner.ownerId := by
    unfold RawHistoryJobId.new? at hid
    split at hid
    · cases hid; rfl
    · cases hid
  obtain ⟨_, hrow, hrowDecode, -, -⟩ := requiredJob_eq_ok hfound
  rw [hval, hjob] at hrow
  cases hrow
  rw [hdec] at hrowDecode; cases hrowDecode; exact hdescr

def Welcomes (digests : Digests) (c : Catalog) (segment : String) (owner : SegmentOwnerClaim) :
    Prop :=
  owner.kind = .rawHistoryJob → ∀ ⦃row : SegmentRow⦄ ⦃job : JobRow⦄ ⦃spec : RawHistoryJobSpec⦄,
    c.segments[segment]? = some row → c.jobs[owner.ownerId]? = some job →
    decodeSpec job.spec = .ok spec → Meets digests row spec

theorem Sheds.fitting (h : Sheds c c') (hfit : Fitting digests c) : Fitting digests c' := by
  intro _ _ _ _ spec howns hrow hjob hdec
  obtain ⟨_, hbef, hevolves⟩ := h.jobs.exists_before hjob
  exact hfit (owns_iff.2 (h.owners _ (owns_iff.1 howns))) (h.segments hrow) hbef
    (hevolves.spec ▸ hdec)

theorem insertOwner_fitting (hfit : Fitting digests c) (hrow : ∃ row,
    c.segments[segment]? = some row ∧ row.state = .closed) (hmeets : Welcomes digests c segment owner)
    (h : insertOwner segment c owner = .ok c') : Fitting digests c' := by
  obtain ⟨hsegs, howners⟩ := insertOwner_rows h
  intro s a row _ spec howns hs hjob hdec
  obtain ⟨_, hbef, hevolves⟩ := (insertOwner_keeps hrow h).jobs.exists_before hjob
  rw [hsegs] at hs
  rw [hevolves.spec] at hdec
  have howns : (c.withOwner segment owner).owns s ⟨.rawHistoryJob, a⟩ = true := by
    rw [owns_iff, howners] at howns; exact owns_iff.2 howns
  rcases owns_withOwner.1 howns with ⟨rfl, hkind, rfl⟩ | howns
  · exact hmeets hkind hs hbef hdec
  · exact hfit howns hs hbef hdec

variable {owners : List SegmentOwnerClaim}

theorem insertOwners_fitting (hfit : Fitting digests c) (hrow : ∃ row, c.segments[segment]? =
    some row ∧ row.state = .closed) (hmeets : ∀ owner ∈ owners, Welcomes digests c segment owner)
    (h : insertOwners c segment owners = .ok c') : Fitting digests c' := by
  have hinvariant := foldExcept_invariant (fun t => Keeps c t ∧
    t.segments = c.segments ∧ Fitting digests t) (fun {t owner _} howner ht hstep => by
      obtain ⟨hkeeps, hsegs, hfit⟩ := ht
      refine ⟨hkeeps.trans (insertOwner_keeps (hsegs ▸ hrow) hstep),
        (insertOwner_rows hstep).1.trans hsegs,
        insertOwner_fitting hfit (hsegs ▸ hrow) (fun hkind row _ spec hs hjob hdec => ?_) hstep⟩
      obtain ⟨_, hbef, hevolves⟩ := hkeeps.jobs.exists_before hjob
      exact hmeets owner howner hkind (hsegs ▸ hs) hbef (hevolves.spec ▸ hdec))
    ⟨.refl c, rfl, hfit⟩ h
  exact hinvariant.2.2

theorem addOwner_fitting (hfit : Fitting digests c)
    (hsuits : c.segments[id]?.all fun row => suits c row.profile row.indexes owner)
    (h : addOwner digests c id owner = .ok c') : Fitting digests c' := by
  simp only [addOwner, eq_ok] at h
  obtain ⟨-, -, row, hrow, ⟨⟩, hvalid, h⟩ := h
  rw [closedSegment_eq_some] at hrow
  refine insertOwner_fitting hfit ⟨row, hrow⟩ (fun hkind _ _ _ hother hjob hdec => ?_) h
  rw [hrow.1] at hother
  cases hother
  have hdescr := describes_of_validate
    (forall_of_forM_eq_ok hvalid owner (mem_singleton.2 rfl)) hkind hjob hdec
  rw [hrow.1] at hsuits
  obtain ⟨hprofile, hindexes⟩ := of_suits hsuits hkind hjob hdec
  exact meets_of_describes hdescr hprofile hindexes

variable {metadata : SegmentMetadata} {pending : PendingSegment}

theorem indexes_of_isSameMaterial (h : isSameMaterial metadata pending row = true) :
    row.metadata.descriptor = metadata.descriptor ∧ row.profile = pending.profile ∧
      row.indexes = pending.indexes := by
  simp only [isSameMaterial, Bool.and_eq_true, decide_eq_true_iff] at h
  obtain ⟨⟨⟨hdescp, hprofile⟩, hblock⟩, htx⟩ := h
  have hlogs := pending.logs
  refine ⟨hdescp, hprofile, ?_⟩
  cases hindexes : pending.indexes with
  | mk blockHash transactionHash logs =>
    rw [hindexes] at hblock htx hlogs
    rw [SegmentRow.indexes, hblock, htx]; exact congrArg _ hlogs.symm

theorem Fitting.insertSegment (hfit : Fitting digests c) (hfree : Unowned c segment)
    (row : SegmentRow) : Fitting digests { c with segments := c.segments.insert segment row } := by
  intro _ _ _ _ _ howns hs hjob hdec
  rw [get?_insert_ite, if_neg (hfree _ (owns_iff.1 howns))] at hs; exact hfit howns hs hjob hdec

theorem insertOrAdopt_fitting (hc : Consistent c) (hfit : Fitting digests c)
    (hmeets : ∀ owner ∈ owners, owner.kind = .rawHistoryJob → ∀ row job spec,
      row.metadata.descriptor = metadata.descriptor → row.profile = pending.profile →
      row.indexes = pending.indexes → c.jobs[owner.ownerId]? = some job →
      decodeSpec job.spec = .ok spec → Meets digests row spec)
    (h : insertOrAdopt c id metadata pending owners = .ok c') : Fitting digests c' := by
  rw [insertOrAdopt, bind_eq_ok] at h
  obtain ⟨ret, hret, h⟩ := h
  cases ret with
  | some pair =>
    obtain ⟨ret, row⟩ := pair
    simp only [eq_ok] at h
    obtain ⟨-, -, h⟩ := h
    obtain ⟨hrow, hclosed, hsame⟩ := sameMaterial_eq_ok hret ret row rfl
    refine insertOwners_fitting hfit ⟨row, hrow, hclosed⟩
      (fun owner howner hkind other job spec hother hjob hdec => ?_) h
    rw [hrow] at hother
    cases hother
    obtain ⟨hdescp, hprofile, hindexes⟩ := indexes_of_isSameMaterial hsame
    exact hmeets owner howner hkind row job spec hdescp hprofile hindexes hjob hdec
  | none =>
    simp only [bind_eq_ok] at h
    obtain ⟨_, ht, h⟩ := h
    obtain ⟨-, hrow⟩ := insertSegment_keeps ht
    simp only [insertSegment, eq_ok] at ht
    obtain ⟨-, -, -, -, -, -, -, hnew, rfl⟩ := ht
    have hfree : Unowned c id := by
      intro _ hkey heq
      obtain ⟨row, hrow, -⟩ := hc.owned hkey; exact hnew (heq ▸ mem_of_getElem? hrow)
    refine insertOwners_fitting (hfit.insertSegment hfree _) hrow
      (fun owner howner hkind other job spec hother hjob hdec => ?_) h
    rw [getElem?_insert_self] at hother
    cases hother
    have hlogs := pending.logs
    refine hmeets owner howner hkind _ job spec rfl rfl ?_ hjob hdec
    cases hindexes : pending.indexes with
    | mk blockHash transactionHash logs =>
      rw [hindexes] at hlogs
      exact congrArg (RawHistoryIndexPolicy.mk blockHash transactionHash) hlogs.symm

theorem publish_fitting {file : Except HistoryStoreError ClosedFile}
 {retainedFile : FileState} (hc : Consistent c) (hfit : Fitting digests c)
    (hsuits : c.reservations[id]?.all fun pend => owners.all (suits c pend.profile pend.indexes)) :
    Fitting digests (publish digests c id file owners retainedFile).1 := by
  refine (Sheds.reservations _ _).fitting ?_
  unfold publishSegment
  split
  · exact hfit
  · rename_i pend metadata claims hfinish
    split
    · exact hfit
    · rename_i usable husable
      rw [bind_eq_ok] at husable
      obtain ⟨_, -, husable⟩ := husable
      have hsheds := dropUnusable_sheds husable
      split
      · exact hsheds.fitting hfit
      · rename_i published hpub
        refine insertOrAdopt_fitting (hsheds.consistent hc) (hsheds.fitting hfit)
          (fun owner howner hkind _ _ spec hdescp hprofile hindexes hjob hdec => ?_) hpub
        obtain ⟨_, hbef, hevolves⟩ := hsheds.jobs.exists_before hjob
        rw [hevolves.spec] at hdec
        simp only [finish, eq_ok] at hfinish
        obtain ⟨_, hpend, _, hclaims, ⟨⟩, hvalid, _, -, -, -, hfinish⟩ := hfinish
        cases hfinish
        have hmem : owner ∈ owners := by
          simp only [normalizeOwnerClaims, eq_ok] at hclaims
          obtain ⟨-, -, rfl⟩ := hclaims; exact mem_sortDedup.1 howner
        have hdescr := describes_of_validate (forall_of_forM_eq_ok hvalid owner howner) hkind
          hbef hdec
        rw [hpend, Option.all_some, List.all_eq_true] at hsuits
        obtain ⟨hprofile', hindexes'⟩ := of_suits (hsuits owner hmem) hkind hbef hdec
        refine meets_of_describes ?_ (hprofile ▸ hprofile') (hindexes ▸ hindexes')
        rw [hdescp]; exact hdescr

variable {files : String → FileState} {count : Nat} {pair : String × SegmentRow}
  {claimed : Catalog × Nat}

theorem claimSegment_fitting (hfit : Fitting digests c) (hrow : ∀ row, c.segments[pair.1]? =
    some row → row = pair.2) (hjob : ∀ row spec, c.jobs[job.id]? = some row → decodeSpec row.spec =
    .ok spec → spec = job.spec) (h : claimSegment digests job files (c, count) pair = .ok claimed) :
    Fitting digests claimed.1 := by
  obtain ⟨id, row⟩ := pair
  have hadd : isCompatible digests job row = true → ∀ {t},
      addOwner digests c id ⟨.rawHistoryJob, job.id⟩ = .ok t → Fitting digests t := by
    intro hcompat t ht
    simp only [addOwner, eq_ok] at ht
    obtain ⟨-, -, found, hfound, -, -, ht⟩ := ht
    rw [closedSegment_eq_some] at hfound
    refine insertOwner_fitting hfit ⟨found, hfound⟩ (fun _ other row' spec hother hrow' hdec => ?_) ht
    rw [hrow other hother, hjob row' spec hrow' hdec]
    simp only [isCompatible, Bool.and_eq_true] at hcompat
    exact meets_of_describes hcompat.1.1 hcompat.1.2 hcompat.2
  simp only [claimSegment] at h
  split at h
  · cases h; exact hfit
  · rename_i hcompat
    rw [Bool.or_eq_true, not_or, Bool.not_eq_true', Bool.not_eq_false] at hcompat
    split at h
    · split at h
      · simp only [eq_ok] at h
        obtain ⟨t, ht, rfl⟩ := h; exact (dropSegment_sheds ht).fitting hfit
      · cases h; exact hfit
    · cases h
    · simp only [eq_ok] at h
      obtain ⟨t, ht, -, -, rfl⟩ := h; exact hadd hcompat.1 ht
    · simp only [eq_ok] at h
      obtain ⟨t, ht, -, -, rfl⟩ := h; exact hadd hcompat.1 ht

theorem claimSegment_segments (h : claimSegment digests job files (c, count) pair = .ok claimed)
    (hrow : claimed.1.segments[segment]? = some row) : c.segments[segment]? = some row := by
  obtain ⟨id, _⟩ := pair
  have hadd : ∀ {t}, addOwner digests c id ⟨.rawHistoryJob, job.id⟩ = .ok t →
      t.segments = c.segments := by
    intro t ht
    simp only [addOwner, bind_eq_ok] at ht
    obtain ⟨-, -, -, -, -, -, ht⟩ := ht; exact (insertOwner_rows ht).1
  simp only [claimSegment] at h
  split at h
  · cases h; exact hrow
  · split at h
    · split at h
      · simp only [eq_ok] at h
        obtain ⟨t, ht, rfl⟩ := h; exact (dropSegment_sheds ht).segments hrow
      · cases h; exact hrow
    · cases h
    · simp only [eq_ok] at h
      obtain ⟨t, ht, -, -, rfl⟩ := h; exact hadd ht ▸ hrow
    · simp only [eq_ok] at h
      obtain ⟨t, ht, -, -, rfl⟩ := h; exact hadd ht ▸ hrow

theorem claimCompatibleSegments_fitting {jobId : RawHistoryJobId} (hfit : Fitting digests c) :
    Fitting digests (claimCompatibleSegments digests c jobId files).1 := by
  unfold claimCompatibleSegments
  split
  · exact hfit
  · rename_i job hjob
    split
    · exact hfit
    · obtain ⟨row, hrow, hdec, hid, -⟩ := requiredJob_eq_ok hjob
      have hinvariant := @foldKeeping_invariant _ _ _ (claimSegment digests job files)
        (fun t : Catalog × Nat => Keeps c t.1 ∧
          (∀ segment row, t.1.segments[segment]? = some row → c.segments[segment]? = some row) ∧
          Fitting digests t.1)
        (rowsWhere c.segments fun _ row => row.state = .closed) (c, 0)
        (fun {t pair _} hpair ht hstep => by
          obtain ⟨t, _⟩ := t
          obtain ⟨hkeeps, hsegs, hfit⟩ := ht
          refine ⟨hkeeps.trans (claimSegment_keeps hstep), fun s other hother =>
            hsegs s other (claimSegment_segments hstep hother),
            claimSegment_fitting hfit (fun other hother => ?_)
              (fun other spec hother hspec => ?_) hstep⟩
          · have hlisted := (mem_rowsWhere (k := pair.1) (v := pair.2)).1 hpair
            have hbef := hsegs _ _ hother; rw [hlisted.1] at hbef; exact (some.inj hbef).symm
          · obtain ⟨_, hbef, hevolves⟩ := hkeeps.jobs.exists_before hother
            rw [hid, hrow] at hbef
            cases hbef; rw [hevolves.spec, hdec] at hspec; exact (Except.ok.inj hspec).symm)
        ⟨.refl c, fun _ _ h => h, hfit⟩
      exact hinvariant.2.2

theorem Catalog.after_of {P : Catalog → Prop} {res : Except HistoryStoreError Catalog}
    (hc : P c) (h : ∀ c', res = .ok c' → P c') : P (c.after res) := by
  cases res with
  | ok c' => exact h c' rfl
  | error => exact hc

theorem beginSegment_sheds {segmentId : SegmentId}
 {resv : SegmentReservation} {admission : Except HistoryStoreError Unit}
 (h : beginSegment c segmentId descriptor resv profile indexes admission = .ok c') : Sheds c c' := by
  unfold beginSegment at h
  split at h
  · simp only [eq_ok] at h
    obtain ⟨-, -, -, -, rfl⟩ := h; exact .reservations c _
  · cases h

def Call.sheds : Call → Bool
  | .createJob .. | .deleteJob .. | .publish .. | .claimCompatible .. | .addOwner ..
  | .deleteUnowned .. => false
  | .startJob .. | .backpressureJob .. | .waitJob .. | .failJob .. | .cancelJob ..
  | .reconcileJob .. | .beginSegment .. | .abort .. | .removeOwner .. | .quarantine ..
  | .reopen .. => true

variable {call : Call}

theorem step_sheds (h : call.sheds = true) : Sheds c (step digests c call) := by
  have hcnt : ∀ {owned job} {state : RawHistoryJobState} {attempts : Nat} {error : Option String},
      Counted owned job → Counted owned { job with
        state := state
        attempts := attempts
        lastError := error } := fun h => ⟨h.1, h.2, h.3⟩
  cases call with
  | startJob id =>
    exact after_of (.refl c) fun _ => transition_sheds (fun _ => rfl) hcnt fun _ => nofun
  | backpressureJob id error =>
    exact after_of (.refl c) fun _ => transition_sheds (fun _ => rfl) hcnt fun _ => nofun
  | waitJob id error =>
    exact after_of (.refl c) fun _ => transition_sheds (fun _ => rfl) hcnt fun _ => nofun
  | failJob id error =>
    exact after_of (.refl c) fun _ => transition_sheds (fun _ => rfl) hcnt fun _ => nofun
  | cancelJob id => exact after_of (.refl c) fun _ => cancelRawHistoryJob_sheds
  | reconcileJob id => exact after_of (.refl c) fun _ => refreshJobProgress_sheds
  | beginSegment id descriptor reservation profile indexes admission =>
    exact after_of (.refl c) fun _ => beginSegment_sheds
  | abort id => exact .reservations c _
  | removeOwner id owner => exact after_of (.refl c) fun _ => removeOwner_sheds
  | quarantine id metadata reason => exact after_of (.refl c) fun _ => dropSegment_sheds
  | reopen files => exact reopen_sheds c files
  | _ => exact absurd h Bool.false_ne_true

theorem step_consistent (call : Call) (hc : Consistent c) : Consistent (step digests c call) := by
  cases call with
  | createJob id spec => exact after_of hc fun _ => createRawHistoryJob_consistent hc
  | deleteJob id => exact after_of hc fun _ => deleteRawHistoryJob_consistent hc
  | publish id file owners retainedFile => exact (publish_keeps c _ file owners retainedFile).consistent hc
  | claimCompatible id files => exact (claimCompatibleSegments_keeps c id files).consistent hc
  | addOwner id owner => exact after_of hc fun _ h => (addOwner_keeps h).consistent hc
  | deleteUnowned id removed => exact (deleteUnowned_keeps c _ removed).consistent hc
  | _ => exact (step_sheds rfl).consistent hc

theorem step_jobs {call : Call} (hkept : ∀ jobId, call = .deleteJob jobId → jobId.value ≠ id)
    {job : JobRow} (hjob : c.jobs[id]? = some job) :
    ∃ job', (step digests c call).jobs[id]? = some job' ∧ JobEvolves job job' := by
  let P : Catalog → Prop := fun t => ∃ job', t.jobs[id]? = some job' ∧ JobEvolves job job'
  have hsame : P c := ⟨job, hjob, .refl job⟩
  cases call with
  | createJob jobId spec =>
    refine after_of (P := P) hsame fun c' h => ?_
    rcases createRawHistoryJob_cases h with rfl | ⟨_, hnone, -, -, rfl⟩
    · exact hsame
    · refine ⟨job, ?_, .refl job⟩
      rw [get?_insert_ite, if_neg fun heq => ?_]
      · exact hjob
      · rw [heq, hnone] at hjob; cases hjob
  | deleteJob jobId =>
    refine after_of (P := P) hsame fun c' h => ⟨job, ?_, .refl job⟩
    rw [deleteRawHistoryJob_eq_ok h]
    rw [get?_erase_ite, if_neg (hkept jobId rfl).symm]; exact hjob
  | publish segmentId file owners retainedFile =>
    exact (publish_keeps c _ file owners retainedFile).jobs.exists_after hjob
  | claimCompatible jobId files =>
    exact (claimCompatibleSegments_keeps c jobId files).jobs.exists_after hjob
  | addOwner segmentId owner =>
    exact after_of (P := P) hsame fun _ h => (addOwner_keeps h).jobs.exists_after hjob
  | deleteUnowned segmentId removed =>
    exact (deleteUnowned_keeps c _ removed).jobs.exists_after hjob
  | _ => exact (step_sheds rfl).jobs.exists_after hjob

theorem step_fitting (hc : Consistent c) (hfit : Fitting digests c)
    (hsuits : call.suits c = true) : Fitting digests (step digests c call) := by
  cases call with
  | createJob jobId spec =>
    refine after_of hfit fun c' h => ?_
    rcases createRawHistoryJob_cases h with rfl | ⟨new, hnone, -, -, rfl⟩
    · exact hfit
    · intro seg a row job spec howns hrow hjob hdec
      rw [get?_insert_ite] at hjob
      split at hjob
      · -- the new job owns nothing
        rename_i heq
        obtain ⟨_, hbef⟩ := hc.known howns; rw [heq, hnone] at hbef; cases hbef
      · exact hfit howns hrow hjob hdec
  | deleteJob jobId =>
    refine after_of hfit fun c' h => ?_
    rw [deleteRawHistoryJob_eq_ok h]
    intro seg a row job spec howns hrow hjob hdec
    obtain ⟨ha, howns⟩ := owns_withoutJob.1 howns
    rw [get?_erase_ite, if_neg ha] at hjob; exact hfit howns hrow hjob hdec
  | publish id file owners retainedFile => exact publish_fitting hc hfit hsuits
  | claimCompatible id files => exact claimCompatibleSegments_fitting hfit
  | addOwner id owner => exact after_of hfit fun _ h => addOwner_fitting hfit hsuits h
  | deleteUnowned id removed =>
    simp only [step, deleteUnowned]
    split
    · exact hfit
    · rename_i marked hmarked
      have hfit' : Fitting digests marked := by
        simp only [markUnowned, eq_ok] at hmarked
        obtain ⟨-, hnone, row, -, rfl⟩ := hmarked
        exact hfit.insertSegment (unowned_of_rowsWhere_eq_nil hnone) _
      cases removed with
      | error error => exact hfit'
      | ok _ => exact (deleteMarked_sheds marked _).fitting hfit'
  | _ => exact (step_sheds rfl).fitting hfit

theorem run_consistent (calls : List Call) :
    ∀ {c : Catalog}, Consistent c → Consistent (run digests c calls) := by
  induction calls with
  | nil => exact id
  | cons call calls ih => exact fun hc => ih (step_consistent call hc)

theorem run_fitting (calls : List Call) : ∀ {c : Catalog}, Consistent c → Fitting digests c →
    Suited digests c calls → Fitting digests (run digests c calls) := by
  induction calls with
  | nil => exact fun _ hfit _ => hfit
  | cons call calls ih =>
    exact fun hc hfit hsuited => ih (step_consistent call hc) (step_fitting hc hfit hsuited.1) hsuited.2

theorem run_jobs (calls : List Call) : ∀ {c : Catalog} {job : JobRow},
    (∀ jobId, .deleteJob jobId ∈ calls → jobId.value ≠ id) → c.jobs[id]? = some job →
    ∃ job', (run digests c calls).jobs[id]? = some job' ∧ JobEvolves job job' := by
  induction calls with
  | nil => exact fun _ hjob => ⟨_, hjob, .refl _⟩
  | cons call calls ih =>
    intro c job hkept hjob
    obtain ⟨_, hbetween, hevolves⟩ := @step_jobs digests c id call
      (fun jobId heq => hkept jobId (heq ▸ mem_cons_self)) job hjob
    obtain ⟨job', hjob', hevolves'⟩ :=
      ih (fun jobId hmem => hkept jobId (mem_cons_of_mem _ hmem)) hbetween
    exact ⟨job', hjob', hevolves.trans hevolves'⟩

structure JobsHold (digests : Digests) : Prop where
  /-- When every owner given by hand asks for a profile and indexes its segment has, a complete job's
  blocks lie in closed segments it owns that meet its request. -/
  complete : ∀ {calls : List Call} {id : String} {job : JobRow}, Suited digests .empty calls →
    (run digests .empty calls).jobs[id]? = some job → job.state = .complete →
    HoldsData digests (run digests .empty calls) id job
  counters : ∀ {calls : List Call} {id : String} {job : JobRow},
    (run digests .empty calls).jobs[id]? = some job →
    Counted ((run digests .empty calls).ownedSegments id) job
  settled : ∀ {calls later : List Call} {id : String} {job : JobRow},
    (run digests .empty calls).jobs[id]? = some job → job.state.isSettled = true →
    (∀ jobId, .deleteJob jobId ∈ later → jobId.value ≠ id) →
    ∃ job', (run digests .empty (calls ++ later)).jobs[id]? = some job' ∧ job'.spec = job.spec ∧
      job'.state = job.state

theorem run_jobs_hold (digests : Digests) : JobsHold digests where
  complete := fun {calls id job} hsuited hjob hcomplete => by
    have hempty : Fitting digests .empty := fun _ _ _ _ _ howns =>
      (not_mem_empty (owns_iff.1 howns)).elim
    exact holdsData_of_complete (run_consistent calls consistent_empty)
      (run_fitting calls consistent_empty hempty hsuited) hjob hcomplete
  counters := fun {calls id job} hjob => (run_consistent calls consistent_empty).counted hjob not_false
  settled := fun {calls later id job} hjob hsettled hkept => by
    obtain ⟨job', hjob', hevolves⟩ := @run_jobs digests id later _ _ hkept hjob
    rw [run, foldl_append]; exact ⟨job', hjob', hevolves.spec, hevolves.settled hsettled⟩

def indexedSpec : RawHistoryJobSpec where
  chainId := 1
  ranges := [⟨5, 6, by decide⟩]
  profile := .processorReuse
  material := .complete
  requiredCapabilities := .of .transactions
  verification := .trustedDataset
  minimumTrust := .trustedDataset
  sourcePolicyDigest := 0
  retention := .full
  segment := ⟨3, 1024, 1024, .snappy, .pause⟩
  indexes := ⟨true, false, false⟩

def unindexedCalls : List Call :=
  [.createJob ⟨"job", by decide⟩ indexedSpec,
    .beginSegment ⟨"segment", by decide⟩ ⟨1, ⟨5, 6, by decide⟩, 0, .of .transactions,
      .of .transactions, .trustedDataset, .trustedDataset⟩ ⟨1024, 1024⟩ .processorReuse
      ⟨false, false, false⟩ (.ok ()),
    .publish ⟨"segment", by decide⟩ (.ok ⟨10, 10, 1, 2, 3, 4⟩) [⟨.rawHistoryJob, "job"⟩] .present]

/-- The job is complete, and no segment it owns has the index. -/
theorem complete_without_index : ∃ job,
    (run ⟨fun _ => 1, fun _ => 1⟩ .empty unindexedCalls).jobs["job"]? = some job ∧
      job.state = .complete ∧
      ¬ HoldsData ⟨fun _ => 1, fun _ => 1⟩ (run ⟨fun _ => 1, fun _ => 1⟩ .empty unindexedCalls)
        "job" job := by
  generalize hrun : run ⟨fun _ => 1, fun _ => 1⟩ .empty unindexedCalls = c
  have hjob : ∃ job, c.jobs["job"]? = some job ∧ job.state = .complete ∧
      (decodeSpec job.spec).toOption.map (fun spec => (spec.ranges, spec.indexes.blockHash)) =
        some ([⟨5, 6, by decide⟩], true) := by
    have hall : (c.jobs["job"]?.any fun job => job.state = .complete ∧
        (decodeSpec job.spec).toOption.map (fun spec => (spec.ranges, spec.indexes.blockHash)) =
          some ([⟨5, 6, by decide⟩], true)) = true := by
      rw [← hrun]; decide +kernel
    rw [Option.any_eq_true] at hall
    obtain ⟨job, hjob, hall⟩ := hall; exact ⟨job, hjob, of_decide_eq_true hall⟩
  have howned : (c.ownedSegments "job").all (fun owned => !owned.2.blockHashIndexed) = true := by
    rw [← hrun]; decide +kernel
  obtain ⟨job, hjob, hcomplete, hspec⟩ := hjob
  refine ⟨job, hjob, hcomplete, fun ⟨spec, hdecode, hcover⟩ => ?_⟩
  rw [hdecode, Except.toOption, map_some, some.injEq, Prod.mk.injEq] at hspec
  obtain ⟨_, _, hrow, hclosed, howns, -, hmeets⟩ :=
    hcover 5 (hspec.1 ▸ ⟨_, mem_singleton.2 rfl, by decide, by decide⟩)
  have hindexed := all_eq_true.1 howned _ (mem_ownedSegments.2 ⟨hrow, hclosed, howns⟩)
  have hindexes := hmeets.indexes
  rw [Bool.not_eq_true'] at hindexed
  rw [RawHistoryIndexPolicy.contains, hspec.2, SegmentRow.indexes, hindexed] at hindexes
  cases hindexes

end Leani.RawHistory
