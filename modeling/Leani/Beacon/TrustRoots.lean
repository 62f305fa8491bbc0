import Leani.Beacon.Polling
import Mathlib.Logic.Relation

/-!
# Trust roots

Runs of the finality source over one anchor file. What a light client verifies is a relation between
the root it bootstraps from and the finalized anchors it reaches; every bootstrap of a run descends
from the operator's checkpoint by it.
-/

namespace Leani.Beacon

open List Option Bool Source StartAnchor VerifierPool

structure LightClients where
  verifies : Root → VerifiedFinalityAnchor → Prop
  slotOf : Root → Nat
  slot_eq : ∀ {root : Root} {anchor : VerifiedFinalityAnchor}, verifies root anchor →
    anchor.beaconSlot = slotOf anchor.beaconBlockRoot
  advances : ∀ {root : Root} {anchor : VerifiedFinalityAnchor}, verifies root anchor →
    anchor.beaconBlockRoot = root ∨ slotOf root < anchor.beaconSlot

namespace LightClients

variable {clients : LightClients} {root root' : Root}

def Updates (clients : LightClients) (root root' : Root) : Prop :=
  ∃ anchor, clients.verifies root anchor ∧ anchor.beaconBlockRoot = root'

def Reaches (clients : LightClients) : Root → Root → Prop :=
  Relation.ReflTransGen clients.Updates

theorem Reaches.refl (root : Root) : clients.Reaches root root := Relation.ReflTransGen.refl

theorem Reaches.advances (h : clients.Reaches root root') :
    root' = root ∨ clients.slotOf root < clients.slotOf root' := by
  induction h with
  | refl => exact .inl rfl
  | tail _ hlast ih =>
    obtain ⟨_, hverifies, rfl⟩ := hlast
    have hslot := clients.slot_eq hverifies
    rcases clients.advances hverifies with heq | _
    · rw [heq]; exact ih
    · refine .inr ?_
      rcases ih with rfl | ih
      · omega
      · omega

theorem Reaches.slot_le (h : clients.Reaches root root') :
    clients.slotOf root ≤ clients.slotOf root' := by
  rcases h.advances with rfl | _
  · exact le_rfl
  · omega

structure Anchored (clients : LightClients) (root : Root) (anchor : VerifiedFinalityAnchor) :
    Prop where
  reaches : clients.Reaches root anchor.beaconBlockRoot
  slot_eq : anchor.beaconSlot = clients.slotOf anchor.beaconBlockRoot

variable {anchor : VerifiedFinalityAnchor}

theorem Anchored.of_verifies (h : clients.Reaches root root')
    (hverifies : clients.verifies root' anchor) : clients.Anchored root anchor where
  reaches := h.tail ⟨anchor, hverifies, rfl⟩
  slot_eq := clients.slot_eq hverifies

theorem Anchored.trans (h : clients.Reaches root root')
    (hanch : clients.Anchored root' anchor) : clients.Anchored root anchor where
  reaches := Relation.ReflTransGen.trans h hanch.reaches
  slot_eq := hanch.slot_eq

end LightClients

def Arrival.Truthful (clients : LightClients) : Arrival → Prop
  | .answered _ root (.ok result) => clients.verifies root result.anchor
  | _ => True

def EndpointVerifier.root? : EndpointVerifier → Option Root
  | .idle => none
  | .bootstrapping root => some root
  | .ready root => some root

namespace Collecting

variable {clients : LightClients} {config : BeaconApiConfig} {root : Root}
  {collecting next : Collecting}

/-- Every verifier and every answer descends from `root`. -/
structure Descends (clients : LightClients) (root : Root) (collecting : Collecting) : Prop where
  verifiers : ∀ verifier ∈ collecting.verifiers, ∀ bootstrapped, verifier.root? = some bootstrapped →
    clients.Reaches root bootstrapped
  answers : ∀ probe ∈ collecting.probes, ∀ anchor, probe.anchor = some anchor →
    clients.Anchored root anchor

variable {endpoint : Nat}

section

variable (h : collecting.Descends clients root)

include h

theorem descends_complete {probe : EndpointProbe} (hprobe : ∀ anchor, probe.anchor = some anchor →
    clients.Anchored root anchor) : (collecting.complete endpoint probe).Descends clients root where
  verifiers := h.verifiers
  answers probe' hmem := by
    unfold probes complete at hmem
    rw [map_append, mem_append] at hmem
    rcases hmem with hmem | hmem
    · exact h.answers probe' hmem
    · cases mem_singleton.1 hmem; exact hprobe

theorem descends_set {verifier : EndpointVerifier} (hverifier : ∀ bootstrapped,
    verifier.root? = some bootstrapped → clients.Reaches root bootstrapped) :
    Descends clients root { collecting with verifiers := collecting.verifiers.set endpoint verifier }
    where
  verifiers verifier' hmem := by
    rcases mem_or_eq_of_mem_set hmem with hmem | rfl
    · exact h.verifiers verifier' hmem
    · exact hverifier
  answers := h.answers

theorem descends_arrive {arrival : Arrival}
    (htrue : arrival.Truthful clients) (harrive : collecting.arrive config arrival = some next) :
    next.Descends clients root := by
  unfold arrive at harrive
  split at harrive
  · split at harrive
    · cases harrive; exact ⟨h.verifiers, h.answers⟩
    · cases harrive
  · split at harrive
    · rename_i bootstrapped hverifier
      split at harrive
      · cases harrive
        refine descends_set h ?_
        intro bootstrapped' heq; cases heq; exact h.verifiers _ (mem_of_getElem? hverifier) _ rfl
      · cases harrive
    · cases harrive
  · split at harrive
    · split at harrive
      · cases harrive
        refine descends_complete (descends_set h ?_) ?_
        · intro bootstrapped heq; cases heq
        · intro anc heq; cases heq
      · cases harrive
    · cases harrive
  · rename_i bootstrapped answer
    split at harrive
    · rename_i bootstrapped' hverifier
      split at harrive
      · rename_i hpend
        obtain ⟨_, rfl⟩ := hpend
        cases harrive
        refine descends_complete h ?_
        intro anc heq
        cases answer with
        | error e => cases heq
        | ok result =>
          cases heq; exact .of_verifies (h.verifiers _ (mem_of_getElem? hverifier) _ rfl) htrue
      · cases harrive
    · cases harrive

theorem descends_collect {start : Root} {report : FinalityProbeReport} {arrivals : List Arrival}
 (htrue : ∀ arrival ∈ arrivals, arrival.Truthful clients)
    (hcollect : collecting.collect config start arrivals = some (next, report)) :
    next.Descends clients root := by
  induction arrivals generalizing collecting with
  | nil =>
    obtain ⟨report', hcutoff, hpair⟩ := map_eq_some_iff.1 hcollect; cases hpair; exact h
  | cons arrival rest ih =>
    rw [collect] at hcollect
    cases hcutoff : collecting.cutoff config start with
    | some report' =>
      rw [hcutoff] at hcollect; cases hcollect; exact h
    | none =>
      rw [hcutoff] at hcollect
      obtain ⟨_, harrive, hrest⟩ := bind_eq_some_iff.1 hcollect
      exact ih (descends_arrive h (htrue arrival mem_cons_self) harrive)
        (forall_mem_cons.1 htrue).2 hrest

end

end Collecting

structure VerifierPool.Descends (clients : LightClients) (start : StartAnchor)
    (pool : VerifierPool) : Prop where
  verifiers : ∀ verifier ∈ pool.endpoints, ∀ bootstrapped, verifier.root? = some bootstrapped →
    clients.Reaches start.root bootstrapped
  newest : ∀ anchor, pool.newestAgreed = some anchor → clients.Anchored start.root anchor

namespace VerifierPool

variable {clients : LightClients} {start : StartAnchor} {pool : VerifierPool}

theorem descends_restarted (clients : LightClients) (ckpt : TrustedCheckpoint)
    (start : StartAnchor) (endps : Nat) : (restarted ckpt start endps).Descends clients start where
  verifiers verifier hmem bootstrapped heq := by
    cases eq_of_mem_replicate hmem; cases heq
  newest anchor heq := by cases heq

theorem Descends.bootstrapRoot (h : pool.Descends clients start) :
    clients.Reaches start.root (pool.bootstrapRoot start) := by
  unfold VerifierPool.bootstrapRoot
  cases hnew : pool.newestAgreed with
  | none => exact .refl _
  | some anchor => exact (h.newest anchor hnew).reaches

theorem mem_missingBootstraps {root : Root} (h : root ∈ pool.missingBootstraps start) :
    root = pool.bootstrapRoot start := by
  obtain ⟨verifier, -, heq⟩ := mem_filterMap.1 h
  cases verifier <;> cases heq; rfl

end VerifierPool

namespace Source

variable {clients : LightClients} {config : BeaconApiConfig} {source source' : Source}
  {arrivals : List Arrival} {polled : Polled}

theorem poll_descends {start : StartAnchor} (hstart : source.pool.start = some start)
    (h : source.pool.Descends clients start) (htrue : ∀ arrival ∈ arrivals, arrival.Truthful clients)
    (hpoll : source.poll config arrivals = some (source', polled)) : source'.pool.start = some start ∧
    source'.pool.checkpoint = source.pool.checkpoint ∧ source'.pool.Descends clients start ∧
    source'.stored = source.stored ∧ source'.anchorWriter = source.anchorWriter ∧ source'.requested =
    source.requested ++ source.pool.missingBootstraps start ∧ ∀ anc, polled.report.accepted =
    true → polled.report.selected = some anc → clients.Anchored start.root anc := by
  have hsound := poll_sound hpoll
  unfold poll at hpoll
  rw [hstart] at hpoll
  obtain ⟨⟨_, selected⟩, hcollect, hpair⟩ := map_eq_some_iff.1 hpoll
  have hbegin : (Collecting.start (source.pool.bootstrapRoot start) source.pool.endpoints).Descends
      clients start.root := by
    constructor
    · intro _ hmem _ heq
      obtain ⟨bef, hbef, rfl⟩ := mem_map.1 hmem
      cases bef with
      | idle =>
        cases heq; exact h.bootstrapRoot
      | bootstrapping root => exact h.verifiers _ hbef _ heq
      | ready root => exact h.verifiers _ hbef _ heq
    · intro probe hmem; cases hmem
  have hend := Collecting.descends_collect hbegin htrue hcollect
  have hanchored : ∀ anc, polled.report.accepted = true →
      polled.report.selected = some anc → clients.Anchored start.root anc := by
    intro anc hacc hsel
    obtain ⟨probe, hprobe, hanch⟩ := (hsound.agreed hacc hsel).verified
    cases hpair; exact hend.answers probe hprobe anc hanch
  cases hpair
  refine ⟨hstart, rfl, ⟨hend.verifiers, ?_⟩, rfl, rfl, rfl, hanchored⟩
  intro anc heq
  unfold agreedAfter at heq
  split at heq
  · rename_i chosen hchosen
    obtain ⟨hsel, hacc⟩ := filter_eq_some_iff.1 hchosen
    split at heq
    · cases heq; exact hanchored anc hacc hsel
    · exact h.newest anc heq
  · exact h.newest anc heq

theorem persist_cases (src : Source) (report : FinalityProbeReport) (start : StartAnchor)
    (write : WriteEnd) : (src.persist report start write).pool = src.pool ∧
      (src.persist report start write).requested = src.requested ∧
      (src.persist report start write).anchorWriter.file = src.anchorWriter.file ∧
      ((src.persist report start write).stored = src.stored ∨
        ∃ anc, report.accepted = true ∧ report.selected = some anc ∧
          (src.persist report start write).stored = .holds ⟨anc, start.checkpointRoot⟩) := by
  unfold persist
  split
  · rename_i anc hanch
    obtain ⟨hsel, hacc⟩ := filter_eq_some_iff.1 hanch
    refine ⟨rfl, rfl, AnchorWriter.persist_file, ?_⟩
    rcases @AnchorWriter.persist_cases src.stored src.anchorWriter anc
      start.checkpointRoot write with h | ⟨-, -, h⟩
    · exact .inl h
    · exact .inr ⟨anc, hacc, hsel, h⟩
  · exact ⟨rfl, rfl, rfl, .inl rfl⟩

end Source

structure StartAnchor.Trusted (clients : LightClients) (checkpoint : TrustedCheckpoint)
    (start : StartAnchor) : Prop where
  reaches : clients.Reaches start.checkpointRoot start.root
  operator : checkpoint.origin = .operator → clients.Reaches checkpoint.root start.root

theorem StartAnchor.trusted_configured (clients : LightClients) (ckpt : TrustedCheckpoint) :
    (configured ckpt).Trusted clients ckpt where
  reaches := .refl _
  operator _ := .refl _

theorem StartAnchor.trusted_ofPersisted {clients : LightClients} {ckpt : TrustedCheckpoint}
    {saved : PersistedFinalityAnchor} (h : clients.Anchored saved.checkpointRoot saved.anchor)
    (happlies : anchorApplies saved ckpt = true) : (ofPersisted saved).Trusted clients ckpt where
  reaches := h.reaches
  operator horig := by
    have hlineage : sameLineage saved ckpt = true := by
      rw [anchorApplies, horig] at happlies
      simp only [or_eq_true, and_eq_true] at happlies
      rcases happlies with ⟨hlineage, -⟩ | ⟨hlocal, -⟩
      · exact hlineage
      · cases hlocal
    rw [sameLineage, or_eq_true] at hlineage
    rcases hlineage with hroot | hroot
    · rw [← eq_of_beq hroot]; exact h.reaches
    · change clients.Reaches ckpt.root saved.anchor.beaconBlockRoot
      rw [eq_of_beq hroot]; exact .refl _

/-- What a run given `checkpoint` keeps: the file's anchor was reached from the root it names, the
pool's light clients descend from its start, and what an operator's run bootstraps from descends
from the checkpoint. -/
structure Source.Trusted (clients : LightClients) (checkpoint : TrustedCheckpoint)
    (source : Source) : Prop where
  stored : ∀ persisted, source.stored = .holds persisted →
    clients.Anchored persisted.checkpointRoot persisted.anchor
  pool : ∀ start, source.pool.start = some start → source.pool.checkpoint = some checkpoint ∧
    start.Trusted clients checkpoint ∧ source.pool.Descends clients start
  requested : checkpoint.origin = .operator → ∀ root ∈ source.requested,
    clients.Reaches checkpoint.root root

namespace Source

variable {clients : LightClients} {checkpoint given : TrustedCheckpoint} {config : BeaconApiConfig}
  {source source' : Source} {polled : Polled} {start : StartAnchor}

theorem trusted_poll {arrivals : List Arrival} (h : source.Trusted clients checkpoint)
    (hstart : source.pool.start = some start) (htrue : ∀ arrival ∈ arrivals, arrival.Truthful clients)
    (hpoll : source.poll config arrivals = some (source', polled)) :
    source'.Trusted clients checkpoint ∧ source'.pool.start =
    some start ∧ source'.stored = source.stored ∧ ∀ anchor, polled.report.accepted =
    true → polled.report.selected = some anchor → clients.Anchored start.root anchor := by
  obtain ⟨hckpt, htrust, hdescends⟩ := h.pool start hstart
  obtain ⟨hstart', hckpt', hdescends', hstore, -, hreq, hanchored⟩ :=
    poll_descends hstart hdescends htrue hpoll
  refine ⟨⟨?_, ?_, ?_⟩, hstart', hstore, hanchored⟩
  · rw [hstore]; exact h.stored
  · intro _ heq
    rw [hstart'] at heq; cases heq; exact ⟨hckpt'.trans hckpt, htrust, hdescends'⟩
  · intro horig root hmem
    rw [hreq, mem_append] at hmem
    rcases hmem with hmem | hmem
    · exact h.requested horig root hmem
    · rw [mem_missingBootstraps hmem]
      exact Relation.ReflTransGen.trans (htrust.operator horig) hdescends.bootstrapRoot

theorem trusted_restarted (h : source.Trusted clients checkpoint)
    (hstart : start.Trusted clients checkpoint) (endps : Nat) :
    Trusted clients checkpoint { source with pool := .restarted checkpoint start endps } where
  stored := h.stored
  pool start' heq := by
    cases heq; exact ⟨rfl, hstart, descends_restarted clients checkpoint start endps⟩
  requested := h.requested

theorem trusted_persist {write : WriteEnd} {report : FinalityProbeReport}
    (h : source.Trusted clients checkpoint) (hstart : start.Trusted clients checkpoint)
    (hanchored : ∀ anc, report.accepted = true → report.selected = some anc →
      clients.Anchored start.root anc) :
    (source.persist report start write).Trusted clients checkpoint ∧
      ((source.persist report start write).stored = source.stored ∨
        ∃ anc, clients.Anchored start.root anc ∧ (source.persist report start write).stored =
            .holds ⟨anc, start.checkpointRoot⟩) := by
  obtain ⟨hpool, hreq, -, hstore⟩ := persist_cases source report start write
  have hwr : (source.persist report start write).stored = source.stored ∨
      ∃ anc, clients.Anchored start.root anc ∧
        (source.persist report start write).stored = .holds ⟨anc, start.checkpointRoot⟩ := by
    rcases hstore with hstore | ⟨anc, hacc, hsel, hstore⟩
    · exact .inl hstore
    · exact .inr ⟨anc, hanchored anc hacc hsel, hstore⟩
  refine ⟨⟨?_, by rw [hpool]; exact h.pool, by rw [hreq]; exact h.requested⟩, hwr⟩
  intro saved heq
  rcases hwr with hsame | ⟨anc, hanch, hstore⟩
  · exact h.stored saved (hsame.symm.trans heq)
  · cases hstore.symm.trans heq; exact hanch.trans hstart.reaches

theorem follow_cases {now : Option Nat} (hgiven : given = checkpoint ∨
    source.pool.follows given.root) : (source.pool.start = some (source.follow config given now).2 ∧
    (source.follow config given now).1 = source) ∨ (source.follow config given now = ({ source with
          pool := .restarted checkpoint (source.follow config given now).2 config.labels.length },
          resolveStartAnchor config.network source.anchorWriter.file source.stored checkpoint
            config.maxCheckpointAge now)) := by
  unfold follow
  cases hfilter : source.pool.start.filter fun _ => source.pool.follows given.root with
  | some start => exact .inl ⟨(filter_eq_some_iff.1 hfilter).1, rfl⟩
  | none =>
    refine .inr ?_
    rcases hgiven with rfl | hfol
    · rfl
    · have hsome : source.pool.start.isSome := by
        unfold follows at hfol
        cases hstart : source.pool.start with
        | none => simp [hstart] at hfol
        | some start => rfl
      obtain ⟨start, hstart⟩ := isSome_iff_exists.1 hsome; simp [hstart, hfol] at hfilter

theorem trusted_follow {now : Option Nat} (h : source.Trusted clients checkpoint)
    (hgiven : given = checkpoint ∨ source.pool.follows given.root) :
    (source.follow config given now).1.Trusted clients checkpoint ∧
      (source.follow config given now).1.pool.start = some (source.follow config given now).2 ∧
      (source.follow config given now).1.stored = source.stored := by
  rcases @follow_cases _ _ config source now hgiven with ⟨hstart, hsame⟩ | hresol
  · rw [hsame]; exact ⟨h, hstart, rfl⟩
  · have hstart : (source.follow config given now).2.Trusted clients checkpoint := by
      rw [hresol]
      rcases @resolveStartAnchor_cases config.network source.anchorWriter.file source.stored
        checkpoint config.maxCheckpointAge now with hr | ⟨saved, hstore, -, happlies, -, hr⟩
      · rw [hr]; exact trusted_configured clients checkpoint
      · rw [hr]; exact trusted_ofPersisted (h.stored saved hstore) happlies
    have hfirst := congrArg Prod.fst hresol
    rw [hfirst]; exact ⟨trusted_restarted h hstart _, rfl, rfl⟩

theorem trusted_startAndPoll {starting : Starting} (h : source.Trusted clients checkpoint)
    (hgiven : given = checkpoint ∨ source.pool.follows given.root)
    (htrue : ∀ arrival ∈ starting.arrivals, arrival.Truthful clients)
    (htrue' : ∀ arrival ∈ starting.fallback, arrival.Truthful clients)
    (hs : source.startAndPoll config given starting = some (source', polled, start)) :
    source'.Trusted clients checkpoint ∧ source'.pool.start = some start ∧
      (start = (source.follow config given starting.now).2 ∨ start = .configured checkpoint) ∧
      (source'.stored = source.stored ∨ ∃ anchor, clients.Anchored start.root anchor ∧
        source'.stored = .holds ⟨anchor, start.checkpointRoot⟩) := by
  obtain ⟨hfollow, hstart, hstore⟩ := @trusted_follow _ _ _ config _ starting.now h hgiven
  unfold startAndPoll at hs
  obtain ⟨⟨_, _⟩, hpoll, hrest⟩ := bind_eq_some_iff.1 hs
  obtain ⟨⟨last, _, _⟩, hlast, hpair⟩ := map_eq_some_iff.1 hrest
  cases hpair
  obtain ⟨hmid, hkept, hsame, hanchored⟩ := trusted_poll hfollow hstart htrue hpoll
  obtain ⟨hckpt, htrust, -⟩ := hmid.pool _ hkept
  -- After the polls, the source follows `start`, and what was accepted descends from it.
  have hended : last.Trusted clients checkpoint ∧ last.pool.start = some start ∧
      last.stored = source.stored ∧ start.Trusted clients checkpoint ∧
      (start = (source.follow config given starting.now).2 ∨ start = .configured checkpoint) ∧
      ∀ anchor, polled.report.accepted = true → polled.report.selected = some anchor →
        clients.Anchored start.root anchor := by
    split at hlast
    · unfold pollConfigured at hlast
      rw [hckpt, getD_some] at hlast
      obtain ⟨⟨_, fallback⟩, hagain, hpair⟩ := map_eq_some_iff.1 hlast
      obtain ⟨hagain', hstart', hsame', hanchored'⟩ := trusted_poll
        (trusted_restarted hmid (trusted_configured clients checkpoint) _) rfl htrue'
        hagain
      dsimp only at hpair
      split at hpair
      · cases hpair
        exact ⟨hagain', hstart', hsame'.trans (hsame.trans hstore),
          trusted_configured clients checkpoint, .inr rfl, hanchored'⟩
      · cases hpair
        exact ⟨trusted_restarted hagain' htrust _, rfl, hsame'.trans (hsame.trans hstore),
          htrust, .inl rfl, hanchored⟩
    · cases hlast; exact ⟨hmid, hkept, hsame.trans hstore, htrust, .inl rfl, hanchored⟩
  obtain ⟨hlast', hstart', hsame', htrust', hstarts, hanchored'⟩ := hended
  obtain ⟨hfinal, hwr⟩ := @trusted_persist _ _ _ _ starting.write _ hlast' htrust' hanchored'
  refine ⟨hfinal, ?_, hstarts, ?_⟩
  · rw [(persist_cases last polled.report start starting.write).1]; exact hstart'
  · rwa [hsame'] at hwr

theorem trusted_pollCurrent {arrivals : List Arrival} {write : WriteEnd}
    (h : source.Trusted clients checkpoint) (htrue : ∀ arrival ∈ arrivals, arrival.Truthful clients)
    (hs : source.pollCurrent config arrivals write = some (source', polled)) :
    source'.Trusted clients checkpoint ∧ source'.pool.start = source.pool.start ∧
    (source'.stored = source.stored ∨ ∃ start anc, source.pool.start = some start ∧
    clients.Anchored start.root anc ∧ source'.stored = .holds ⟨anc, start.checkpointRoot⟩) := by
  unfold pollCurrent at hs
  cases hstart : source.pool.start with
  | none =>
    rw [hstart] at hs; cases hs; exact ⟨h, hstart, .inl rfl⟩
  | some start =>
    rw [hstart] at hs
    obtain ⟨⟨middle, _⟩, hpoll, hpair⟩ := map_eq_some_iff.1 hs
    cases hpair
    obtain ⟨hmid, hkept, hsame, hanchored⟩ := trusted_poll h hstart htrue hpoll
    obtain ⟨hfinal, hwr⟩ := @trusted_persist _ _ _ _ write _ hmid (h.pool start hstart).2.1 hanchored
    refine ⟨hfinal, ?_, ?_⟩
    · rw [(persist_cases middle polled.report start write).1]; exact hkept
    · rw [hsame] at hwr
      exact hwr.imp id fun ⟨anc, hanch, heq⟩ => ⟨start, anc, rfl, hanch, heq⟩

end Source

def TrustedCheckpoint.WellFormed (clients : LightClients) (checkpoint : TrustedCheckpoint) : Prop :=
  ∀ slot, checkpoint.slot = some slot → slot = clients.slotOf checkpoint.root

def StartAnchor.Useful (clients : LightClients) (checkpoint : TrustedCheckpoint)
    (start : StartAnchor) : Prop :=
  (start.checkpointRoot = checkpoint.root ∧
    clients.slotOf checkpoint.root ≤ clients.slotOf start.root) ∨
  (checkpoint.origin = .locallyVerified ∧ ∃ slot, checkpoint.slot = some slot ∧
    (slot < clients.slotOf start.root ∨ start.root = checkpoint.root))

namespace StartAnchor

variable {clients : LightClients} {checkpoint : TrustedCheckpoint} {start : StartAnchor}

theorem useful_configured (clients : LightClients) (checkpoint : TrustedCheckpoint) :
    (configured checkpoint).Useful clients checkpoint :=
  .inl ⟨rfl, le_rfl⟩

theorem useful_ofPersisted {saved : PersistedFinalityAnchor}
    (h : clients.Anchored saved.checkpointRoot saved.anchor)
    (happlies : anchorApplies saved checkpoint = true) (hspared : saved.anchor.beaconBlockRoot =
    checkpoint.root → saved.checkpointRoot ≠ checkpoint.root → checkpoint.origin =
    .locallyVerified ∧ checkpoint.slot.isSome) : (ofPersisted saved).Useful clients checkpoint := by
  rw [anchorApplies, or_eq_true] at happlies
  rcases happlies with hsame | hlater
  · rw [and_eq_true, sameLineage, or_eq_true] at hsame
    by_cases hlabel : saved.checkpointRoot = checkpoint.root
    · refine .inl ⟨hlabel, ?_⟩
      rw [← hlabel]; exact h.reaches.slot_le
    · rcases hsame.1 with heq | heq
      · exact absurd (eq_of_beq heq) hlabel
      · obtain ⟨horig, hslot⟩ := hspared (eq_of_beq heq) hlabel
        obtain ⟨slot, hslot⟩ := isSome_iff_exists.1 hslot
        exact .inr ⟨horig, slot, hslot, .inr (eq_of_beq heq)⟩
  · rw [and_eq_true, isLater] at hlater
    cases hslot : checkpoint.slot with
    | none => simp [hslot] at hlater
    | some slot =>
      have hlt : slot < saved.anchor.beaconSlot := by simpa [hslot] using hlater.2
      rw [h.slot_eq] at hlt; exact .inr ⟨eq_of_beq hlater.1, slot, hslot, .inl hlt⟩

theorem Useful.applies {anc : VerifiedFinalityAnchor} (h : start.Useful clients checkpoint)
    (hwell : checkpoint.WellFormed clients) (hanch : clients.Anchored start.root anc) :
    anchorApplies ⟨anc, start.checkpointRoot⟩ checkpoint = true := by
  have hreach := hanch.reaches.slot_le
  have hslot := hanch.slot_eq
  rw [anchorApplies, or_eq_true]
  rcases h with ⟨hlabel, hle⟩ | ⟨horig, slot, hknown, hle⟩
  · refine .inl ?_
    rw [and_eq_true, sameLineage, or_eq_true, notOlder]
    refine ⟨.inl (beq_iff_eq.2 hlabel), ?_⟩
    cases hknown : checkpoint.slot with
    | none => rfl
    | some slot =>
      have heq := hwell slot hknown; simp only [all_some, decide_eq_true_eq]; omega
  · by_cases hlater : slot < anc.beaconSlot
    · refine .inr ?_
      rw [horig, isLater, hknown]; simp [hlater]
    · -- At its checkpoint's slot, the anchor is the checkpoint.
      refine .inl ?_
      have heq := hwell slot hknown
      rcases hle with _ | hroot
      · omega
      · have hsame : anc.beaconBlockRoot = checkpoint.root := by
          rcases hanch.reaches.advances with h | h
          · exact h.trans hroot
          · rw [hroot] at h; omega
        rw [and_eq_true, sameLineage, notOlder, hknown]
        refine ⟨by simp [hsame], ?_⟩
        rw [hsame] at hslot; simp only [all_some, decide_eq_true_eq]; omega

end StartAnchor

inductive Operation where
  | start (given : TrustedCheckpoint) (starting : Source.Starting)
  | poll (arrivals : List Arrival) (write : WriteEnd)
  | lost (error : Option String)

namespace Operation

/-- One operation of a run given `checkpoint`. A subscription may name the root that the pool
already follows instead. -/
def perform (config : BeaconApiConfig) (checkpoint : TrustedCheckpoint) (source : Source) :
    Operation → Option Source
  | .start given starting =>
    if given = checkpoint ∨ source.pool.follows given.root then
      (source.startAndPoll config given starting).map Prod.fst
    else none
  | .poll arrivals write => (source.pollCurrent config arrivals write).map Prod.fst
  | .lost error => some { source with stored := (error.map .unreadable).getD .missing }

def Truthful (clients : LightClients) : Operation → Prop
  | .start _ starting => (∀ arrival ∈ starting.arrivals, arrival.Truthful clients) ∧
      ∀ arrival ∈ starting.fallback, arrival.Truthful clients
  | .poll arrivals _ => ∀ arrival ∈ arrivals, arrival.Truthful clients
  | .lost _ => True

/-- The source does not start while the file holds the checkpoint itself, within its age, as an
anchor verified from another checkpoint, unless the checkpoint is a local one with a slot. -/
def Spared (config : BeaconApiConfig) (checkpoint : TrustedCheckpoint) (source : Source) :
    Operation → Prop
  | .start _ starting => ∀ persisted, source.stored = .holds persisted →
      persisted.anchor.beaconBlockRoot = checkpoint.root →
      persisted.checkpointRoot ≠ checkpoint.root →
      verifyCheckpointAge config.network persisted.anchor.beaconSlot config.maxCheckpointAge
        starting.now = .ok () →
      checkpoint.origin = .locallyVerified ∧ checkpoint.slot.isSome
  | _ => True

end Operation

structure Run where
  config : BeaconApiConfig
  file : AnchorFile
  checkpoint : TrustedCheckpoint
  operations : List Operation

namespace Run

def fresh (run : Run) (stored : StoredAnchor) : Source where
  pool := .empty
  anchorWriter := ⟨run.file, none, 0⟩
  stored
  attestedHeads := none
  lastPollAccepted := false
  requested := []

def perform (run : Run) (source : Source) (operation : Operation) : Option Source :=
  operation.perform run.config run.checkpoint source

def execute (run : Run) (stored : StoredAnchor) : Option Source :=
  run.operations.foldlM run.perform (run.fresh stored)

def Truthful (clients : LightClients) (run : Run) : Prop :=
  ∀ operation ∈ run.operations, operation.Truthful clients

def SparedFrom (run : Run) : Source → List Operation → Prop
  | _, [] => True
  | source, operation :: rest => operation.Spared run.config run.checkpoint source ∧
      ∀ next, run.perform source operation = some next → SparedFrom run next rest

def executeAll (runs : List Run) (stored : StoredAnchor) : Option StoredAnchor :=
  runs.foldlM (fun stored run => (run.execute stored).map Source.stored) stored

end Run

section

variable {clients : LightClients} {run : Run} {source next : Source} {operation : Operation}
  {stored : StoredAnchor}

def StoredAnchor.Sound (clients : LightClients) (stored : StoredAnchor) : Prop :=
  ∀ persisted, stored = .holds persisted → clients.Anchored persisted.checkpointRoot persisted.anchor

theorem Run.trusted_fresh (h : stored.Sound clients) :
    (run.fresh stored).Trusted clients run.checkpoint where
  stored := h
  pool start heq := by cases heq
  requested _ root hmem := by cases hmem

theorem Run.trusted_perform (h : source.Trusted clients run.checkpoint)
    (htrue : operation.Truthful clients) (hperform : run.perform source operation = some next) :
    next.Trusted clients run.checkpoint := by
  unfold perform Operation.perform at hperform
  cases operation with
  | start given starting =>
    dsimp only at hperform
    split at hperform
    · rename_i hgiven
      obtain ⟨⟨_, polled, start⟩, hs, hpair⟩ := map_eq_some_iff.1 hperform
      cases hpair; exact (trusted_startAndPoll h hgiven htrue.1 htrue.2 hs).1
    · cases hperform
  | poll arrivals write =>
    obtain ⟨⟨_, polled⟩, hs, hpair⟩ := map_eq_some_iff.1 hperform
    cases hpair; exact (trusted_pollCurrent h htrue hs).1
  | lost error =>
    cases hperform
    refine ⟨?_, h.pool, h.requested⟩
    intro _ heq
    cases error <;> cases heq

variable {operations : List Operation}

theorem Run.trusted_foldlM (h : source.Trusted clients run.checkpoint)
    (htrue : ∀ operation ∈ operations, operation.Truthful clients)
    (hrun : operations.foldlM run.perform source = some next) :
    next.Trusted clients run.checkpoint := by
  induction operations generalizing source with
  | nil =>
    cases hrun; exact h
  | cons operation rest ih =>
    rw [foldlM_cons] at hrun
    obtain ⟨_, hperform, hrest⟩ := bind_eq_some_iff.1 hrun
    exact ih (trusted_perform h (htrue operation mem_cons_self) hperform)
      (forall_mem_cons.1 htrue).2 hrest

theorem Run.sound_executeAll {runs : List Run} {stored' : StoredAnchor} (h : stored.Sound clients)
    (htrue : ∀ run ∈ runs, run.Truthful clients) (hruns : executeAll runs stored = some stored') :
    stored'.Sound clients := by
  induction runs generalizing stored with
  | nil =>
    cases hruns; exact h
  | cons run rest ih =>
    rw [executeAll, foldlM_cons] at hruns
    obtain ⟨_, hrun, hrest⟩ := bind_eq_some_iff.1 hruns
    obtain ⟨_, hexecute, rfl⟩ := map_eq_some_iff.1 hrun
    have htrust := trusted_foldlM (trusted_fresh h) (htrue run mem_cons_self) hexecute
    exact ih htrust.stored (forall_mem_cons.1 htrue).2 hrest

def Source.Useful (clients : LightClients) (checkpoint : TrustedCheckpoint) (source : Source) :
    Prop :=
  ∀ start, source.pool.start = some start → start.Useful clients checkpoint

variable {starting : Starting}

variable {config : BeaconApiConfig}

theorem Source.useful_follow {ckpt given : TrustedCheckpoint} (h : source.Trusted clients ckpt)
    (huseful : source.Useful clients ckpt) (hgiven : given = ckpt ∨ source.pool.follows given.root)
    (hspared : (Operation.start given starting).Spared config ckpt source) :
    (source.follow config given starting.now).2.Useful clients ckpt := by
  rcases @follow_cases _ _ config source starting.now hgiven with ⟨hstart, -⟩ | hresol
  · exact huseful _ hstart
  · rw [hresol]
    rcases @resolveStartAnchor_cases config.network source.anchorWriter.file source.stored
      ckpt config.maxCheckpointAge starting.now with
      hr | ⟨persisted, hstore, -, happlies, hage, hr⟩
    · rw [hr]; exact useful_configured clients ckpt
    · rw [hr]
      exact useful_ofPersisted (h.stored persisted hstore) happlies
        fun hroot hlabel => hspared persisted hstore hroot hlabel hage

section

variable (h : source.Trusted clients run.checkpoint)
  (huseful : source.Useful clients run.checkpoint) (hwell : run.checkpoint.WellFormed clients)

include h huseful hwell

theorem Run.useful_perform (htrue : operation.Truthful clients)
    (hspared : operation.Spared run.config run.checkpoint source)
    (hperform : run.perform source operation = some next) :
    next.Useful clients run.checkpoint ∧ ∀ saved, source.stored ≠ .holds saved →
      next.stored = .holds saved → anchorApplies saved run.checkpoint = true := by
  unfold perform Operation.perform at hperform
  cases operation with
  | start given starting =>
    dsimp only at hperform
    split at hperform
    · rename_i hgiven
      obtain ⟨⟨_, polled, start⟩, hs, hpair⟩ := map_eq_some_iff.1 hperform
      cases hpair
      obtain ⟨-, hstart, hstarts, hstore⟩ :=
        trusted_startAndPoll h hgiven htrue.1 htrue.2 hs
      have hstart' : start.Useful clients run.checkpoint := by
        rcases hstarts with rfl | rfl
        · exact useful_follow h huseful hgiven hspared
        · exact useful_configured clients run.checkpoint
      refine ⟨?_, ?_⟩
      · intro _ heq
        rw [hstart] at heq; cases heq; exact hstart'
      · intro saved hne heq
        rcases hstore with hsame | ⟨anc, hanch, hstore⟩
        · exact absurd (hsame.symm.trans heq) hne
        · cases hstore.symm.trans heq; exact hstart'.applies hwell hanch
    · cases hperform
  | poll arrivals write =>
    obtain ⟨⟨_, polled⟩, hs, hpair⟩ := map_eq_some_iff.1 hperform
    cases hpair
    obtain ⟨-, hstart, hstore⟩ := trusted_pollCurrent h htrue hs
    refine ⟨?_, ?_⟩
    · intro start heq; rw [hstart] at heq; exact huseful start heq
    · intro saved hne heq
      rcases hstore with hsame | ⟨start, anc, hpool, hanch, hstore⟩
      · exact absurd (hsame.symm.trans heq) hne
      · cases hstore.symm.trans heq; exact (huseful start hpool).applies hwell hanch
  | lost error =>
    cases hperform
    refine ⟨huseful, ?_⟩
    intro saved _ heq
    cases error <;> cases heq

theorem Run.useful_foldlM (htrue : ∀ operation ∈ operations, operation.Truthful clients)
    (hspared : run.SparedFrom source operations)
    (hrun : operations.foldlM run.perform source = some next) :
    next.Useful clients run.checkpoint := by
  induction operations generalizing source with
  | nil =>
    cases hrun; exact huseful
  | cons operation rest ih =>
    rw [foldlM_cons] at hrun
    obtain ⟨middle, hperform, hrest⟩ := bind_eq_some_iff.1 hrun
    have hfirst := htrue operation mem_cons_self
    exact ih (trusted_perform h hfirst hperform)
      (useful_perform h huseful hwell hfirst hspared.1 hperform).1
      (forall_mem_cons.1 htrue).2
      (hspared.2 middle hperform) hrest

end

variable {start : StartAnchor}

theorem Source.requested_persist {report : FinalityProbeReport} {write : WriteEnd} :
    (source.persist report start write).requested = source.requested :=
  (persist_cases source report start write).2.1

theorem Source.requested_poll {arrivals : List Arrival} {polled : Polled}
    (hstart : source.pool.start = some start)
    (hpoll : source.poll config arrivals = some (next, polled)) :
    next.requested = source.requested ++ source.pool.missingBootstraps start := by
  unfold poll at hpoll
  rw [hstart] at hpoll
  obtain ⟨⟨_, _⟩, _, hpair⟩ := map_eq_some_iff.1 hpoll; cases hpair; rfl

theorem Source.requested_startAndPoll {given : TrustedCheckpoint} {polled : Polled}
    (hfresh : source.pool.start = none)
    (hs : source.startAndPoll config given starting = some (next, polled, start)) :
    ∃ later, next.requested = source.requested ++ (replicate config.labels.length
      (resolveStartAnchor config.network source.anchorWriter.file source.stored given
        config.maxCheckpointAge starting.now).root ++ later) := by
  have hfollow : source.follow config given starting.now = ({ source with
          pool := .restarted given
            (resolveStartAnchor config.network source.anchorWriter.file source.stored given
              config.maxCheckpointAge starting.now) config.labels.length },
        resolveStartAnchor config.network source.anchorWriter.file source.stored given
          config.maxCheckpointAge starting.now) := by
    unfold follow; rw [hfresh]; rfl
  unfold startAndPoll at hs
  obtain ⟨⟨_, _⟩, hpoll, hrest⟩ := bind_eq_some_iff.1 hs
  obtain ⟨⟨_, _, _⟩, hlast, hpair⟩ := map_eq_some_iff.1 hrest
  cases hpair
  rw [requested_persist]
  rw [hfollow] at hpoll hlast
  have hmid := requested_poll rfl hpoll
  have hmiss : ∀ start : StartAnchor, (restarted given start
      config.labels.length).missingBootstraps start = replicate config.labels.length start.root := by
    intro start; simp [missingBootstraps, restarted, bootstrapRoot]
  rw [hmiss] at hmid
  split at hlast
  · unfold pollConfigured at hlast
    obtain ⟨⟨_, _⟩, hagain, hpair⟩ := map_eq_some_iff.1 hlast
    have hlater := requested_poll rfl hagain
    dsimp only at hpair hlater
    rw [hmid, append_assoc] at hlater
    split at hpair
    · cases hpair; exact ⟨_, hlater⟩
    · cases hpair; exact ⟨_, hlater⟩
  · cases hlast; exact ⟨[], by rw [append_nil]; exact hmid⟩

/-- In every sequence of runs over one anchor file, a run given an operator's checkpoint bootstraps
only from what is reached from it. An anchor that a spared run persists is where the next run given
the same checkpoint bootstraps from, while it is within the age limit. -/
theorem trust_roots_survive {runs : List Run} (htrue : ∀ run ∈ runs, run.Truthful clients)
    (hruns : Run.executeAll runs .missing = some stored) (hrunTrue : run.Truthful clients)
    (hrun : run.execute stored = some source) :
    (run.checkpoint.origin = .operator →
      ∀ root ∈ source.requested, clients.Reaches run.checkpoint.root root) ∧
    (run.checkpoint.WellFormed clients →
      run.SparedFrom (run.fresh stored) (run.operations ++ [operation]) →
      operation.Truthful clients → run.perform source operation = some next →
      ∀ persisted, source.stored ≠ .holds persisted → next.stored = .holds persisted →
        ∀ (later : Run) (starting : Source.Starting) (started : Source) (polled : Polled)
          (start : StartAnchor),
          later.checkpoint = run.checkpoint → later.file ≠ .disabled →
          verifyCheckpointAge later.config.network persisted.anchor.beaconSlot
            later.config.maxCheckpointAge starting.now = .ok () →
          (later.fresh next.stored).startAndPoll later.config later.checkpoint starting =
            some (started, polled, start) →
          List.replicate later.config.labels.length persisted.anchor.beaconBlockRoot <+:
            started.requested) := by
  have hsound := Run.sound_executeAll (fun persisted heq => by cases heq) htrue hruns
  have htrusted := Run.trusted_foldlM (Run.trusted_fresh hsound) hrunTrue hrun
  refine ⟨htrusted.requested, ?_⟩
  intro hwell hspared htrue' hperform persisted hne hpersisted later starting started polled start
    hsame hfile hage hstart
  have hsplit : ∀ (operations : List Operation) (source' : Source),
      run.SparedFrom source' (operations ++ [operation]) →
      operations.foldlM run.perform source' = some source → run.SparedFrom source' operations ∧
          operation.Spared run.config run.checkpoint source := by
    intro operations
    induction operations with
    | nil =>
      intro source' hs hfold; cases hfold; exact ⟨trivial, hs.1⟩
    | cons first rest ih =>
      intro source' hs hfold
      rw [foldlM_cons] at hfold
      obtain ⟨middle, hfirst, hrest⟩ := bind_eq_some_iff.1 hfold
      refine ⟨⟨hs.1, ?_⟩, (ih middle (hs.2 middle hfirst) hrest).2⟩
      intro _ hmiddle'
      cases hfirst.symm.trans hmiddle'; exact (ih middle (hs.2 middle hfirst) hrest).1
  obtain ⟨hspared', hlast⟩ := hsplit _ _ hspared hrun
  have huseful := Run.useful_foldlM (Run.trusted_fresh hsound) (fun start heq => by cases heq) hwell hrunTrue
      hspared' hrun
  have happlies := (Run.useful_perform htrusted huseful hwell htrue' hlast hperform).2 persisted hne
    hpersisted
  obtain ⟨rest, hrequested⟩ := requested_startAndPoll rfl hstart
  have hresolved := @resolveStartAnchor_of_applies later.config.network later.file later.checkpoint
    later.config.maxCheckpointAge starting.now persisted hfile (by rw [hsame]; exact happlies) hage
  rw [hpersisted] at hrequested
  refine ⟨rest, ?_⟩
  rw [hrequested]
  change _ = [] ++ (replicate _ (resolveStartAnchor later.config.network later.file
    (.holds persisted) later.checkpoint later.config.maxCheckpointAge starting.now).root ++ rest)
  rw [hresolved]; rfl

end

def anchorAt : Nat → VerifiedFinalityAnchor
  | 64 => ⟨64, 20, 2, 2⟩
  | slot => ⟨slot, 30, 3, 3⟩

def twoAnchors : LightClients where
  verifies root anchor := (root = 10 ∧ anchor = anchorAt 64) ∨ (root = 20 ∧ anchor = anchorAt 96)
  slotOf root := if root = 10 then 32 else if root = 20 then 64 else 96
  slot_eq := by
    intro root anchor h
    rcases h with ⟨-, rfl⟩ | ⟨-, rfl⟩
    · rfl
    · rfl
  advances := by
    intro root anchor h
    rcases h with ⟨rfl, rfl⟩ | ⟨rfl, rfl⟩
    · exact .inr (by decide)
    · exact .inr (by decide)

def beaconConfig : BeaconApiConfig := ⟨["beacon"], 1, ⟨0, 12⟩, 1209600⟩

/-- The endpoint bootstraps `root` and verifies `anchor`. -/
def verifiedStart (root : Root) (anchor : VerifiedFinalityAnchor) : Source.Starting where
  now := some 1200
  arrivals := [.bootstrapped 0, .answered 0 root (.ok ⟨anchor, ⟨32, root, 1, 1⟩, .error "none", 1⟩)]
  fallback := []
  write := .written

def failedStart : Source.Starting :=
  ⟨some 1200, [.bootstrapFailed 0 "unserved"], [.bootstrapFailed 0 "unserved"], .written⟩

def operatorRun (root : Root) (starting : Source.Starting) : Run where
  config := beaconConfig
  file := .readWrite
  checkpoint := ⟨root, none, .operator⟩
  operations := [.start ⟨root, none, .operator⟩ starting]

/-- A run given the root of the persisted anchor persists a later one under the older root, and the
next run given the same root does not use it. -/
theorem reanchored_not_used :
    (∀ run ∈ [operatorRun 10 (verifiedStart 10 (anchorAt 64)),
        operatorRun 20 (verifiedStart 20 (anchorAt 96))], run.Truthful twoAnchors) ∧
      ((operatorRun 10 (verifiedStart 10 (anchorAt 64))).execute .missing).map Source.stored =
        some (.holds ⟨anchorAt 64, 10⟩) ∧
      ((operatorRun 20 (verifiedStart 20 (anchorAt 96))).execute
        (.holds ⟨anchorAt 64, 10⟩)).map Source.stored = some (.holds ⟨anchorAt 96, 10⟩) ∧
      verifyCheckpointAge beaconConfig.network (anchorAt 96).beaconSlot
        beaconConfig.maxCheckpointAge (some 1200) = .ok () ∧
      ((operatorRun 20 failedStart).execute (.holds ⟨anchorAt 96, 10⟩)).map Source.requested =
        some [20] := by
  refine ⟨?_, rfl, rfl, rfl, rfl⟩
  intro run hrun _ hoperation
  rcases mem_pair.1 hrun with rfl | rfl
  · cases mem_singleton.1 hoperation
    refine ⟨?_, by simp [verifiedStart]⟩
    intro arrival harrival
    rcases mem_pair.1 harrival with rfl | rfl
    · trivial
    · exact .inl ⟨rfl, rfl⟩
  · cases mem_singleton.1 hoperation
    refine ⟨?_, by simp [verifiedStart]⟩
    intro arrival harrival
    rcases mem_pair.1 harrival with rfl | rfl
    · trivial
    · exact .inr ⟨rfl, rfl⟩

/-- A run given checkpoint 10 persists the anchor at slot 64, and the next one bootstraps from it. -/
theorem trust_roots_survive_used : ∃ next started,
    (operatorRun 10 failedStart).perform ((operatorRun 10 failedStart).fresh .missing)
        (.start ⟨10, none, .operator⟩ (verifiedStart 10 (anchorAt 64))) = some next ∧
      next.stored = .holds ⟨anchorAt 64, 10⟩ ∧
      ((operatorRun 10 failedStart).fresh next.stored).startAndPoll beaconConfig
        ⟨10, none, .operator⟩ failedStart = some started ∧ [20] <+: started.1.requested := by
  refine ⟨_, _, rfl, rfl, rfl, ?_⟩
  refine (@trust_roots_survive twoAnchors ⟨beaconConfig, .readWrite, ⟨10, none, .operator⟩, []⟩
    ((operatorRun 10 failedStart).fresh .missing) _
    (.start ⟨10, none, .operator⟩ (verifiedStart 10 (anchorAt 64))) .missing [] ?_ rfl ?_ rfl).2
    ?_ ?_ ?_ rfl ⟨anchorAt 64, 10⟩ ?_ rfl (operatorRun 10 failedStart) failedStart _ _ _ rfl ?_ rfl
    rfl
  · simp
  · intro _ hoperation; cases hoperation
  · intro _ hslot; cases hslot
  · refine ⟨?_, fun _ _ => trivial⟩
    intro _ hstored; cases hstored
  · refine ⟨?_, by simp [verifiedStart]⟩
    intro _ harrival
    rcases mem_pair.1 harrival with rfl | rfl
    · trivial
    · exact .inl ⟨rfl, rfl⟩
  · intro hstored; cases hstored
  · intro hfile; cases hfile

end Leani.Beacon
