import Leani.Beacon.Anchors

/-!
# Polling the endpoints

One light client per endpoint, bootstrapped once and advanced by every poll. A poll collects the
endpoints' answers in the order they arrive, with a short grace period after the first verified one.
-/

namespace Leani.Beacon

open List Option

structure BeaconApiConfig where
  labels : List String
  minimumAgreement : Nat
  network : BeaconNetwork
  maxCheckpointAge : Nat

inductive EndpointVerifier where
  | idle
  | bootstrapping (root : Root)
  | ready (root : Root)

structure VerifierPool where
  checkpoint : Option TrustedCheckpoint
  start : Option StartAnchor
  startAnchor : Option VerifiedFinalityAnchor
  newestAgreed : Option VerifiedFinalityAnchor
  endpoints : List EndpointVerifier

namespace VerifierPool

def empty : VerifierPool := ⟨none, none, none, none, []⟩

/-- Whether the verifiers already follow `root`, as their configured checkpoint or as their
bootstrap root. -/
def follows (pool : VerifierPool) (root : Root) : Bool :=
  pool.start.any fun start => start.root == root || start.checkpointRoot == root

def restarted (checkpoint : TrustedCheckpoint) (start : StartAnchor) (endpoints : Nat) :
    VerifierPool where
  checkpoint := some checkpoint
  start := some start
  startAnchor := none
  newestAgreed := none
  endpoints := List.replicate endpoints .idle

def bootstrapRoot (pool : VerifierPool) (start : StartAnchor) : Root :=
  (pool.newestAgreed.map VerifiedFinalityAnchor.beaconBlockRoot).getD start.root

def missingBootstraps (pool : VerifierPool) (start : StartAnchor) : List Root :=
  pool.endpoints.filterMap fun
    | .idle => some (pool.bootstrapRoot start)
    | _ => none

end VerifierPool

abbrev AttestedHeadPublisher := Option AttestedHead

def AttestedHeadPublisher.publish (latest : AttestedHeadPublisher) (head : AttestedHead) :
    AttestedHeadPublisher × Bool :=
  if latest.any (head.beaconSlot ≤ ·.beaconSlot) then (latest, false) else (some head, true)

structure Source where
  pool : VerifierPool
  anchorWriter : AnchorWriter
  stored : StoredAnchor
  attestedHeads : Option AttestedHeadPublisher
  lastPollAccepted : Bool
  requested : List Root

structure EndpointSync where
  anchor : VerifiedFinalityAnchor
  checkpointAnchor : VerifiedFinalityAnchor
  attestedHead : Except String AttestedHead
  updatesVerified : Nat

inductive Arrival where
  | bootstrapped (endpoint : Nat)
  | bootstrapFailed (endpoint : Nat) (error : String)
  /-- The endpoint's light client, bootstrapped from `root`, verifies its latest updates, or does
  not. -/
  | answered (endpoint : Nat) (root : Root) (answer : Except String EndpointSync)
  | graceElapsed

/-- The locals of `poll`'s loop. Answers have the number of their endpoint. -/
structure Collecting where
  verifiers : List EndpointVerifier
  pending : List Nat
  completed : List (Nat × EndpointProbe)
  graceStarted : Bool
  graceElapsed : Bool

def failedProbe (label error : String) : EndpointProbe where
  endpoint := label
  verified := false
  anchor := none
  checkpointAnchor := none
  attestedHead := none
  attestedHeadError := none
  updatesVerified := 0
  error := some error

def verifiedProbe (label : String) (result : EndpointSync) : EndpointProbe where
  endpoint := label
  verified := true
  anchor := some result.anchor
  checkpointAnchor := some result.checkpointAnchor
  attestedHead := result.attestedHead.toOption
  attestedHeadError :=
    match result.attestedHead with
    | .ok _ => none
    | .error error => some error
  updatesVerified := result.updatesVerified
  error := none

def probeOf (label : String) : Except String EndpointSync → EndpointProbe
  | .ok result => verifiedProbe label result
  | .error error => failedProbe label error

namespace Collecting

def start (root : Root) (verifiers : List EndpointVerifier) : Collecting where
  verifiers := verifiers.map fun
    | .idle => .bootstrapping root
    | verifier => verifier
  pending := List.range verifiers.length
  completed := []
  graceStarted := false
  graceElapsed := false

def complete (collecting : Collecting) (endpoint : Nat) (probe : EndpointProbe) : Collecting :=
  { collecting with
    pending := collecting.pending.erase endpoint
    completed := collecting.completed ++ [(endpoint, probe)]
    graceStarted := collecting.graceStarted || probe.verified }

def arrive (config : BeaconApiConfig) (collecting : Collecting) : Arrival → Option Collecting
  | .graceElapsed =>
    if collecting.graceStarted && !collecting.graceElapsed then
      some { collecting with graceElapsed := true }
    else none
  | .bootstrapped endpoint =>
    match collecting.verifiers[endpoint]? with
    | some (.bootstrapping root) =>
      if endpoint ∈ collecting.pending then
        some { collecting with verifiers := collecting.verifiers.set endpoint (.ready root) }
      else none
    | _ => none
  | .bootstrapFailed endpoint error =>
    match collecting.verifiers[endpoint]? with
    | some (.bootstrapping _) =>
      if endpoint ∈ collecting.pending then
        some ({ collecting with verifiers := collecting.verifiers.set endpoint .idle }.complete
          endpoint (failedProbe (config.labels.getD endpoint "") error))
      else none
    | _ => none
  | .answered endpoint root answer =>
    match collecting.verifiers[endpoint]? with
    | some (.ready bootstrapped) =>
      if endpoint ∈ collecting.pending ∧ bootstrapped = root then
        some (collecting.complete endpoint (probeOf (config.labels.getD endpoint "") answer))
      else none
    | _ => none

def probes (collecting : Collecting) : List EndpointProbe := collecting.completed.map Prod.snd

def cutoff (config : BeaconApiConfig) (root : Root) (collecting : Collecting) :
    Option FinalityProbeReport :=
  let report := selectEndpointAgreement root config.minimumAgreement collecting.probes
  if (collecting.pending.isEmpty || collecting.graceElapsed) &&
      (report.accepted || collecting.pending.isEmpty) then some report
  else none

/-- The loop, over what happens in its order. `none` while it waits. -/
def collect (config : BeaconApiConfig) (root : Root) :
    Collecting → List Arrival → Option (Collecting × FinalityProbeReport)
  | collecting, [] => (collecting.cutoff config root).map fun report => (collecting, report)
  | collecting, arrival :: rest =>
    match collecting.cutoff config root with
    | some report => some (collecting, report)
    | none => (collecting.arrive config arrival).bind fun next => collect config root next rest

end Collecting

structure Polled where
  report : FinalityProbeReport
  answers : List (Nat × EndpointProbe)
  published : Option AttestedHead

def startAnchorOf (start : StartAnchor) (completed : List EndpointProbe) :
    Option VerifiedFinalityAnchor :=
  (completed.filterMap EndpointProbe.checkpointAnchor).find? fun anchor =>
    anchor.beaconBlockRoot == start.root

def agreedAfter (newest : Option VerifiedFinalityAnchor) (report : FinalityProbeReport) :
    Option VerifiedFinalityAnchor :=
  match report.selected.filter fun _ => report.accepted with
  | some selected =>
    if isBootstrapAnchor selected && newest.all (·.beaconSlot < selected.beaconSlot) then
      some selected
    else newest
  | none => newest

def publishHead (heads : Option AttestedHeadPublisher) (head : Option AttestedHead) :
    Option AttestedHeadPublisher × Option AttestedHead :=
  match heads, head with
  | some latest, some head =>
    if (latest.publish head).2 then (some (latest.publish head).1, some head)
    else (some (latest.publish head).1, none)
  | heads, _ => (heads, none)

def publishAttestedHead (heads : Option AttestedHeadPublisher) (report : FinalityProbeReport) :
    Option AttestedHeadPublisher × Option AttestedHead :=
  publishHead heads (report.attestedHead.filter fun _ => report.accepted)

namespace Source

def poll (config : BeaconApiConfig) (source : Source) (arrivals : List Arrival) :
    Option (Source × Polled) :=
  match source.pool.start with
  | none =>
    some (source, ⟨selectEndpointAgreement 0 config.minimumAgreement [], [], none⟩)
  | some start =>
    (Collecting.collect config start.root
        (.start (source.pool.bootstrapRoot start) source.pool.endpoints) arrivals).map
      fun (collecting, selected) =>
        let startAnchor := source.pool.startAnchor.or (startAnchorOf start collecting.probes)
        let report := { selected with checkpointAnchor := startAnchor }
        let heads := publishAttestedHead source.attestedHeads report
        ({ source with
            pool := { source.pool with
              endpoints := collecting.verifiers
              startAnchor
              newestAgreed := agreedAfter source.pool.newestAgreed report }
            requested := source.requested ++ source.pool.missingBootstraps start
            lastPollAccepted := report.accepted
            attestedHeads := heads.1 },
          ⟨report, collecting.completed, heads.2⟩)

def persist (source : Source) (report : FinalityProbeReport) (start : StartAnchor)
    (write : WriteEnd) : Source :=
  match report.selected.filter fun _ => report.accepted with
  | some selected =>
    let written := source.anchorWriter.persist source.stored selected start.checkpointRoot write
    { source with anchorWriter := written.1, stored := written.2 }
  | none => source

/-- The pool's start anchor, restarting it from `checkpoint` when it follows another trust root. -/
def follow (config : BeaconApiConfig) (source : Source) (checkpoint : TrustedCheckpoint)
    (now : Option Nat) : Source × StartAnchor :=
  match source.pool.start.filter fun _ => source.pool.follows checkpoint.root with
  | some start => (source, start)
  | none =>
    let start := resolveStartAnchor config.network source.anchorWriter.file source.stored checkpoint
      config.maxCheckpointAge now
    ({ source with pool := .restarted checkpoint start config.labels.length }, start)

def verifiedAny (report : FinalityProbeReport) : Bool :=
  report.endpoints.any fun endpoint => endpoint.anchor.isSome

/-- The second poll of `start_and_poll`, from the configured checkpoint. -/
def pollConfigured (config : BeaconApiConfig) (source : Source) (checkpoint : TrustedCheckpoint)
    (start : StartAnchor) (first : Polled) (arrivals : List Arrival) :
    Option (Source × Polled × StartAnchor) :=
  let checkpoint := source.pool.checkpoint.getD checkpoint
  let configured := StartAnchor.configured checkpoint
  (poll config { source with pool := .restarted checkpoint configured config.labels.length }
      arrivals).map fun (source, fallback) =>
    if fallback.report.accepted || verifiedAny fallback.report then (source, fallback, configured)
    else
      ({ source with pool := .restarted checkpoint start config.labels.length }, first, start)

structure Starting where
  now : Option Nat
  arrivals : List Arrival
  fallback : List Arrival
  write : WriteEnd

/-- Follow `checkpoint` and poll every endpoint once. When no endpoint verifies finality from a
persisted start anchor, try the checkpoint itself. -/
def startAndPoll (config : BeaconApiConfig) (source : Source) (checkpoint : TrustedCheckpoint)
    (starting : Starting) : Option (Source × Polled × StartAnchor) :=
  let followed := source.follow config checkpoint starting.now
  (poll config followed.1 starting.arrivals).bind fun (source, first) =>
    let polled :=
      if !first.report.accepted && followed.2.persisted && !verifiedAny first.report then
        pollConfigured config source checkpoint followed.2 first starting.fallback
      else some (source, first, followed.2)
    polled.map fun (source, polled, start) =>
      (source.persist polled.report start starting.write, polled, start)

def pollCurrent (config : BeaconApiConfig) (source : Source) (arrivals : List Arrival)
    (write : WriteEnd) : Option (Source × Polled) :=
  match source.pool.start with
  | none => some (source, ⟨selectEndpointAgreement 0 config.minimumAgreement [], [], none⟩)
  | some start =>
    (poll config source arrivals).map fun (source, polled) =>
      (source.persist polled.report start write, polled)

def isReady (source : Source) (endpoint : Nat) : Bool :=
  match source.pool.endpoints[endpoint]? with
  | some (.ready _) => true
  | _ => false

def pollAttestedHeads (source : Source) (answers : List (Nat × Except String AttestedHead)) :
    Source × Option AttestedHead :=
  if source.attestedHeads.isNone then (source, none)
  else if !source.lastPollAccepted then (source, none)
  else
    let verified := (answers.filter fun answer => source.isReady answer.1).filterMap
      fun answer => answer.2.toOption
    let heads := publishHead source.attestedHeads (selectAttestedHead verified)
    ({ source with attestedHeads := heads.1 }, heads.2)

end Source

namespace Collecting

def Tidy (collecting : Collecting) : Prop :=
  (collecting.completed.map Prod.fst ++ collecting.pending).Nodup

variable {config : BeaconApiConfig} {collecting next : Collecting} {arrival : Arrival}

theorem tidy_start (root : Root) (verifiers : List EndpointVerifier) :
    (start root verifiers).Tidy := by
  simp [Tidy, start, nodup_range]

theorem tidy_complete {endp : Nat} {probe : EndpointProbe} (h : collecting.Tidy)
    (hpend : endp ∈ collecting.pending) : (collecting.complete endp probe).Tidy := by
  have hperm : (collecting.completed.map Prod.fst ++ endp ::
      collecting.pending.erase endp).Perm
        (collecting.completed.map Prod.fst ++ collecting.pending) :=
    (perm_cons_erase hpend).symm.append_left _
  simpa [Tidy, complete] using hperm.nodup_iff.2 h

theorem arrive_cases (h : collecting.arrive config arrival = some next) :
    (next.completed = collecting.completed ∧ next.pending = collecting.pending) ∨
      ∃ endpoint probe, endpoint ∈ collecting.pending ∧
        next.completed = (collecting.complete endpoint probe).completed ∧
          next.pending = (collecting.complete endpoint probe).pending := by
  unfold arrive at h
  split at h
  · split at h
    · cases h; exact .inl ⟨rfl, rfl⟩
    · cases h
  · split at h
    · split at h
      · cases h; exact .inl ⟨rfl, rfl⟩
      · cases h
    · cases h
  · split at h
    · split at h
      · rename_i hpend; cases h; exact .inr ⟨_, _, hpend, rfl, rfl⟩
      · cases h
    · cases h
  · split at h
    · split at h
      · rename_i hpend; cases h; exact .inr ⟨_, _, hpend.1, rfl, rfl⟩
      · cases h
    · cases h

theorem tidy_arrive (htidy : collecting.Tidy) (h : collecting.arrive config arrival = some next) :
    next.Tidy := by
  rcases arrive_cases h with ⟨hcomp, hpend⟩ | ⟨_, _, hmem, hcomp, hpend⟩
  · rwa [Tidy, hcomp, hpend]
  · rw [Tidy, hcomp, hpend]; exact tidy_complete htidy hmem

variable {root : Root} {report : FinalityProbeReport}

theorem cutoff_eq_some (h : collecting.cutoff config root = some report) :
    report = selectEndpointAgreement root config.minimumAgreement collecting.probes := by
  unfold cutoff at h
  dsimp only at h
  split at h
  · cases h; rfl
  · cases h

theorem collect_eq_some {arrivals : List Arrival}
    (htidy : collecting.Tidy) (h : collecting.collect config root arrivals = some (next, report)) :
    next.Tidy ∧ report = selectEndpointAgreement root config.minimumAgreement next.probes := by
  induction arrivals generalizing collecting with
  | nil =>
    obtain ⟨report', hcutoff, hpair⟩ := map_eq_some_iff.1 h
    cases hpair; exact ⟨htidy, cutoff_eq_some hcutoff⟩
  | cons arrival rest ih =>
    rw [collect] at h
    cases hcutoff : collecting.cutoff config root with
    | some report' =>
      rw [hcutoff] at h; cases h; exact ⟨htidy, cutoff_eq_some hcutoff⟩
    | none =>
      rw [hcutoff] at h
      obtain ⟨_, harrive, hrest⟩ := bind_eq_some_iff.1 h; exact ih (tidy_arrive htidy harrive) hrest

end Collecting

/-- A poll's report is about the answers of its endpoints, each at most once, and it publishes a
head only when its finality was accepted. -/
structure Polled.Sound (config : BeaconApiConfig) (polled : Polled) : Prop where
  accepted : ∀ root : Root, polled.report.accepted = (selectEndpointAgreement root
    config.minimumAgreement (polled.answers.map Prod.snd)).accepted
  selected : ∀ root : Root, polled.report.selected = (selectEndpointAgreement root
    config.minimumAgreement (polled.answers.map Prod.snd)).selected
  once : (polled.answers.map Prod.fst).Nodup
  published : ∀ head, polled.published = some head → polled.report.accepted = true

theorem Polled.Sound.agreed {config : BeaconApiConfig} {polled : Polled}
    (h : polled.Sound config) {anc : VerifiedFinalityAnchor}
    (hacc : polled.report.accepted = true) (hsel : polled.report.selected = some anc) :
    Agreed config.minimumAgreement (polled.answers.map Prod.snd) anc := by
  rw [h.accepted 0] at hacc; rw [h.selected 0] at hsel; exact accepted_selected_iff.1 ⟨hacc, hsel⟩

theorem publishHead_eq_some {heads : Option AttestedHeadPublisher} {head : Option AttestedHead}
    {published : AttestedHead} (h : (publishHead heads head).2 = some published) :
    head = some published := by
  unfold publishHead at h
  split at h
  · split at h
    · cases h; rfl
    · cases h
  · cases h

namespace Source

variable {config : BeaconApiConfig} {source source' : Source} {arrivals : List Arrival}
  {polled : Polled}

theorem sound_empty (config : BeaconApiConfig) : Polled.Sound config
      ⟨selectEndpointAgreement 0 config.minimumAgreement [], [], none⟩ where
  accepted _ := rfl
  selected _ := rfl
  once := nodup_nil
  published _ h := by cases h

theorem poll_sound (h : source.poll config arrivals = some (source', polled)) :
    polled.Sound config := by
  unfold poll at h
  cases hstart : source.pool.start with
  | none =>
    rw [hstart] at h; cases h; exact sound_empty config
  | some start =>
    rw [hstart] at h
    obtain ⟨⟨_, _⟩, hcollect, hpair⟩ := map_eq_some_iff.1 h
    cases hpair
    obtain ⟨htidy, rfl⟩ := Collecting.collect_eq_some (Collecting.tidy_start _ _) hcollect
    refine ⟨fun _ => rfl, fun _ => rfl, (nodup_append.1 htidy).1, ?_⟩
    intro _ hhead
    have hfilter := publishHead_eq_some hhead; exact (filter_eq_some_iff.1 hfilter).2

theorem poll_keeps (h : source.poll config arrivals = some (source', polled)) :
    source'.pool.start = source.pool.start ∧
      (source.pool.start.isSome → source'.lastPollAccepted = polled.report.accepted) := by
  unfold poll at h
  cases hstart : source.pool.start with
  | none =>
    rw [hstart] at h; cases h; exact ⟨hstart, fun h => by cases h⟩
  | some start =>
    rw [hstart] at h
    obtain ⟨⟨_, _⟩, _, hpair⟩ := map_eq_some_iff.1 h; cases hpair; exact ⟨hstart, fun _ => rfl⟩

variable {report : FinalityProbeReport} {start : StartAnchor} {write : WriteEnd}

@[simp] theorem persist_pool : (source.persist report start write).pool = source.pool := by
  unfold persist
  split <;> rfl

@[simp] theorem persist_lastPollAccepted :
    (source.persist report start write).lastPollAccepted = source.lastPollAccepted := by
  unfold persist
  split <;> rfl

theorem pollCurrent_spec (h : source.pollCurrent config arrivals write = some (source', polled)) :
    polled.Sound config ∧ source'.pool.start = source.pool.start ∧
      (source.pool.start.isSome → source'.lastPollAccepted = polled.report.accepted) := by
  unfold pollCurrent at h
  cases hstart : source.pool.start with
  | none =>
    rw [hstart] at h; cases h; exact ⟨sound_empty config, hstart, fun h => by cases h⟩
  | some start =>
    rw [hstart] at h
    obtain ⟨⟨_, _⟩, hpoll, hpair⟩ := map_eq_some_iff.1 h
    cases hpair
    obtain ⟨hkept, hflag⟩ := poll_keeps hpoll
    exact ⟨poll_sound hpoll, by simpa using hkept.trans hstart,
      fun _ => by simpa using hflag (by rw [hstart]; rfl)⟩

theorem startAndPoll_spec {ckpt : TrustedCheckpoint} {starting : Starting}
    (h : source.startAndPoll config ckpt starting = some (source', polled, start)) :
    polled.Sound config ∧ source'.pool.start.isSome ∧
      (polled.report.accepted = true → source'.lastPollAccepted = true) := by
  have hfollow : (source.follow config ckpt starting.now).1.pool.start.isSome := by
    unfold follow
    split
    · rename_i hsome; rw [(filter_eq_some_iff.1 hsome).1]; rfl
    · rfl
  unfold startAndPoll at h
  obtain ⟨⟨_, _⟩, hpoll, hrest⟩ := bind_eq_some_iff.1 h
  obtain ⟨⟨_, _, _⟩, hlast, hpair⟩ := map_eq_some_iff.1 hrest
  cases hpair
  obtain ⟨hkept, hflag⟩ := poll_keeps hpoll
  split at hlast
  · rename_i hfallback
    unfold pollConfigured at hlast
    obtain ⟨⟨_, _⟩, hagain, hpair⟩ := map_eq_some_iff.1 hlast
    obtain ⟨hkept', hflag'⟩ := poll_keeps hagain
    simp only at hpair
    split at hpair
    · cases hpair
      refine ⟨poll_sound hagain, by simp [hkept', VerifierPool.restarted], ?_⟩
      intro hacc; simpa [hacc] using hflag' rfl
    · cases hpair
      refine ⟨poll_sound hpoll, by simp [VerifierPool.restarted], ?_⟩
      intro hacc; simp [hacc] at hfallback
  · cases hlast
    refine ⟨poll_sound hpoll, by simpa [hkept] using hfollow, ?_⟩
    intro hacc; simpa [hacc] using hflag hfollow

end Source

end Leani.Beacon
