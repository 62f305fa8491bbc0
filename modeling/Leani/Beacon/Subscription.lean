import Leani.Beacon.Polling
import Mathlib.Data.List.Induction

/-!
# Finality subscriptions

The stream of finality events of one subscription: monotone in the beacon slot, ended by a
contradiction at the slot it last emitted, and steering the live lane by the heads its polls publish.
-/

namespace Leani.Beacon

open List Option

structure ConsensusCheckpoint where
  beaconSlot : Nat
  beaconBlockRoot : Root
  executionBlockHash : BlockHash

structure FinalityEvent where
  blockNumber : Nat
  blockHash : BlockHash
  beaconSlot : Nat
  beaconBlockRoot : Root
  deriving DecidableEq

inductive SourceError where
  | cancelled
  | protocol (message : String)
  | unavailable (message : String)

def VerifiedFinalityAnchor.event (anchor : VerifiedFinalityAnchor) : FinalityEvent where
  blockNumber := anchor.executionBlockNumber
  blockHash := anchor.executionBlockHash
  beaconSlot := anchor.beaconSlot
  beaconBlockRoot := anchor.beaconBlockRoot

@[simp] theorem VerifiedFinalityAnchor.event_beaconSlot (anc : VerifiedFinalityAnchor) :
    anc.event.beaconSlot = anc.beaconSlot := rfl

def validateCheckpoint (checkpoint : ConsensusCheckpoint) (report : FinalityProbeReport)
    (start : StartAnchor) : Except SourceError Unit :=
  match report.selected with
  | none => .error (.unavailable "no verified finality anchor was accepted")
  | some accepted =>
    match report.checkpointAnchor with
    | none => .error (.protocol "verified bootstrap anchor is absent")
    | some bootstrap =>
      if checkpoint.beaconBlockRoot = bootstrap.beaconBlockRoot ∧
          checkpoint.beaconSlot ≠ bootstrap.beaconSlot then
        .error (.protocol ("checkpoint slot mismatch: configured " ++
          toString checkpoint.beaconSlot ++ ", verified " ++ toString bootstrap.beaconSlot))
      else if checkpoint.beaconBlockRoot = bootstrap.beaconBlockRoot ∧
          checkpoint.executionBlockHash ≠ bootstrap.executionBlockHash then
        .error (.protocol "checkpoint execution hash differs from verified bootstrap proof")
      else if checkpoint.beaconBlockRoot ≠ bootstrap.beaconBlockRoot ∧
          (!start.persisted ∨ bootstrap.beaconSlot < checkpoint.beaconSlot) then
        .error (.protocol "checkpoint beacon root differs from verified bootstrap")
      else if accepted.beaconSlot < checkpoint.beaconSlot then
        .error (.protocol "verified finality regressed behind the checkpoint")
      else .ok ()

/-- A `SubscriptionState`, and whether its consumer waits in the loop's second half. -/
structure Subscription where
  source : Source
  pending : Option VerifiedFinalityAnchor
  lastEmitted : Option VerifiedFinalityAnchor
  terminal : Bool
  waiting : Bool

def unavailableReport (message : String) (report : FinalityProbeReport) : SourceError :=
  .unavailable (message ++ String.intercalate "; " report.disagreements)

def subscribe (config : BeaconApiConfig) (source : Source) (checkpoint : ConsensusCheckpoint)
    (starting : Source.Starting) : Option (Except SourceError (Subscription × Polled)) :=
  if checkpoint.beaconBlockRoot = 0 then
    some (.error (.protocol "weak-subjectivity checkpoint root must not be zero"))
  else
    (source.startAndPoll config
        ⟨checkpoint.beaconBlockRoot, some checkpoint.beaconSlot, .operator⟩ starting).map
      fun (source, initial, start) =>
        match validateCheckpoint checkpoint initial.report start with
        | .error error => .error error
        | .ok () =>
          if !initial.report.accepted then
            .error (unavailableReport "finality quorum not reached: " initial.report)
          else .ok (⟨source, initial.report.selected, none, false, false⟩, initial)

inductive Output where
  | finalized (event : FinalityEvent)
  | failed (error : SourceError)
  | ended
  | published (head : AttestedHead)

inductive Moment where
  | next (cancelled : Bool)
  | headPoll (answers : List (Nat × Except String AttestedHead))
  /-- A finality poll ends, and `cancelled` then tells whether the stream is cancelled. -/
  | finalityPoll (arrivals : List Arrival) (write : WriteEnd) (cancelled : Bool)
  | cancelled

namespace Subscription

def contradiction (slot : Nat) : SourceError :=
  .protocol ("verified finality contradicts the emitted anchor at slot " ++ toString slot)

/-- The first half of the loop of `next_finality_event`. -/
def takePending (subscription : Subscription) (cancelled : Bool) : Subscription × List Output :=
  if cancelled then
    ({ subscription with terminal := true, waiting := false }, [.failed .cancelled])
  else
    match subscription.pending with
    | none => ({ subscription with waiting := true }, [])
    | some anchor =>
      match subscription.lastEmitted with
      | some last =>
        -- An agreement behind the emitted anchor never moves finality back.
        if anchor.beaconSlot < last.beaconSlot then
          ({ subscription with pending := none, waiting := true }, [])
        else if anchor.beaconSlot = last.beaconSlot then
          if anchor ≠ last then
            ({ subscription with pending := none, terminal := true, waiting := false },
              [.failed (contradiction anchor.beaconSlot)])
          else ({ subscription with pending := none, waiting := true }, [])
        else
          ({ subscription with pending := none, lastEmitted := some anchor, waiting := false },
            [.finalized anchor.event])
      | none =>
        ({ subscription with pending := none, lastEmitted := some anchor, waiting := false },
          [.finalized anchor.event])

/-- One moment of the stream, and its finality poll if it has one. `none` for what cannot happen
now. -/
def step (config : BeaconApiConfig) (subscription : Subscription) :
    Moment → Option (Subscription × Option Polled × List Output)
  | .next cancelled =>
    if subscription.waiting then none
    else if subscription.terminal then some (subscription, none, [.ended])
    else
      some ((subscription.takePending cancelled).1, none, (subscription.takePending cancelled).2)
  | .headPoll answers =>
    if !subscription.waiting then none
    else
      let heads := subscription.source.pollAttestedHeads answers
      some ({ subscription with source := heads.1 }, none, heads.2.toList.map .published)
  | .finalityPoll arrivals write cancelled =>
    if !subscription.waiting then none
    else
      (subscription.source.pollCurrent config arrivals write).map fun (source, polled) =>
        let outputs := polled.published.toList.map Output.published
        if !polled.report.accepted then
          ({ subscription with source, waiting := false }, some polled,
            outputs ++ [.failed (unavailableReport "verified finality quorum lost: " polled.report)])
        else
          let taken := takePending { subscription with source, pending := polled.report.selected }
            cancelled
          (taken.1, some polled, outputs ++ taken.2)
  | .cancelled =>
    if !subscription.waiting then none
    else
      some ({ subscription with terminal := true, waiting := false }, none, [.failed .cancelled])

end Subscription

structure Observed where
  subscription : Subscription
  latest : Polled
  outputs : List (Output × Polled)

namespace Observed

def start (subscription : Subscription) (initial : Polled) : Observed where
  subscription
  latest := initial
  outputs := initial.published.toList.map fun head => (.published head, initial)

def step (config : BeaconApiConfig) (observed : Observed) (moment : Moment) : Option Observed :=
  (observed.subscription.step config moment).map fun (subscription, polled, outputs) =>
    let latest := polled.getD observed.latest
    { subscription
      latest
      outputs := observed.outputs ++ outputs.map fun output => (output, latest) }

def run (config : BeaconApiConfig) (observed : Observed) (moments : List Moment) : Option Observed :=
  moments.foldlM (step config) observed

def events (observed : Observed) : List FinalityEvent :=
  observed.outputs.filterMap fun output =>
    match output.1 with
    | .finalized event => some event
    | _ => none

end Observed

/-- What an output owes to the latest poll: an event is what its answers agree on, and a head is
published only while it is accepted. -/
def Output.Sound (config : BeaconApiConfig) (polled : Polled) : Output → Prop
  | .finalized event => polled.Sound config ∧ ∃ anchor : VerifiedFinalityAnchor,
      event = anchor.event ∧ Agreed config.minimumAgreement (polled.answers.map Prod.snd) anchor
  | .published _ => polled.report.accepted = true
  | _ => True

structure Observed.Kept (config : BeaconApiConfig) (observed : Observed) : Prop where
  latest : observed.latest.Sound config
  started : observed.subscription.source.pool.start.isSome
  flag : observed.subscription.source.lastPollAccepted = observed.latest.report.accepted
  pending : ∀ anchor, observed.subscription.pending = some anchor →
    Agreed config.minimumAgreement (observed.latest.answers.map Prod.snd) anchor
  idle : observed.subscription.waiting = true →
    observed.subscription.pending = none ∧ observed.subscription.terminal = false
  increasing : (observed.events.map FinalityEvent.beaconSlot).Pairwise (· < ·)
  last : observed.events.getLast? = observed.subscription.lastEmitted.map VerifiedFinalityAnchor.event
  outputs : ∀ output ∈ observed.outputs, output.1.Sound config output.2

def eventsOf (outputs : List Output) : List FinalityEvent :=
  outputs.filterMap fun
    | .finalized event => some event
    | _ => none

theorem Observed.events_append (sub : Subscription) (latest polled : Polled)
    (old : List (Output × Polled)) (outputs : List Output) :
    Observed.events ⟨sub, latest, old ++ outputs.map fun out => (out, polled)⟩ =
      Observed.events ⟨sub, latest, old⟩ ++ eventsOf outputs := by
  unfold Observed.events eventsOf; rw [filterMap_append, filterMap_map]; rfl

theorem eventsOf_published (head : Option AttestedHead) :
    eventsOf (head.toList.map .published) = [] := by
  cases head <;> rfl

theorem Subscription.takePending_cases (sub : Subscription) (cancel : Bool) :
    (∃ anchor, sub.pending = some anchor ∧
        (∀ last, sub.lastEmitted = some last → last.beaconSlot < anchor.beaconSlot) ∧
        sub.takePending cancel =
          ({ sub with pending := none, lastEmitted := some anchor, waiting := false },
            [.finalized anchor.event])) ∨
      ((sub.takePending cancel).1.lastEmitted = sub.lastEmitted ∧
        (sub.takePending cancel).1.source = sub.source ∧
        eventsOf (sub.takePending cancel).2 = [] ∧
        (∀ head, Output.published head ∉ (sub.takePending cancel).2) ∧
        (∀ anchor, (sub.takePending cancel).1.pending = some anchor → sub.pending = some anchor) ∧
        ((sub.takePending cancel).1.waiting = true → (sub.takePending cancel).1.pending = none ∧
            (sub.takePending cancel).1.terminal = sub.terminal)) := by
  unfold takePending
  cases cancel with
  | true =>
    refine .inr ⟨rfl, rfl, rfl, ?_, fun _ h => h, ?_⟩
    · intro head; simp
    · intro h; cases h
  | false =>
    cases hpend : sub.pending with
    | none => exact .inr ⟨rfl, rfl, rfl, by simp, by simp, by simp⟩
    | some anchor =>
      cases hlast : sub.lastEmitted with
      | none => exact .inl ⟨anchor, rfl, by simp, rfl⟩
      | some last =>
        by_cases hbehind : anchor.beaconSlot < last.beaconSlot
        · refine .inr ?_
          simp [hbehind, eventsOf]
        · by_cases hsame : anchor.beaconSlot = last.beaconSlot
          · by_cases hne : anchor = last
            · subst hne
              refine .inr ?_
              simp [eventsOf]
            · refine .inr ?_
              simp [hsame, hne, eventsOf]
          · refine .inl ⟨anchor, rfl, ?_, by simp [hbehind, hsame]⟩
            intro _ hlast'; cases hlast'; omega

theorem Subscription.takePending_contradiction {sub : Subscription} {cancel : Bool}
    {anc last : VerifiedFinalityAnchor} (hpend : sub.pending = some anc)
    (hlast : sub.lastEmitted = some last) (hslot : anc.beaconSlot = last.beaconSlot)
    (hne : anc ≠ last) :
    (sub.takePending cancel).1.terminal = true ∧ (sub.takePending cancel).1.waiting = false ∧
      ∃ error, (sub.takePending cancel).2 = [.failed error] := by
  unfold takePending
  cases cancel with
  | true => exact ⟨rfl, rfl, _, rfl⟩
  | false => simp [hpend, hlast, hslot, hne]

namespace Observed

variable {config : BeaconApiConfig} {observed next : Observed}

section

variable {subscription : Subscription} {polled : Polled} (h : observed.Kept config)
  (hlatest : polled.Sound config) (hstarted : subscription.source.pool.start.isSome)
  (hflag : subscription.source.lastPollAccepted = polled.report.accepted)

include h hlatest hstarted hflag

private theorem kept_of_no_event {outputs : List Output}
    (hpend : ∀ anchor, subscription.pending = some anchor →
      Agreed config.minimumAgreement (polled.answers.map Prod.snd) anchor)
    (hidle : subscription.waiting = true → subscription.pending = none ∧ subscription.terminal = false)
    (hlast : subscription.lastEmitted = observed.subscription.lastEmitted)
    (hevs : eventsOf outputs = []) (houtputs : ∀ out ∈ outputs, out.Sound config polled) :
    Kept config ⟨subscription, polled,
      observed.outputs ++ outputs.map fun out => (out, polled)⟩ where
  latest := hlatest
  started := hstarted
  flag := hflag
  pending := hpend
  idle := hidle
  increasing := by
    rw [events_append, hevs, append_nil]; exact h.increasing
  last := by
    rw [events_append, hevs, append_nil, hlast]; exact h.last
  outputs out ho := by
    rcases mem_append.1 ho with ho | ho
    · exact h.outputs out ho
    · obtain ⟨out, hmem, rfl⟩ := mem_map.1 ho; exact houtputs out hmem

private theorem kept_of_event {outputs : List Output} {anc : VerifiedFinalityAnchor}
    (hpend : subscription.pending = none) (hwait : subscription.waiting = false)
    (hlast : subscription.lastEmitted = some anc)
    (habove : ∀ last, observed.subscription.lastEmitted = some last →
      last.beaconSlot < anc.beaconSlot) (hevs : eventsOf outputs = [anc.event])
    (houtputs : ∀ out ∈ outputs, out.Sound config polled) : Kept config ⟨subscription, polled,
      observed.outputs ++ outputs.map fun out => (out, polled)⟩ where
  latest := hlatest
  started := hstarted
  flag := hflag
  pending anc ha := by
    rw [hpend] at ha; cases ha
  idle hw := by
    rw [hwait] at hw; cases hw
  increasing := by
    rw [events_append, hevs, map_append, pairwise_append]
    refine ⟨h.increasing, by simp, ?_⟩
    -- Every earlier event is at or below the last one.
    intro _ hslot slot' hslot'
    have hev : slot' = anc.beaconSlot := by simpa using hslot'
    subst hev
    obtain ⟨event, hev, rfl⟩ := mem_map.1 hslot
    cases hlast' : observed.subscription.lastEmitted with
    | none =>
      have hnone := h.last
      rw [hlast', map_none, getLast?_eq_none_iff] at hnone
      change event ∈ observed.events at hev; rw [hnone] at hev; cases hev
    | some last =>
      have hsome := h.last
      rw [hlast', map_some] at hsome
      obtain ⟨_, hbef⟩ := getLast?_eq_some_iff.1 hsome
      change event ∈ observed.events at hev
      have hincreasing := h.increasing
      rw [hbef, map_append, pairwise_append] at hincreasing
      rw [hbef, mem_append] at hev
      rcases hev with hev | hev
      · exact Nat.lt_trans (hincreasing.2.2 _ (mem_map_of_mem hev) last.beaconSlot
          (by simp)) (habove last hlast')
      · have heq : event = last.event := by simpa using hev
        subst heq; exact habove last hlast'
  last := by
    rw [events_append, hevs, hlast]; simp
  outputs out ho := by
    rcases mem_append.1 ho with ho | ho
    · exact h.outputs out ho
    · obtain ⟨out, hmem, rfl⟩ := mem_map.1 ho; exact houtputs out hmem

private theorem kept_takePending {cancel : Bool} {bef : List Output}
    (hpend : ∀ anc, subscription.pending = some anc →
      Agreed config.minimumAgreement (polled.answers.map Prod.snd) anc)
    (hterm : subscription.terminal = false)
    (hlast : subscription.lastEmitted = observed.subscription.lastEmitted)
    (hbef : eventsOf bef = []) (hsound : ∀ out ∈ bef, out.Sound config polled) :
    Kept config ⟨(subscription.takePending cancel).1, polled, observed.outputs ++
      (bef ++ (subscription.takePending cancel).2).map fun out => (out, polled)⟩ := by
  have happend : ∀ outputs, eventsOf (bef ++ outputs) = eventsOf outputs := by
    intro outputs
    change filterMap _ _ = _
    rw [filterMap_append]
    change eventsOf bef ++ eventsOf outputs = _; rw [hbef, nil_append]
  rcases subscription.takePending_cases cancel with
    ⟨anc, hanch, habove, htake⟩ | ⟨hlast', hsrc, hevs, hheads, hkept, hidle⟩
  · rw [htake]
    refine @kept_of_event _ _ _ _ h hlatest (by exact hstarted) (by exact hflag) _ anc rfl rfl rfl
      ?_ ?_ ?_
    · rw [← hlast]; exact habove
    · rw [happend]; rfl
    · intro out ho
      rcases mem_append.1 ho with ho | ho
      · exact hsound out ho
      · cases mem_singleton.1 ho; exact ⟨hlatest, anc, rfl, hpend anc hanch⟩
  · refine kept_of_no_event h hlatest (by rwa [hsrc]) (by rwa [hsrc]) ?_ ?_
      (hlast'.trans hlast) ((happend _).trans hevs) ?_
    · intro anc ha; exact hpend anc (hkept anc ha)
    · intro hw; exact ⟨(hidle hw).1, (hidle hw).2.trans hterm⟩
    · intro out ho
      rcases mem_append.1 ho with ho | ho
      · exact hsound out ho
      · cases out with
        | finalized event =>
          have hmem : event ∈ eventsOf (subscription.takePending cancel).2 :=
            mem_filterMap.2 ⟨_, ho, rfl⟩
          rw [hevs] at hmem; cases hmem
        | published head => exact absurd ho (hheads head)
        | failed error => trivial
        | ended => trivial

end

private theorem sound_published {polled : Polled} (h : polled.Sound config) :
    ∀ out ∈ polled.published.toList.map Output.published, out.Sound config polled := by
  intro out ho
  obtain ⟨head, hhead, rfl⟩ := mem_map.1 ho; exact h.published head (by simpa using hhead)

theorem pollAttestedHeads_spec {src : Source} {ans : List (Nat × Except String AttestedHead)} :
    (src.pollAttestedHeads ans).1.pool = src.pool ∧
      (src.pollAttestedHeads ans).1.lastPollAccepted = src.lastPollAccepted ∧
      ∀ head, (src.pollAttestedHeads ans).2 = some head → src.lastPollAccepted = true := by
  unfold Source.pollAttestedHeads
  split
  · exact ⟨rfl, rfl, by simp⟩
  · split
    · exact ⟨rfl, rfl, by simp⟩
    · rename_i hacc; exact ⟨rfl, rfl, fun _ _ => by simpa using hacc⟩

theorem kept_step {moment : Moment} (h : observed.Kept config)
    (hstep : observed.step config moment = some next) : next.Kept config := by
  obtain ⟨⟨sub, _, _⟩, hs, hpair⟩ := map_eq_some_iff.1 hstep
  cases hpair
  cases moment with
  | next cancelled =>
    rw [Subscription.step] at hs
    split at hs
    · cases hs
    · split at hs
      · cases hs
        refine kept_of_no_event h h.latest h.started h.flag h.pending h.idle rfl rfl ?_
        intro output ho; cases mem_singleton.1 ho; trivial
      · rename_i hterm
        cases hs
        exact @kept_takePending _ observed observed.subscription observed.latest h h.latest h.started
          h.flag cancelled [] h.pending (by simpa using hterm) rfl rfl (by simp)
  | headPoll answers =>
    rw [Subscription.step] at hs
    split at hs
    · cases hs
    · cases hs
      obtain ⟨hpool, hflag, hheads⟩ := @pollAttestedHeads_spec observed.subscription.source answers
      refine kept_of_no_event h h.latest ?_ (hflag.trans h.flag) h.pending h.idle rfl
        (eventsOf_published _) ?_
      · rw [hpool]; exact h.started
      · intro output ho
        obtain ⟨head, hhead, rfl⟩ := mem_map.1 ho
        exact h.flag.symm.trans (hheads head (by simpa using hhead))
  | finalityPoll arrivals write cancelled =>
    rw [Subscription.step] at hs
    split at hs
    · cases hs
    · rename_i hwait
      have hwait : observed.subscription.waiting = true := by simpa using hwait
      obtain ⟨⟨source, result⟩, hpoll, hpair⟩ := map_eq_some_iff.1 hs
      obtain ⟨hsound, hstart, hflag⟩ := Source.pollCurrent_spec hpoll
      have hstarted : source.pool.start.isSome := by
        rw [hstart]; exact h.started
      dsimp only at hpair
      split at hpair
      · cases hpair
        refine kept_of_no_event h hsound hstarted (hflag h.started) ?_ ?_ rfl ?_ ?_
        · intro anchor ha
          have hnone := (h.idle hwait).1; rw [hnone] at ha; cases ha
        · intro hw; cases hw
        · change filterMap _ (_ ++ _) = _
          rw [filterMap_append]; exact congrArg (· ++ []) (eventsOf_published _)
        · intro output ho
          rcases mem_append.1 ho with ho | ho
          · exact sound_published hsound output ho
          · cases mem_singleton.1 ho; trivial
      · rename_i hacc
        have hacc : result.report.accepted = true := by simpa using hacc
        cases hpair
        refine @kept_takePending _ observed
          { observed.subscription with source, pending := result.report.selected } result h hsound
          hstarted (hflag h.started) cancelled _ ?_ (h.idle hwait).2 rfl (eventsOf_published _)
          (sound_published hsound)
        intro anchor ha; exact hsound.agreed hacc ha
  | cancelled =>
    rw [Subscription.step] at hs
    split at hs
    · cases hs
    · cases hs
      refine kept_of_no_event h h.latest (by exact h.started) (by exact h.flag) h.pending
        (fun hw => by cases hw) rfl rfl ?_
      intro output ho; cases mem_singleton.1 ho; trivial

variable {moments : List Moment}

theorem kept_run (h : observed.Kept config)
    (hrun : observed.run config moments = some next) : next.Kept config := by
  induction moments generalizing observed with
  | nil =>
    cases hrun; exact h
  | cons moment rest ih =>
    rw [run, foldlM_cons] at hrun
    obtain ⟨_, hstep, hrest⟩ := bind_eq_some_iff.1 hrun; exact ih (kept_step h hstep) hrest

theorem ended_run (hterm : observed.subscription.terminal = true)
    (hwait : observed.subscription.waiting = false)
    (hended : ∀ out ∈ observed.outputs, out.1 = .ended) (hrun : observed.run config moments =
    some next) : ∀ out ∈ next.outputs, out.1 = .ended := by
  induction moments generalizing observed with
  | nil =>
    cases hrun; exact hended
  | cons moment rest ih =>
    rw [run, foldlM_cons] at hrun
    obtain ⟨_, hstep, hrest⟩ := bind_eq_some_iff.1 hrun
    obtain ⟨⟨sub, _, outputs⟩, hs, hpair⟩ := map_eq_some_iff.1 hstep
    cases hpair
    cases moment with
    | next cancelled =>
      simp only [Subscription.step, hwait, hterm] at hs
      cases hs
      refine @ih ⟨observed.subscription, observed.latest,
        observed.outputs ++ [(Output.ended, observed.latest)]⟩ hterm hwait ?_ hrest
      intro out ho
      rcases mem_append.1 ho with ho | ho
      · exact hended out ho
      · rw [mem_singleton.1 ho]
    | headPoll answers => simp [Subscription.step, hwait] at hs
    | finalityPoll arrivals write cancelled => simp [Subscription.step, hwait] at hs
    | cancelled => simp [Subscription.step, hwait] at hs

end Observed

variable {source : Source} {checkpoint : ConsensusCheckpoint} {starting : Source.Starting}
  {initial : Polled}

theorem kept_subscribe {config : BeaconApiConfig} {sub : Subscription}
    (h : subscribe config source checkpoint starting = some (.ok (sub, initial))) :
    (Observed.start sub initial).Kept config := by
  unfold subscribe at h
  split at h
  · cases h
  · obtain ⟨⟨source', initial', start⟩, hstart, hpair⟩ := map_eq_some_iff.1 h
    obtain ⟨hsound, hstarted, hflag⟩ := Source.startAndPoll_spec hstart
    dsimp only at hpair
    split at hpair
    · cases hpair
    · split at hpair
      · cases hpair
      · rename_i hacc
        have hacc : initial'.report.accepted = true := by simpa using hacc
        cases hpair
        have hevs : Observed.events (Observed.start
            ⟨source', initial.report.selected, none, false, false⟩ initial) = [] := by
          unfold Observed.events Observed.start
          cases initial.published <;> rfl
        refine ⟨hsound, hstarted, (hflag hacc).trans hacc.symm, ?_, ?_, ?_, ?_, ?_⟩
        · intro _ ha; exact hsound.agreed hacc ha
        · intro hw; cases hw
        · rw [hevs]; exact List.Pairwise.nil
        · rw [hevs]; rfl
        · intro _ ho
          obtain ⟨head, hhead, rfl⟩ := mem_map.1 ho
          exact hsound.published head (by simpa using hhead)

/-- In every run of a subscription, the slots of the emitted events strictly increase, every event
is what the answers of its poll agree on in whatever order they came, a contradiction at the last
emitted slot ends the stream, and heads are published only while the latest poll was accepted. -/
theorem finality_never_goes_back {config : BeaconApiConfig} {subscription : Subscription}
 {moments : List Moment} {observed : Observed}
    (hsubscribe : subscribe config source checkpoint starting = some (.ok (subscription, initial)))
    (hrun : (Observed.start subscription initial).run config moments = some observed) :
    (observed.events.map FinalityEvent.beaconSlot).Pairwise (· < ·) ∧
      (∀ event polled, (Output.finalized event, polled) ∈ observed.outputs →
        (polled.answers.map Prod.fst).Nodup ∧ ∃ anchor : VerifiedFinalityAnchor,
          event = anchor.event ∧
          Agreed config.minimumAgreement (polled.answers.map Prod.snd) anchor ∧
          ∀ (root : Root) (endpoints : List EndpointProbe),
            endpoints.Perm (polled.answers.map Prod.snd) →
              (selectEndpointAgreement root config.minimumAgreement endpoints).accepted = true ∧
              (selectEndpointAgreement root config.minimumAgreement endpoints).selected =
                some anchor) ∧
      (∀ arrivals write cancelled next polled outputs anchor last,
        observed.subscription.step config (.finalityPoll arrivals write cancelled) =
            some (next, some polled, outputs) →
          polled.report.accepted = true → polled.report.selected = some anchor →
          observed.events.getLast? = some last → anchor.beaconSlot = last.beaconSlot →
          anchor.event ≠ last →
            (∃ error, .failed error ∈ outputs) ∧ eventsOf outputs = [] ∧
              ∀ later observed', (Observed.mk next polled []).run config later = some observed' →
                ∀ output ∈ observed'.outputs, output.1 = .ended) ∧
      (∀ head polled, (Output.published head, polled) ∈ observed.outputs →
        polled.report.accepted = true) := by
  have h := Observed.kept_run (kept_subscribe hsubscribe) hrun
  refine ⟨h.increasing, ?_, ?_, fun head polled ho => h.outputs _ ho⟩
  · intro event polled ho
    obtain ⟨hsound, anchor, hevent, hagreed⟩ := h.outputs _ ho
    refine ⟨hsound.once, anchor, hevent, hagreed, ?_⟩
    intro root endpoints hperm; exact accepted_selected_iff.2 (agreed_of_perm hperm.symm hagreed)
  · intro arrivals write cancelled next polled outputs anchor last hstep haccepted hselected hlast
      hslot hne
    rw [Subscription.step] at hstep
    split at hstep
    · cases hstep
    · obtain ⟨⟨source, _⟩, _, hpair⟩ := map_eq_some_iff.1 hstep
      dsimp only at hpair
      split at hpair
      · rename_i hrefused
        cases hpair; rw [haccepted] at hrefused; cases hrefused
      · cases hpair
        rw [h.last] at hlast
        obtain ⟨emitted, hemitted, rfl⟩ := map_eq_some_iff.1 hlast
        obtain ⟨hterminal, hwaiting, error, houtputs⟩ := @Subscription.takePending_contradiction
          { observed.subscription with source, pending := polled.report.selected } cancelled anchor
          emitted hselected hemitted hslot (fun heq => hne (heq ▸ rfl))
        refine ⟨⟨error, ?_⟩, ?_, ?_⟩
        · rw [houtputs]; simp
        · rw [houtputs]
          change filterMap _ (_ ++ _) = _
          rw [filterMap_append]; exact congrArg (· ++ []) (eventsOf_published _)
        · intro later observed' hrun'; exact Observed.ended_run hterminal hwaiting (by simp) hrun'

def soleConfig : BeaconApiConfig := ⟨["beacon"], 1, ⟨0, 12⟩, 1209600⟩

def soleCheckpoint : ConsensusCheckpoint := ⟨32, 7, 1⟩

def soleSource : Source := ⟨.empty, ⟨.disabled, none, 0⟩, .missing, some none, false, []⟩

/-- The endpoint bootstraps the checkpoint at slot 32 and verifies finality at `slot`. -/
def soleAnswer (slot : Nat) : Arrival :=
  .answered 0 7 (.ok ⟨⟨slot, 8, 2, 2⟩, ⟨32, 7, 1, 1⟩, .ok ⟨slot + 2, 9, 3, 3⟩, 1⟩)

def soleStart : Option (Subscription × Polled) :=
  match subscribe soleConfig soleSource soleCheckpoint
      ⟨some 400, [.bootstrapped 0, soleAnswer 64], [], .written⟩ with
  | some (.ok started) => some started
  | _ => none

def soleRun : Option Observed :=
  soleStart.bind fun started => (Observed.start started.1 started.2).run soleConfig
    [.next false, .next false, .finalityPoll [soleAnswer 96] .written false]

theorem finality_never_goes_back_sole :
    ∃ (subscription : Subscription) (initial : Polled) (observed : Observed),
    subscribe soleConfig soleSource soleCheckpoint
        ⟨some 400, [.bootstrapped 0, soleAnswer 64], [], .written⟩ =
      some (.ok (subscription, initial)) ∧
    observed.events.map FinalityEvent.beaconSlot = [64, 96] ∧
    (observed.events.map FinalityEvent.beaconSlot).Pairwise (· < ·) := by
  have hevents : (soleRun.map fun observed =>
      observed.events.map FinalityEvent.beaconSlot) = some [64, 96] := by decide +kernel
  obtain ⟨observed, hrun, hslots⟩ := map_eq_some_iff.1 hevents
  obtain ⟨⟨subscription, initial⟩, hstart, hmoments⟩ := bind_eq_some_iff.1 hrun
  have hsubscribe : subscribe soleConfig soleSource soleCheckpoint
      ⟨some 400, [.bootstrapped 0, soleAnswer 64], [], .written⟩ =
        some (.ok (subscription, initial)) := by
    unfold soleStart at hstart
    split at hstart
    · rename_i started heq; cases hstart; exact heq
    · cases hstart
  exact ⟨subscription, initial, observed, hsubscribe, hslots,
    (finality_never_goes_back hsubscribe hmoments).1⟩

end Leani.Beacon
