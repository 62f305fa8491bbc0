import Mathlib.Data.List.Basic

/-!
# Running a history subscription to its end

The run of a subscription awaits one answer at a time, of the node, the connection or the application, and
any answer may come. A session is closed however it ends, which cannot fail, and the arguments were
checked. The completion of a history is no batch: it has no changes, and is acknowledged as it is
received.
-/

namespace Leani.Subscribe.RunBackfill

open List

inductive BackfillState where
  | waitingForConsumer | queued | running | backpressured | storageBackpressured | draining
  | completeReclaimable | completed | failed | cancelled
  deriving DecidableEq

inductive BackfillFailurePolicy where
  | retry | discard | throw
  deriving DecidableEq

structure RunBackfillOptions where
  onFailure : Option BackfillFailurePolicy
  maxRetries : Nat

/-- What is thrown: a `LeaniError`, a `BackfillStreamError`, or anything else, as an abort's reason. -/
inductive Failure where
  | leani (code : String) (retryable : Bool)
  | stream (code : String)
  | other

def transportError : Failure := .leani "transport" true

def isRetryableDeliveryDisconnect : Failure → Bool
  | .leani code retryable =>
    retryable || code = "consumer_session_active" || code = "consumer_session_lost"
  | _ => false

def isTransientStreamFailure (failure : Failure) : Bool :=
  isRetryableDeliveryDisconnect failure ||
    match failure with
    | .stream code => code = "consumer_session_active" || code = "consumer_session_lost"
    | _ => false

def endedOnStream : Failure → Bool
  | .stream code => code = "backfill_failed" || code = "backfill_cancelled"
  | _ => false

inductive Outcome where
  | completed | cancelled | failed

inductive Ending where
  | returned (outcome : Outcome)
  | threw (failure : Failure)
  | threwApplication

inductive Awaiting where
  | create | retry | inspect | stream | next
  | onBatch (cursor : String)
  | acknowledge (cursor : String) (completes : Bool)
  | reconnectDelay | lastInspect
  | delete (outcome : Outcome)
  | ended (ending : Ending)

inductive Answer where
  | status (state : BackfillState)
  | opened
  | batch (cursor : String)
  | completion (cursor : String)
  | exhausted (aborted : Option Failure)
  | resolved | threw | acknowledged | elapsed | deleted
  | failed (failure : Failure)

inductive Entry where
  | read (state : BackfillState)
  | retry | stream
  | onBatch (cursor : String)
  | applied (cursor : String)
  | applicationFailed
  | completion (cursor : String)
  | acknowledge (cursor : String) (completes : Bool)
  | completionAcknowledged
  | delete (discardUnacknowledged : Bool)
  deriving DecidableEq

structure Run where
  awaiting : Awaiting
  subscription : BackfillState
  completion : Option String
  retries : Nat
  delayMs : Nat
  stale : Bool
  log : List Entry

def start : Run := ⟨.create, .queued, none, 0, 1000, false, []⟩

section Step

variable (options : RunBackfillOptions) (run : Run)

def Run.reads (state : BackfillState) : Run :=
  { run with subscription := state, log := run.log ++ [.read state] }

def finish (outcome : Outcome) (discardUnacknowledged : Bool) : Run :=
  { run with awaiting := .delete outcome, log := run.log ++ [.delete discardUnacknowledged] }

def loop : Run :=
  match run.subscription with
  | .completeReclaimable | .completed => finish run .completed false
  | .cancelled => finish run .cancelled true
  | .failed =>
    if options.onFailure = some .discard then finish run .failed true
    else if options.onFailure = some .throw ∨ options.maxRetries ≤ run.retries then
      { run with awaiting := .ended (.threw (.stream "backfill_failed")) }
    else { run with awaiting := .retry, retries := run.retries + 1, log := run.log ++ [.retry] }
  | _ =>
    if run.stale then { run with awaiting := .inspect }
    else { run with awaiting := .stream, log := run.log ++ [.stream] }

def recover (failure : Failure) : Run :=
  if endedOnStream failure then loop options { run with stale := true }
  else if isTransientStreamFailure failure then { run with awaiting := .reconnectDelay }
  else { run with awaiting := .ended (.threw failure) }

def step (answer : Answer) : Run :=
  match run.awaiting, answer with
  | .create, .status state | .retry, .status state => loop options (run.reads state)
  | .inspect, .status state => loop options { run.reads state with stale := false }
  | .lastInspect, .status state => finish (run.reads state) .completed false
  | .stream, .opened => { run with awaiting := .next, delayMs := 1000 }
  | .next, .batch cursor =>
    { run with awaiting := .onBatch cursor, log := run.log ++ [.onBatch cursor] }
  | .next, .completion cursor =>
    { run with
      awaiting := .acknowledge cursor true
      completion := some cursor
      log := run.log ++ [.completion cursor] ++ [.acknowledge cursor true] }
  | .next, .exhausted aborted => recover options run (aborted.getD transportError)
  | .onBatch cursor, .resolved =>
    { run with
      awaiting := .acknowledge cursor false
      log := run.log ++ [.applied cursor] ++ [.acknowledge cursor false] }
  | .onBatch _, .threw =>
    { run with awaiting := .ended .threwApplication, log := run.log ++ [.applicationFailed] }
  | .acknowledge _ false, .acknowledged => { run with awaiting := .next }
  | .acknowledge _ true, .acknowledged =>
    { run with awaiting := .lastInspect, log := run.log ++ [.completionAcknowledged] }
  | .reconnectDelay, .elapsed =>
    loop options { run with delayMs := min (run.delayMs * 2) 30000, stale := true }
  | .delete outcome, .deleted => { run with awaiting := .ended (.returned outcome) }
  | .inspect, .failed failure | .stream, .failed failure | .next, .failed failure
  | .acknowledge _ _, .failed failure => recover options run failure
  | .create, .failed failure | .retry, .failed failure | .reconnectDelay, .failed failure
  | .lastInspect, .failed failure | .delete _, .failed failure =>
    { run with awaiting := .ended (.threw failure) }
  | _, _ => run

end Step

def lastRead (log : List Entry) : Option BackfillState :=
  log.reverse.findSome? fun
    | .read state => some state
    | _ => none

def BackfillState.terminal (state : BackfillState) : Prop :=
  state = .completeReclaimable ∨ state = .completed ∨ state = .failed ∨ state = .cancelled

def Permits (options : RunBackfillOptions) (earlier : List Entry) : Entry → Prop
  | .applied cursor => earlier.getLast? = some (.onBatch cursor)
  | .acknowledge cursor false =>
    earlier.getLast? = some (.applied cursor) ∧ .applicationFailed ∉ earlier
  | .acknowledge cursor true =>
    earlier.getLast? = some (.completion cursor) ∧ .applicationFailed ∉ earlier
  | .completionAcknowledged => ∃ cursor, earlier.getLast? = some (.acknowledge cursor true)
  | .delete false => .applicationFailed ∉ earlier ∧ (.completionAcknowledged ∈ earlier ∨
    lastRead earlier = some .completeReclaimable ∨ lastRead earlier = some .completed)
  | .delete true => .applicationFailed ∉ earlier ∧ (lastRead earlier = some .cancelled ∨
      lastRead earlier = some .failed ∧ options.onFailure = some .discard)
  | .retry => lastRead earlier = some .failed ∧ earlier.count .retry < options.maxRetries
  | .stream => ∃ state, lastRead earlier = some state ∧ ¬ state.terminal
  | _ => True

def Legal (options : RunBackfillOptions) (log : List Entry) : Prop :=
  ∀ earlier entry later, log = earlier ++ entry :: later → Permits options earlier entry

variable {options : RunBackfillOptions} {run : Run}

variable {log : List Entry} {entry : Entry}

theorem Legal.push (h : Legal options log)
    (hentry : Permits options log entry) : Legal options (log ++ [entry]) := by
  intro prior entry' later heq
  rcases eq_nil_or_concat later with rfl | ⟨later', last, rfl⟩
  · obtain ⟨rfl, hlast⟩ := append_inj' heq rfl; cases hlast; exact hentry
  · have hsplit : log ++ [entry] = (prior ++ entry' :: later') ++ [last] := by
      rw [heq]; simp
    exact h prior entry' later' (append_inj' hsplit rfl).1

theorem lastRead_read (log : List Entry) (state : BackfillState) :
    lastRead (log ++ [.read state]) = some state := by
  simp [lastRead]

def Pending (log : List Entry) : Awaiting → Prop
  | .onBatch cursor => log.getLast? = some (.onBatch cursor)
  | .acknowledge cursor completes => log.getLast? = some (.acknowledge cursor completes)
  | .lastInspect => .completionAcknowledged ∈ log
  | _ => True

structure Sound (options : RunBackfillOptions) (run : Run) : Prop where
  legal : Legal options run.log
  retries : run.log.count .retry = run.retries
  bounded : run.retries ≤ options.maxRetries
  read : (∃ ending, run.awaiting = .ended ending) ∨ run.awaiting = .create ∨
    lastRead run.log = some run.subscription
  failed : .applicationFailed ∈ run.log → ∃ ending, run.awaiting = .ended ending
  pending : Pending run.log run.awaiting

theorem lastRead_push {state : BackfillState} (h : ∀ state, entry ≠ .read state)
    (hread : lastRead log = some state) : lastRead (log ++ [entry]) = some state := by
  rw [← hread]
  cases entry with
  | read state => exact absurd rfl (h state)
  | _ => simp [lastRead]

structure Sound.Base (options : RunBackfillOptions) (run : Run) : Prop where
  legal : Legal options run.log
  retries : run.log.count .retry = run.retries
  bounded : run.retries ≤ options.maxRetries
  unfailed : .applicationFailed ∉ run.log

theorem Sound.base (h : Sound options run) (hopen : ∀ ending, run.awaiting ≠ .ended ending) :
    Sound.Base options run :=
  ⟨h.legal, h.retries, h.bounded, fun hmem => by
    obtain ⟨ending, hended⟩ := h.failed hmem; exact hopen ending hended⟩

theorem Sound.lastRead_eq (h : Sound options run) (hopen : ∀ ending, run.awaiting ≠ .ended ending)
    (hcreated : run.awaiting ≠ .create) : lastRead run.log = some run.subscription := by
  rcases h.read with ⟨ending, hended⟩ | hcreate | hread
  · exact absurd hended (hopen ending)
  · exact absurd hcreate hcreated
  · exact hread

theorem Sound.end (h : Sound options run) (ending : Ending) :
    Sound options { run with awaiting := .ended ending } :=
  ⟨h.legal, h.retries, h.bounded, .inl ⟨ending, rfl⟩, fun _ => ⟨ending, rfl⟩, trivial⟩

/-- Awaiting something else, of which nothing has to be known. -/
theorem Sound.Base.await (h : Sound.Base options run) (hread : lastRead run.log = some run.subscription)
    {awaiting : Awaiting} (hpend : Pending run.log awaiting) :
    Sound options { run with awaiting } :=
  ⟨h.legal, h.retries, h.bounded, .inr (.inr hread), fun hmem => absurd hmem h.unfailed, hpend⟩

theorem Sound.Base.push (h : Sound.Base options run) (entry : Entry)
    (hentry : Permits options run.log entry) (hretry : entry ≠ .retry)
    (hfailed : entry ≠ .applicationFailed) :
    Sound.Base options { run with log := run.log ++ [entry] } := by
  refine ⟨h.legal.push hentry, ?_, h.bounded, fun hmem => ?_⟩
  · rw [count_append, count_singleton, if_neg (by simpa using hretry), Nat.add_zero]
    exact h.retries
  · rcases mem_append.1 hmem with hmem | hmem
    · exact h.unfailed hmem
    · exact hfailed (mem_singleton.1 hmem).symm

theorem Sound.Base.reads (h : Sound.Base options run) (state : BackfillState) :
    Sound.Base options (run.reads state) ∧
      lastRead (run.reads state).log = some (run.reads state).subscription :=
  have hpush := h.push (.read state) trivial nofun nofun
  ⟨⟨hpush.legal, hpush.retries, hpush.bounded, hpush.unfailed⟩, lastRead_read _ _⟩

theorem Sound.Base.finish (h : Sound.Base options run)
    (hread : lastRead run.log = some run.subscription) (outcome : Outcome) {discard : Bool}
    (hdelete : Permits options run.log (.delete discard)) :
    Sound options (finish run outcome discard) :=
  (h.push _ hdelete nofun nofun).await (lastRead_push nofun hread) trivial

theorem Sound.Base.loop (h : Sound.Base options run)
    (hread : lastRead run.log = some run.subscription) : Sound options (loop options run) := by
  obtain ⟨_, subscription, completion, retries, delayMs, stale, log⟩ := run
  have hstrm : ¬ subscription.terminal → Sound options
      (if stale then ⟨.inspect, subscription, completion, retries, delayMs, stale, log⟩
        else ⟨.stream, subscription, completion, retries, delayMs, stale, log ++ [.stream]⟩) := by
    intro hlive
    split
    · exact h.await hread trivial
    · exact (h.push .stream ⟨_, hread, hlive⟩ nofun nofun).await (lastRead_push nofun hread) trivial
  cases subscription with
  | completeReclaimable => exact h.finish hread .completed ⟨h.unfailed, .inr (.inl hread)⟩
  | completed => exact h.finish hread .completed ⟨h.unfailed, .inr (.inr hread)⟩
  | cancelled => exact h.finish hread .cancelled ⟨h.unfailed, .inl hread⟩
  | failed =>
    unfold RunBackfill.loop
    dsimp only
    split
    · exact h.finish hread .failed ⟨h.unfailed, .inr ⟨hread, ‹_›⟩⟩
    · split
      · exact ⟨h.legal, h.retries, h.bounded, .inl ⟨_, rfl⟩, fun _ => ⟨_, rfl⟩, trivial⟩
      · rename_i hretry
        have hroom := Nat.lt_of_not_le fun hle => hretry (.inr hle)
        have hcount := h.retries
        refine ⟨h.legal.push ⟨hread, hcount.symm ▸ hroom⟩, ?_, hroom,
          .inr (.inr (lastRead_push nofun hread)), fun hmem => ?_, trivial⟩
        · rw [count_append, count_singleton_self, hcount]
        · rcases mem_append.1 hmem with hmem | hmem
          · exact absurd hmem h.unfailed
          · cases mem_singleton.1 hmem
  | _ => exact hstrm (by simp [BackfillState.terminal])

theorem Sound.Base.recover (h : Sound.Base options run) (hread : lastRead run.log =
    some run.subscription) (fault : Failure) : Sound options (recover options run fault) := by
  unfold RunBackfill.recover
  split
  · exact Sound.Base.loop ⟨h.legal, h.retries, h.bounded, h.unfailed⟩ hread
  · split
    · exact h.await hread trivial
    · exact h.await hread trivial

theorem Sound.step (h : Sound options run) (answer : Answer) : Sound options (step options run answer) := by
  have hopen : ∀ {awaiting : Awaiting}, run.awaiting = awaiting →
      (∀ ending, awaiting ≠ .ended ending) → Sound.Base options run := fun heq hne =>
    h.base fun ending => heq ▸ hne ending
  have hread : ∀ {awaiting : Awaiting}, run.awaiting = awaiting →
      (∀ ending, awaiting ≠ .ended ending) → awaiting ≠ .create →
        lastRead run.log = some run.subscription := fun heq hne hcreate =>
    h.lastRead_eq (fun ending => heq ▸ hne ending) (heq ▸ hcreate)
  have hpend := h.pending
  unfold RunBackfill.step
  split
  -- Answers to requests: a status decides what follows.
  · rename_i hawait
    obtain ⟨hbase, hnow⟩ := (hopen hawait nofun).reads _; exact hbase.loop hnow
  · rename_i hawait
    obtain ⟨hbase, hnow⟩ := (hopen hawait nofun).reads _; exact hbase.loop hnow
  · rename_i hawait
    obtain ⟨hbase, hnow⟩ := (hopen hawait nofun).reads _
    exact Sound.Base.loop ⟨hbase.legal, hbase.retries, hbase.bounded, hbase.unfailed⟩ hnow
  · rename_i hawait
    obtain ⟨hbase, hnow⟩ := (hopen hawait nofun).reads _
    rw [hawait] at hpend
    exact hbase.finish hnow .completed ⟨hbase.unfailed, .inl (mem_append_left _ hpend)⟩
  -- The session: a batch is given to the application and then acknowledged.
  · rename_i hawait
    have hbase : Sound.Base options { run with delayMs := 1000 } :=
      ⟨h.legal, h.retries, h.bounded, (hopen hawait nofun).unfailed⟩
    exact hbase.await (hread hawait nofun nofun) trivial
  · rename_i hawait
    exact ((hopen hawait nofun).push (.onBatch _) trivial nofun nofun).await
      (lastRead_push nofun (hread hawait nofun nofun)) getLast?_concat
  · rename_i cursor hawait
    have hreceived := (hopen hawait nofun).push (.completion cursor) trivial nofun nofun
    have hpush := hreceived.push (.acknowledge cursor true)
      ⟨getLast?_concat, hreceived.unfailed⟩ nofun nofun
    have hbase : Sound.Base options { run with
        completion := some cursor
        log := run.log ++ [.completion cursor] ++ [.acknowledge cursor true] } :=
      ⟨hpush.legal, hpush.retries, hpush.bounded, hpush.unfailed⟩
    exact hbase.await (lastRead_push nofun (lastRead_push nofun (hread hawait nofun nofun)))
      getLast?_concat
  · rename_i hawait; exact (hopen hawait nofun).recover (hread hawait nofun nofun) _
  · rename_i cursor hawait
    rw [hawait] at hpend
    have happ := (hopen hawait nofun).push (.applied cursor) hpend nofun nofun
    exact (happ.push (.acknowledge cursor false) ⟨getLast?_concat, happ.unfailed⟩ nofun nofun).await
        (lastRead_push nofun (lastRead_push nofun (hread hawait nofun nofun))) getLast?_concat
  · refine ⟨h.legal.push trivial, ?_, h.bounded, .inl ⟨_, rfl⟩, fun _ => ⟨_, rfl⟩, trivial⟩
    rw [count_append, h.retries]; rfl
  · rename_i hawait; exact (hopen hawait nofun).await (hread hawait nofun nofun) trivial
  · rename_i cursor hawait
    rw [hawait] at hpend
    exact ((hopen hawait nofun).push .completionAcknowledged ⟨cursor, hpend⟩ nofun nofun).await
      (lastRead_push nofun (hread hawait nofun nofun)) (mem_append_right _ (mem_singleton.2 rfl))
  · rename_i hawait
    exact Sound.Base.loop ⟨h.legal, h.retries, h.bounded, (hopen hawait nofun).unfailed⟩
      (hread hawait nofun nofun)
  · exact h.end _
  -- Failures.
  · rename_i hawait; exact (hopen hawait nofun).recover (hread hawait nofun nofun) _
  · rename_i hawait; exact (hopen hawait nofun).recover (hread hawait nofun nofun) _
  · rename_i hawait; exact (hopen hawait nofun).recover (hread hawait nofun nofun) _
  · rename_i hawait; exact (hopen hawait nofun).recover (hread hawait nofun nofun) _
  · exact h.end _
  · exact h.end _
  · exact h.end _
  · exact h.end _
  · exact h.end _
  · exact h

theorem sound_run (ans : List Answer) : Sound options (ans.foldl (step options) start) := by
  have hstart : Sound options start := by
    refine ⟨fun _ _ _ heq => ?_, rfl, Nat.zero_le _, .inr (.inl rfl), nofun, trivial⟩
    exact absurd heq.symm (append_ne_nil_of_right_ne_nil _ (cons_ne_nil _ _))
  revert hstart
  generalize start = run
  induction ans generalizing run with
  | nil => exact id
  | cons answer ans ih => exact fun h => ih _ (h.step answer)

/-- Whatever the node, the connection and the application do, each step of a run has what it needs before
it: a batch is acknowledged right after it was applied, and nothing is acknowledged or deleted once
the application failed; the subscription is deleted once it ended, with its unacknowledged records
when it was cancelled or failed under the policy, and a stream is opened on one that is not known to
have ended. Retries are bounded. -/
theorem history_kept (options : RunBackfillOptions) (answers : List Answer) :
    (∀ earlier entry later,
      (answers.foldl (step options) start).log = earlier ++ entry :: later →
        Permits options earlier entry) ∧
    (answers.foldl (step options) start).log.count .retry ≤ options.maxRetries :=
  have h := sound_run answers
  ⟨h.legal, h.retries ▸ h.bounded⟩

end Leani.Subscribe.RunBackfill
