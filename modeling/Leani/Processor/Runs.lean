import Leani.Processor.Effects

/-!
# Runs of a processor instance

The operations that reach an instance's rows, in any order and with any arguments: those that
publish, the creation of backfill subscriptions, and what consumers and pruning do to a stream.
-/

namespace Leani

open Library Std Delivery List

def Delivery.Event.Quiet : Event → Prop
  | .append .. => False
  | _ => True

namespace Processor

/-- `backfill_delivery_stream_id`; `digest` is the digest of the subscription's id. -/
def ProcessorDescriptor.backfillStreamId (d : ProcessorDescriptor) (digest : String) : String :=
  d.inst ++ ":backfill:" ++ digest

inductive Operation where
  | apply (env : Environment) (cursor : ProcessorCursor) (delta : EncodedDelta) (publish : Bool)
      (streamId : String)
  | applyLiveRecovery (env : Environment) (cursor : ProcessorCursor) (delta : EncodedDelta)
  | undo (env : Environment) (chainId number : Nat) (hash : BlockHash)
  | markAttested (env : Environment) (through : Nat) (hash : BlockHash)
  | markFinalized (env : Environment) (through : Nat) (hash : BlockHash)
  | appendLiveGapNotice (env : Environment) (chainId : Nat) (block : BlockRef) (skipped : BlockRange)
  | republish (env : Environment) (cursor : ProcessorCursor) (delta : EncodedDelta) (publish : Bool)
      (streamId : String)
  | subscribe (digest : String) (origin : DeliveryOrigin)
  | onStream (streamId : String) (event : Event) (quiet : event.Quiet)

def Store.subscribe (s : Store) (d : ProcessorDescriptor) (digest : String)
    (origin : DeliveryOrigin) : Store :=
  if d.backfillStreamId digest ∈ s.streams then s
  else { s with
    streams := s.streams.insert (d.backfillStreamId digest) (.new .backfill)
    backfillOrigins := s.backfillOrigins.insert (d.backfillStreamId digest) origin }

def Store.onStream (s : Store) (streamId : String) (event : Event) : Store :=
  match s.streams[streamId]? with
  | some stream => { s with streams := s.streams.insert streamId (Delivery.step stream event) }
  | none => s

def step (p : Processor) (s : Store) : Operation → Store
  | .apply env cursor delta publish streamId =>
    commit s (s.applyToStream p env cursor delta publish streamId false)
  | .applyLiveRecovery env cursor delta => commit s (s.applyLiveRecovery p env cursor delta)
  | .undo env chainId number hash => commit s (s.undo p.descriptor env chainId number hash)
  | .markAttested env through hash => commit s (s.markAttested p.descriptor env through hash)
  | .markFinalized env through hash => commit s (s.markFinalized p.descriptor env through hash)
  | .appendLiveGapNotice env chainId block skipped =>
    commit s (s.appendLiveGapNotice p.descriptor env chainId block skipped)
  | .republish env cursor delta publish streamId =>
    commit s (s.republishBlockLocal p env cursor delta publish streamId)
  | .subscribe digest origin => s.subscribe p.descriptor digest origin
  | .onStream streamId event _ => s.onStream streamId event

def run (p : Processor) (s : Store) (ops : List Operation) : Store := ops.foldl (step p) s

theorem run_append (p : Processor) (s : Store) (ops ops' : List Operation) :
    run p s (ops ++ ops') = run p (run p s ops) ops' := foldl_append

inductive Operates (p : Processor) (s s' : Store) : Prop where
  | applied {env : Environment} {cursor : ProcessorCursor} {delta : EncodedDelta}
      {publish : Bool} {streamId : String} {recovery : Bool} {origin : DeliveryOrigin}
      {batch : MutationBatch} {inverse : List DomainChange} {o : Output} {pruned : PrunedOutput}
      (h : Applies p env cursor delta publish streamId recovery origin batch inverse s s' o pruned)
  | undone {env : Environment} {chainId number : Nat} {hash : BlockHash} {row : JournalRow}
      {o : Output} (h : Undoes p.descriptor env chainId number hash row s s' o)
  | raised {now through : Nat} {level : Finality} {holds marks : Bool}
      (h : Raises p.descriptor now through level holds marks s s')
  | published {streams : Table String Stream} {origins : Table String DeliveryOrigin}
      (h : s' = { s with streams := streams, backfillOrigins := origins })

def Operation.Forward : Operation → Prop
  | .undo .. => False
  | _ => True

inductive Forwards (p : Processor) (s s' : Store) : Prop where
  | applied {env : Environment} {cursor : ProcessorCursor} {delta : EncodedDelta}
      {publish : Bool} {streamId : String} {recovery : Bool} {origin : DeliveryOrigin}
      {batch : MutationBatch} {inverse : List DomainChange} {o : Output} {pruned : PrunedOutput}
      (h : Applies p env cursor delta publish streamId recovery origin batch inverse s s' o pruned)
  | raised {now through : Nat} {level : Finality} {holds marks : Bool}
      (h : Raises p.descriptor now through level holds marks s s')
  | published {streams : Table String Stream} {origins : Table String DeliveryOrigin}
      (h : s' = { s with streams := streams, backfillOrigins := origins })

theorem Forwards.refl (p : Processor) (s : Store) : Forwards p s s := .published rfl

variable {p : Processor}

theorem Forwards.operates {s s' : Store} (h : Forwards p s s') : Operates p s s' := by
  cases h with
  | applied h => exact .applied h
  | raised h => exact .raised h
  | published h => exact .published h

theorem applyToStream_forwards {s s' : Store} {env : Environment}
    {cursor : ProcessorCursor} {delta : EncodedDelta} {publ recov : Bool} {strmId : String}
    {outcome : Store.ApplyOutcome}
    (h : s.applyToStream p env cursor delta publ strmId recov = .ok (s', outcome)) :
    Forwards p s s' := by
  rcases applyToStream_spec h with ⟨-, rfl⟩ | ⟨-, _, _, _, _, _, ha⟩
  · exact .refl p s'
  · exact .applied ha

def Operation.Publishes : Operation → Prop
  | .appendLiveGapNotice .. | .republish .. | .subscribe .. | .onStream .. => True
  | _ => False

variable {op : Operation}

theorem step_publishes (p : Processor) (s : Store) (hp : op.Publishes) :
    ∃ streams origins, step p s op = { s with streams := streams, backfillOrigins := origins } := by
  cases op with
  | appendLiveGapNotice env chainId block skipped =>
    change ∃ streams origins,
      commit s (s.appendLiveGapNotice p.descriptor env chainId block skipped) = _
    cases hout : s.appendLiveGapNotice p.descriptor env chainId block skipped with
    | error err => exact ⟨_, _, rfl⟩
    | ok out =>
      obtain ⟨streams, hs⟩ := (appendLiveGapNotice_spec "" hout).1; exact ⟨_, _, hs⟩
  | republish env cursor delta publish streamId =>
    change ∃ streams origins, commit s (s.republishBlockLocal p env cursor delta publish streamId) = _
    cases hout : s.republishBlockLocal p env cursor delta publish streamId with
    | error err => exact ⟨_, _, rfl⟩
    | ok out =>
      obtain ⟨streams, hs⟩ := (republishBlockLocal_spec "" hout).1; exact ⟨_, _, hs⟩
  | subscribe digest origin =>
    change ∃ streams origins, s.subscribe p.descriptor digest origin = _
    unfold Store.subscribe
    split
    · exact ⟨_, _, rfl⟩
    · exact ⟨_, _, rfl⟩
  | onStream streamId event quiet =>
    change ∃ streams origins, s.onStream streamId event = _
    unfold Store.onStream
    split
    · exact ⟨_, _, rfl⟩
    · exact ⟨_, _, rfl⟩
  | _ => exact hp.elim

theorem step_forwards (p : Processor) (s : Store) (hf : op.Forward) : Forwards p s (step p s op) := by
  by_cases hp : op.Publishes
  · obtain ⟨_, _, hs⟩ := step_publishes p s hp; exact .published hs
  · cases op with
    | apply env cursor delta publish streamId =>
      change Forwards p s (commit s (s.applyToStream p env cursor delta publish streamId false))
      cases hout : s.applyToStream p env cursor delta publish streamId false with
      | error err => exact .refl p s
      | ok out => exact applyToStream_forwards hout
    | applyLiveRecovery env cursor delta =>
      change Forwards p s (commit s (s.applyLiveRecovery p env cursor delta))
      cases hout : s.applyLiveRecovery p env cursor delta with
      | error err => exact .refl p s
      | ok out =>
        simp only [Store.applyLiveRecovery, bind_eq_ok] at hout
        obtain ⟨-, -, hout⟩ := hout; exact applyToStream_forwards hout
    | undo env chainId number hash => exact hf.elim
    | markAttested env through hash =>
      change Forwards p s (commit s (s.markAttested p.descriptor env through hash))
      cases hout : s.markAttested p.descriptor env through hash with
      | error err => exact .refl p s
      | ok out => exact .raised (markAttested_spec hout)
    | markFinalized env through hash =>
      change Forwards p s (commit s (s.markFinalized p.descriptor env through hash))
      cases hout : s.markFinalized p.descriptor env through hash with
      | error err => exact .refl p s
      | ok out => exact .raised (markFinalized_spec hout)
    | _ => exact absurd trivial hp

theorem step_operates (p : Processor) (s : Store) (op : Operation) : Operates p s (step p s op) := by
  by_cases hf : op.Forward
  · exact (step_forwards p s hf).operates
  · cases op with
    | undo env chainId number hash =>
      change Operates p s (commit s (s.undo p.descriptor env chainId number hash))
      cases hout : s.undo p.descriptor env chainId number hash with
      | error err => exact .published rfl
      | ok out =>
        obtain ⟨_, _, hu⟩ := undo_spec hout; exact .undone hu
    | _ => exact absurd trivial hf

theorem backfillStreamId_ne (d : ProcessorDescriptor) (digest : String) :
    d.backfillStreamId digest ≠ d.defaultStreamId := by
  intro h
  have h := congrArg String.toList h
  unfold ProcessorDescriptor.backfillStreamId ProcessorDescriptor.defaultStreamId at h
  split at h
  · rw [String.toList_append, String.toList_append, String.toList_append, append_assoc,
      append_cancel_left_eq] at h
    cases h
  · rw [String.toList_append, String.toList_append, String.toList_append, append_assoc,
      append_cancel_left_eq] at h
    cases h

end Processor

end Leani
