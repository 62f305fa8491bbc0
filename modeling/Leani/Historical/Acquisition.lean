import Leani.Primitives

/-!
# Shared historical acquisitions

One acquisition reads a physical block range from a source once and serves every subscriber whose
logical range overlaps it. The frames it still owes someone wait in a bounded buffer; a subscriber
may join as long as the produced frames of its range are still there.

A function that works under the state lock is one step here. Where the source waits for a change,
the step reports that it would wait.
-/

namespace Leani.Historical

open Library

inductive SourceError where
  | cancelled
  | corruptFrame (detail : String)
  | source (reason : String)
  deriving DecidableEq

structure SubscriberProgress where
  delivered : Nat
  acknowledged : Nat
  endExclusive : Nat
  reading : Bool
  deriving DecidableEq

def SubscriberProgress.new (start endExclusive : Nat) : SubscriberProgress where
  delivered := start
  acknowledged := start
  endExclusive := endExclusive
  reading := false

structure BufferedFrame (μ : Type) where
  sequence : Nat
  frame : BlockFrame μ
  physicalAttributed : Bool
  deriving DecidableEq

structure AcquisitionState (μ : Type) where
  baseSequence : Nat
  produced : Nat
  frames : List (BufferedFrame μ)
  subscribers : Table Nat SubscriberProgress
  requestedRanges : List (Nat × Nat)
  terminal : Option (Except SourceError Unit)

structure Acquisition (μ : Type) where
  id : Nat
  maximumBufferedFrames : Nat
  range : BlockRange
  state : AcquisitionState μ
  cancellation : Bool

inductive NextFrameDisposition where
  | retain
  | overfetch
  | abandoned
  deriving DecidableEq

structure HistoricalMaterialFrame (μ : Type) where
  frame : BlockFrame μ
  acquisitionId : Nat
  physicalSource : Bool
  coalesced : Bool
  sequence : Nat
  subscriberId : Nat

structure MaterialSubscription where
  subscriberId : Nat
  terminal : Bool
  reading : Bool

variable {μ : Type}

/-- The sequence range `[start, end)` of a block range inside an acquisition. -/
def sequenceRange (range : BlockRange) (first last : Nat) : Nat × Nat :=
  (first - range.start, satAdd (last - range.start) 1)

def Acquisition.new (id maximumBufferedFrames : Nat) (range firstRange : BlockRange)
    (firstSubscriber : Nat) : Acquisition μ where
  id := id
  maximumBufferedFrames := maximumBufferedFrames
  range := range
  state :=
    { baseSequence := 0
      produced := 0
      frames := []
      subscribers := (∅ : Table Nat SubscriberProgress).insert firstSubscriber
        (.new (sequenceRange range firstRange.start firstRange.last).1
          (sequenceRange range firstRange.start firstRange.last).2)
      requestedRanges := [sequenceRange range firstRange.start firstRange.last]
      terminal := none }
  cancellation := false

/-- The buffered frames with a sequence in `[start, end)`. -/
def AcquisitionState.retainedIn (s : AcquisitionState μ) (start stop : Nat) : Nat :=
  (s.frames.filter fun b => start ≤ b.sequence ∧ b.sequence < stop).length

def AcquisitionState.refuses (s : AcquisitionState μ) (startSequence endSequence : Nat) : Bool :=
  let alreadyProducedEnd := min endSequence s.produced
  s.subscribers.isEmpty ∨ (startSequence < s.produced ∧
    s.retainedIn startSequence alreadyProducedEnd ≠ alreadyProducedEnd - startSequence)

/-- Join a subscriber at `requestedStart`; returns the last block it gets. -/
def Acquisition.tryRegister (a : Acquisition μ) (subscriberId requestedStart requestedEnd : Nat) :
    Option (Acquisition μ × Nat) :=
  if requestedStart < a.range.start ∨ a.range.last < requestedStart then none
  else
    let last := min requestedEnd a.range.last
    let startSequence := (sequenceRange a.range requestedStart last).1
    let endSequence := (sequenceRange a.range requestedStart last).2
    if a.state.refuses startSequence endSequence then none
    else some ({ a with
      state := { a.state with
        subscribers := a.state.subscribers.insert subscriberId (.new startSequence endSequence)
        requestedRanges := a.state.requestedRanges ++ [(startSequence, endSequence)] } }, last)

def AcquisitionState.needed (s : AcquisitionState μ) (sequence : Nat) : Bool :=
  s.subscribers.toList.any fun entry =>
    entry.2.delivered ≤ sequence ∧ sequence < entry.2.endExclusive

def Acquisition.prepareNext (a : Acquisition μ) (frame : BlockFrame μ) :
    Except SourceError (Acquisition μ × NextFrameDisposition) :=
  if a.state.subscribers.isEmpty then .error .cancelled
  else
    let expectedNumber := satAdd a.range.start a.state.produced
    if frame.block.number ≠ expectedNumber then
      .error (.corruptFrame (s!"historical acquisition {a.id} expected block {expectedNumber}, " ++
        s!"received {frame.block.number}"))
    else
      let sequence := a.state.produced
      if a.state.needed sequence then .ok (a, .retain)
      else
        let requested := a.state.requestedRanges.any fun r => r.1 ≤ sequence ∧ sequence < r.2
        let produced := satAdd a.state.produced 1
        .ok ({ a with
          state := { a.state with
            produced := produced
            baseSequence := if a.state.frames.isEmpty then produced else a.state.baseSequence } },
          if requested then .abandoned else .overfetch)

def Acquisition.push (a : Acquisition μ) (frame : BlockFrame μ) :
    Except SourceError (Option (Acquisition μ)) :=
  if a.state.subscribers.isEmpty then .error .cancelled
  else if a.maximumBufferedFrames ≤ a.state.frames.length then .ok none
  else .ok (some { a with
    state := { a.state with
      produced := satAdd a.state.produced 1
      frames := a.state.frames ++ [⟨a.state.produced, frame, false⟩] } })

def Acquisition.finish (a : Acquisition μ) (outcome : Except SourceError Unit) : Acquisition μ :=
  { a with state := { a.state with terminal := some outcome } }

def AcquisitionState.minAcknowledged (s : AcquisitionState μ) : Option Nat :=
  (s.subscribers.toList.map fun entry => entry.2.acknowledged).min?

def pruneAcknowledged (s : AcquisitionState μ) : AcquisitionState μ :=
  match s.minAcknowledged with
  | none => s
  | some acknowledged =>
    let frames := s.frames.dropWhile fun b => b.sequence < acknowledged
    { s with
      frames := frames
      baseSequence := frames.head?.elim s.produced BufferedFrame.sequence }

def Acquisition.acknowledge (a : Acquisition μ) (subscriberId sequence : Nat) : Acquisition μ :=
  match a.state.subscribers[subscriberId]? with
  | none => a
  | some progress =>
    if progress.acknowledged = sequence then
      { a with
        state := pruneAcknowledged { a.state with
          subscribers := a.state.subscribers.insert subscriberId
            { progress with acknowledged := satAdd progress.acknowledged 1 } } }
    else a

def Acquisition.unregister (a : Acquisition μ) (subscriberId : Nat) : Acquisition μ :=
  let s := { a.state with subscribers := a.state.subscribers.erase subscriberId }
  if s.subscribers.isEmpty then
    { a with
      state := { s with frames := [], baseSequence := s.produced }
      cancellation := true }
  else
    { a with state := pruneAcknowledged s }

def Acquisition.startReading (a : Acquisition μ) (subscriberId : Nat) : Acquisition μ :=
  match a.state.subscribers[subscriberId]? with
  | none => a
  | some progress =>
    { a with
      state := { a.state with
        subscribers := a.state.subscribers.insert subscriberId { progress with reading := true } } }

inductive Polled (μ : Type) where
  | item (frame : HistoricalMaterialFrame μ)
  | failed (error : SourceError)
  | ended
  | waits

def attributeFrame (sequence : Nat) : List (BufferedFrame μ) → List (BufferedFrame μ)
  | [] => []
  | b :: bs =>
    if b.sequence = sequence then { b with physicalAttributed := true } :: bs
    else b :: attributeFrame sequence bs

def Acquisition.deliver (a : Acquisition μ) (subscriberId : Nat) (progress : SubscriberProgress)
    (buffered : BufferedFrame μ) : Acquisition μ × HistoricalMaterialFrame μ :=
  ({ a with
    state := { a.state with
      frames := attributeFrame progress.delivered a.state.frames
      subscribers := a.state.subscribers.insert subscriberId
        { progress with delivered := satAdd progress.delivered 1 } } },
    { frame := buffered.frame
      acquisitionId := a.id
      physicalSource := !buffered.physicalAttributed
      coalesced := buffered.physicalAttributed
      sequence := buffered.sequence
      subscriberId := subscriberId })

def pollOnce (a : Acquisition μ) (subscription : MaterialSubscription) (cancelled : Bool) :
    Acquisition μ × MaterialSubscription × Polled μ :=
  let closed := { subscription with terminal := true }
  match a.state.subscribers[subscription.subscriberId]? with
  | none => (a, subscription, .ended)
  | some progress =>
    if progress.endExclusive ≤ progress.delivered then (a, closed, .ended)
    else if progress.delivered < a.state.produced then
      match a.state.frames.find? fun b => b.sequence = progress.delivered with
      | none => (a, subscription, .ended)
      | some buffered =>
        let handed := a.deliver subscription.subscriberId progress buffered
        (handed.1, subscription, .item handed.2)
    else match a.state.terminal with
      | some (.ok ()) => (a, closed, .ended)
      | some (.error e) => (a, closed, .failed e)
      | none =>
        if cancelled then (a, closed, .failed .cancelled) else (a, subscription, .waits)

/-- One poll of a subscriber's stream. `cancelled` says that its cancellation token fired while it
would have waited. -/
def MaterialSubscription.next (a : Acquisition μ) (subscription : MaterialSubscription)
    (cancelled : Bool) : Acquisition μ × MaterialSubscription × Polled μ :=
  if subscription.terminal then (a, subscription, .ended)
  else if subscription.reading then pollOnce a subscription cancelled
  else pollOnce (a.startReading subscription.subscriberId) { subscription with reading := true }
    cancelled

end Leani.Historical
