import Leani.Primitives

/-!
# Committing a microbatch under backpressure

The blocks wait in batches. What a turn of the loop meets is an argument: how the store answers the
batch or the single block it is given, and whether what the turn awaits afterwards succeeds.
-/

namespace Leani.Historical.Microbatch

open List

structure MappedFrame where
  number : Nat
  hash : BlockHash
  deriving DecidableEq

inductive CommitAnswer where
  /-- The blocks are committed; a block alone may have been before. -/
  | committed
  | requiresFallback
  | batchLimit
  | artifactStorageLimit
  | deliveryPause
  | processorPaused
  | failed
  deriving DecidableEq

structure Job where
  range : BlockRange
  hasStream : Bool
  externalArtifacts : Bool

structure State where
  pending : List (List MappedFrame × Bool)
  /-- What is left of a batch that the fallback commits block by block. -/
  frames : List MappedFrame
  committed : List MappedFrame
  released : Bool
  deriving DecidableEq

/-- The batch `run_material_chunk` hands over; a failure behind it or a later chunk takes the flag. -/
def start (job : Job) (blocks : List MappedFrame) (completesSubscription failure : Bool) : State where
  pending := [(blocks, completesSubscription && !failure &&
    blocks.getLast?.any (·.number = job.range.last))]
  frames := []
  committed := []
  released := false

def stepFrames (frame : MappedFrame) (frames : List MappedFrame) (s : State) :
    CommitAnswer → Option State
  | .committed => some { s with frames, committed := s.committed ++ [frame] }
  -- Only the refused frame waits.
  | .deliveryPause | .processorPaused => some { s with frames := [frame], pending := [], released := true }
  | _ => none

def split (batch : List MappedFrame) (completes : Bool) (pending : List (List MappedFrame × Bool)) :=
  (batch.take (batch.length / 2), false) :: (batch.drop (batch.length / 2), completes) :: pending

def stepBatch (job : Job) (batch : List MappedFrame) (completes : Bool)
    (pending : List (List MappedFrame × Bool)) (s : State) (answer : CommitAnswer) : Option State :=
  let halves := some { s with pending := split batch completes pending }
  let first := some { s with
    pending := [(batch.take 1, completes && batch.length = 1)], released := true }
  match answer with
  | .committed => some { s with pending, committed := s.committed ++ batch }
  | .requiresFallback => if job.externalArtifacts then none else some { s with frames := batch, pending }
  | .batchLimit => if 1 < batch.length then halves else none
  | .artifactStorageLimit =>
    if 1 < batch.length then halves
    else if job.hasStream then some { s with pending := [(batch, completes)], released := true }
    else none
  | .deliveryPause => if 1 < batch.length then halves else first
  | .processorPaused => first
  | .failed => none

/-- One turn; `none` when it ends the call with an error and commits nothing. -/
def step (job : Job) (s : State) (answer : CommitAnswer) : Option State :=
  match s.frames, s.pending with
  | frame :: frames, _ => stepFrames frame frames s answer
  | [], (batch, completes) :: pending => stepBatch job batch completes pending s answer
  | [], [] => none

/-- The call's result, if the turns end it. -/
def run (job : Job) : State → List (CommitAnswer × Bool) → State × Option Bool
  | s, [] => (s, if s.frames = [] ∧ s.pending = [] then some true else none)
  | s, (answer, awaited) :: turns =>
    if s.frames = [] ∧ s.pending = [] then (s, some true)
    else
      match step job s answer with
      | none => (s, some false)
      | some s' => if awaited then run job s' turns else (s', some false)

def waiting (s : State) : List MappedFrame := s.frames ++ s.pending.flatMap Prod.fst

/-- What is committed, waits or was released are the blocks in order, and a flag is kept only by a batch
at their end. -/
structure Inv (blocks : List MappedFrame) (completes : Bool) (s : State) : Prop where
  whole : ∃ rest, s.committed ++ (waiting s ++ rest) = blocks ∧ (rest ≠ [] → s.released = true)
  batches : ∀ batch ∈ s.pending, batch.1 ≠ [] ∧
    (batch.2 = true → completes = true ∧ batch.1 <:+ blocks)

variable {job : Job} {blocks batch : List MappedFrame} {completes flag : Bool} {s s' : State}
  {pending : List (List MappedFrame × Bool)} {answer : CommitAnswer}

theorem Inv.stepFrames {frame : MappedFrame} {frames : List MappedFrame}
    (h : Inv blocks completes s) (hfrs : s.frames = frame :: frames)
    (hstep : stepFrames frame frames s answer = some s') : Inv blocks completes s' := by
  obtain ⟨⟨rest, hwhole, hrest⟩, hbatches⟩ := h
  rw [waiting, hfrs] at hwhole
  have hpaused : Inv blocks completes { s with frames := [frame], pending := [], released := true } :=
    ⟨⟨frames ++ s.pending.flatMap Prod.fst ++ rest, by simpa [waiting] using hwhole, fun _ => rfl⟩, nofun⟩
  cases answer <;> simp only [Microbatch.stepFrames, reduceCtorEq, Option.some.injEq] at hstep <;>
    subst hstep
  · exact ⟨⟨rest, by simpa [waiting] using hwhole, hrest⟩, hbatches⟩
  · exact hpaused
  · exact hpaused

theorem Inv.stepBatch (h : Inv blocks completes s) (hfrs : s.frames = [])
    (hpend : s.pending = (batch, flag) :: pending)
    (hstep : stepBatch job batch flag pending s answer = some s') : Inv blocks completes s' := by
  obtain ⟨⟨rest, hwhole, hrest⟩, hbatches⟩ := h
  rw [hpend, forall_mem_cons] at hbatches
  obtain ⟨⟨hne, hflag⟩, hbatches⟩ := hbatches
  simp only [waiting, hfrs, hpend, nil_append, flatMap_cons, append_assoc] at hwhole
  have hsplit (hlen : 1 < batch.length) :
      Inv blocks completes { s with pending := split batch flag pending } := by
    refine ⟨⟨rest, ?_, hrest⟩, forall_mem_cons.2 ⟨⟨?_, nofun⟩, forall_mem_cons.2 ⟨⟨?_, fun h =>
      ⟨(hflag h).1, (drop_suffix ..).trans (hflag h).2⟩⟩, hbatches⟩⟩⟩
    · simp only [waiting, split, hfrs, nil_append, flatMap_cons, append_assoc]
      rw [← append_assoc (take _ _), take_append_drop]; exact hwhole
    · rw [← length_pos_iff, length_take]; omega
    · rw [← length_pos_iff, length_drop]; omega
  have hfst : Inv blocks completes
      { s with pending := [(batch.take 1, flag && batch.length = 1)], released := true } := by
    refine ⟨⟨batch.drop 1 ++ pending.flatMap Prod.fst ++ rest, ?_, fun _ => rfl⟩,
      forall_mem_singleton.2 ⟨by simpa using hne, fun h => ?_⟩⟩
    · simp only [waiting, hfrs, nil_append, flatMap_cons, flatMap_nil, append_nil, append_assoc]
      rw [← append_assoc (take _ _), take_append_drop]; exact hwhole
    · rw [Bool.and_eq_true, decide_eq_true_iff] at h
      rw [take_of_length_le h.2.le]; exact hflag h.1
  cases answer with
  | committed =>
    cases hstep
    exact ⟨⟨rest, by simpa [waiting, hfrs] using hwhole, hrest⟩, hbatches⟩
  | requiresFallback =>
    simp only [Microbatch.stepBatch] at hstep
    split at hstep <;> cases hstep
    exact ⟨⟨rest, by simpa [waiting] using hwhole, hrest⟩, hbatches⟩
  | batchLimit =>
    simp only [Microbatch.stepBatch] at hstep
    split at hstep <;> cases hstep
    exact hsplit ‹_›
  | artifactStorageLimit =>
    simp only [Microbatch.stepBatch] at hstep
    split at hstep
    · cases hstep; exact hsplit ‹_›
    · split at hstep <;> cases hstep
      exact ⟨⟨pending.flatMap Prod.fst ++ rest, by simpa [waiting, hfrs] using hwhole, fun _ => rfl⟩,
        forall_mem_singleton.2 ⟨hne, hflag⟩⟩
  | deliveryPause =>
    simp only [Microbatch.stepBatch] at hstep
    split at hstep <;> cases hstep
    · exact hsplit ‹_›
    · exact hfst
  | processorPaused =>
    cases hstep; exact hfst
  | failed => cases hstep

theorem Inv.step (h : Inv blocks completes s) (hstep : step job s answer = some s') :
    Inv blocks completes s' := by
  unfold Microbatch.step at hstep
  split at hstep
  · rename_i hfrs; exact h.stepFrames hfrs hstep
  · rename_i hfrs hpend; exact h.stepBatch hfrs hpend hstep
  · cases hstep

theorem Inv.run {turns : List (CommitAnswer × Bool)} : ∀ {s : State}, Inv blocks completes s →
    Inv blocks completes (run job s turns).1 := by
  induction turns with
  | nil => exact id
  | cons turn turns ih =>
    intro s h
    rw [Microbatch.run]
    split
    · exact h
    · split
      · exact h
      · rename_i hstep
        split
        · exact ih (h.step hstep)
        · exact h.step hstep

theorem run_eq_some_true {turns : List (CommitAnswer × Bool)} :
    ∀ {s : State}, (run job s turns).2 = some true → waiting (run job s turns).1 = [] := by
  induction turns with
  | nil => intro s _; simp_all [Microbatch.run, waiting]
  | cons turn turns ih =>
    intro s
    rw [Microbatch.run]
    split
    · simp_all [waiting]
    · split
      · exact nofun
      · split
        · exact ih
        · exact nofun

def twoFrames : List MappedFrame := [⟨4, 0⟩, ⟨5, 0⟩]

theorem liveJob_le : 5 ≤ u64Max := by
  decide

def liveJob : Job := ⟨⟨4, 5, by decide, liveJob_le⟩, true, false⟩

end Leani.Historical.Microbatch
