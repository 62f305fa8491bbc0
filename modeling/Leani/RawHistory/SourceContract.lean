import Leani.Library.Tiling
import Leani.RawHistory.Catalog

/-!
# The contract of source plans

What is checked of a source's plan before one of its chunks is opened: that the chunks belong to the
plan's source and schema and cut its request in order. Where the request ends at the largest number the
next start saturates.
-/

namespace Leani.RawHistory.SourceContract

open Library

structure SourceChunk where
  sourceId : String
  range : BlockRange
  schemaVersion : String

structure SourcePlan where
  sourceId : String
  range : BlockRange
  chunks : List SourceChunk
  schemaVersion : String

inductive SourceError where
  | invalidPlan (message : String)
  | schemaDrift (expected actual : String)
  deriving DecidableEq

variable (plan : SourcePlan)

/-- One turn of the loop, with where the next chunk has to start. -/
def validateChunk (next : Nat) (chunk : SourceChunk) : Except SourceError Nat := do
  ensure (chunk.sourceId = plan.sourceId) (.invalidPlan "chunk belongs to a different source")
  ensure (chunk.schemaVersion = plan.schemaVersion) (.schemaDrift plan.schemaVersion chunk.schemaVersion)
  ensure (chunk.range.start = next ∧ chunk.range.last ≤ plan.range.last)
    (.invalidPlan "chunks are not an exact ordered cover")
  pure (satAdd chunk.range.last 1)

def validate : Except SourceError Unit := do
  ensure (plan.chunks ≠ []) (.invalidPlan "plan contains no chunks")
  let next ← foldExcept (validateChunk plan) plan.range.start plan.chunks
  ensure (next = satAdd plan.range.last 1) (.invalidPlan "chunks do not cover the complete request")

def Ours : Prop :=
  ∀ chunk ∈ plan.chunks, chunk.sourceId = plan.sourceId ∧ chunk.schemaVersion = plan.schemaVersion

def Partition : Prop :=
  Tiling.Up (fun chunk : SourceChunk => chunk.range.start) (fun chunk => chunk.range.last)
    plan.range.start plan.chunks (plan.range.last + 1)

variable {plan} {chunks : List SourceChunk} {next last : Nat}

theorem validateChunk_eq_ok {chunk : SourceChunk} : validateChunk plan next chunk = .ok last ↔
    (chunk.sourceId = plan.sourceId ∧ chunk.schemaVersion = plan.schemaVersion) ∧ (chunk.range.start =
    next ∧ chunk.range.last ≤ plan.range.last) ∧ last = satAdd chunk.range.last 1 := by
  simp only [validateChunk, eq_ok]
  constructor
  · rintro ⟨-, hsrc, -, hschema, -, hrange, rfl⟩; exact ⟨⟨hsrc, hschema⟩, hrange, rfl⟩
  · rintro ⟨⟨hsrc, hschema⟩, hrange, rfl⟩; exact ⟨⟨⟩, hsrc, ⟨⟩, hschema, ⟨⟩, hrange, rfl⟩

theorem ours_of_fold (h : foldExcept (validateChunk plan) next chunks = .ok last) :
    ∀ chunk ∈ chunks, chunk.sourceId = plan.sourceId ∧ chunk.schemaVersion = plan.schemaVersion := by
  induction chunks generalizing next with
  | nil => exact nofun
  | cons chunk chunks ih =>
    obtain ⟨_, hnext, h⟩ := bind_eq_ok.1 h
    exact List.forall_mem_cons.2 ⟨(validateChunk_eq_ok.1 hnext).1, ih h⟩

/-- No start saturates in a request that ends below the largest number. -/
theorem up_of_fold (hbelow : plan.range.last < u64Max)
    (h : foldExcept (validateChunk plan) next chunks = .ok last) :
    Tiling.Up (fun chunk : SourceChunk => chunk.range.start) (fun chunk => chunk.range.last)
      next chunks last := by
  induction chunks generalizing next with
  | nil => exact Except.ok.inj h
  | cons chunk chunks ih =>
    obtain ⟨_, hnext, h⟩ := bind_eq_ok.1 h
    obtain ⟨-, ⟨hstart, hlast⟩, rfl⟩ := validateChunk_eq_ok.1 hnext
    rw [satAdd_eq (Nat.succ_le_of_lt (hlast.trans_lt hbelow))] at h
    exact ⟨hstart, chunk.range.start_le_last, ih h⟩

theorem fold_of_up
    (hours : ∀ chunk ∈ chunks, chunk.sourceId = plan.sourceId ∧ chunk.schemaVersion = plan.schemaVersion)
    (h : Tiling.Up (fun chunk : SourceChunk => chunk.range.start) (fun chunk => chunk.range.last)
      next chunks (plan.range.last + 1)) :
    foldExcept (validateChunk plan) (min next u64Max) chunks = .ok (satAdd plan.range.last 1) := by
  induction chunks generalizing next with
  | nil =>
    obtain rfl : next = plan.range.last + 1 := h; rfl
  | cons chunk chunks ih =>
    obtain ⟨hstart, -, h⟩ := h
    have hle := h.le
    dsimp only at hstart hle
    obtain ⟨hchunk, hours⟩ := List.forall_mem_cons.1 hours
    have hfit := chunk.range.start_le_last.trans chunk.range.last_le
    rw [foldExcept_cons, validateChunk_eq_ok.2 ⟨hchunk, ⟨by omega, by omega⟩, rfl⟩]
    exact ih hours h

theorem validate_eq_ok : validate plan = .ok () ↔ plan.chunks ≠ [] ∧
    foldExcept (validateChunk plan) plan.range.start plan.chunks = .ok (satAdd plan.range.last 1) := by
  simp only [validate, eq_ok]
  constructor
  · rintro ⟨_, hne, _, hfold, heq⟩; exact ⟨hne, heq ▸ hfold⟩
  · rintro ⟨hne, hfold⟩; exact ⟨⟨⟩, hne, _, hfold, rfl⟩

theorem foreign_ordered : 5 ≤ 6 := by
  decide

theorem foreign_le : 6 ≤ u64Max := by
  decide

def foreignPlan : SourcePlan where
  sourceId := "era"
  range := ⟨5, 6, foreign_ordered, foreign_le⟩
  chunks := [⟨"archive", ⟨5, 6, foreign_ordered, foreign_le⟩, "1"⟩]
  schemaVersion := "1"

end Leani.RawHistory.SourceContract
