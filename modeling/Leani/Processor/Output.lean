import Leani.Library.Journal
import Leani.Primitives

/-!
# Processor output

The working state and the materialized output of one processor instance: `processor_state`,
`entities` with their `output_entity_meta`, and `entity_indexes`, the mutations a block makes to
them, and the pruning of windowed output. Statements select by instance, so an instance's rows are
a value of their own.
-/

namespace Leani.Processor

open Library Std

abbrev Bytes := List UInt8

abbrev EntityKey := String × Bytes

abbrev StateKey := String × Bytes

abbrev IndexKey := String × Bytes × Bytes

instance entityKeyTransOrd : TransOrd EntityKey := pairTransOrd

instance indexKeyTransOrd : TransOrd IndexKey := pairTransOrd

structure EntityMeta where
  blockNumber : Nat
  blockTimestamp : Nat
  finality : Finality
  writtenAt : Nat
  valueBytes : Nat
  deriving DecidableEq

/-- One `output_entity_meta` row as it was before a block changed it. -/
structure EntityMetaImage where
  key : EntityKey
  row : EntityMeta
  deriving DecidableEq

inductive Mutation where
  | entity (key : EntityKey) (before after : Option Bytes)
  | index (key : IndexKey) (before after : Bool)
  | state (key : StateKey) (before after : Option Bytes)
  deriving DecidableEq

structure Values where
  state : Table StateKey Bytes
  entities : Table EntityKey Bytes
  indexes : Table IndexKey Unit

structure Output extends Values where
  entityMeta : Table EntityKey EntityMeta

def Output.empty : Output := ⟨⟨∅, ∅, ∅⟩, ∅⟩

def writeRow {κ ν : Type} [Ord κ] [TransOrd κ] (t : Table κ ν) (k : κ) : Option ν → Table κ ν
  | some v => t.insert k v
  | none => t.erase k

theorem get?_writeRow {κ ν : Type} [Ord κ] [TransOrd κ] [LawfulEqOrd κ] [DecidableEq κ]
    (t : Table κ ν) (k a : κ) (v : Option ν) : (writeRow t k v)[a]? = if a = k then v else t[a]? := by
  cases v with
  | some v => rw [writeRow, Table.get?_insert_ite]
  | none => rw [writeRow, Table.get?_erase_ite]

/-- What `apply_mutations` stamps on the entities it writes. -/
structure Stamp where
  block : BlockRef
  finality : Finality
  writeTime : Mutation → Nat

def Stamp.row (w : Stamp) (m : Mutation) (value : Bytes) : EntityMeta where
  blockNumber := w.block.number
  blockTimestamp := w.block.timestamp
  finality := w.finality
  writtenAt := w.writeTime m
  valueBytes := value.length

/-- Write one mutation, or with `inverse` its preimage. Deleting an entity cascades to its
metadata. -/
def applyMutation (inverse retainOutput : Bool) (w : Stamp) (o : Output) (m : Mutation) : Output :=
  match m with
  | .entity key before after =>
    let value := if inverse then before else after
    if retainOutput then
      { o with
        entities := writeRow o.entities key value
        entityMeta := writeRow o.entityMeta key (value.map (w.row m)) }
    else o
  | .index key before after =>
    let listed := if inverse then before else after
    if retainOutput then
      { o with indexes := writeRow o.indexes key (if listed then some () else none) }
    else o
  | .state key before after =>
    { o with state := writeRow o.state key (if inverse then before else after) }

def Mutation.stamps (inverse : Bool) : Mutation → Bool
  | .entity _ before after => (if inverse then before else after).isSome
  | _ => false

def applyMutations (o : Output) (mutations : List Mutation) (inverse retainOutput : Bool)
    (w : Stamp) : Except StoreError Output := do
  let stamps := retainOutput && mutations.any (Mutation.stamps inverse)
  ensure (stamps → w.block.number ≤ i64Max) (.numeric "output block number")
  ensure (stamps → w.block.timestamp ≤ i64Max) (.numeric "output block timestamp")
  pure ((if inverse then mutations.reverse else mutations).foldl
    (applyMutation inverse retainOutput w) o)

/-- `entity_meta_images`: the metadata of every existing entity a block changes. -/
def entityMetaImages (o : Output) (mutations : List Mutation) : List EntityMetaImage :=
  mutations.filterMap fun m =>
    match m with
    | .entity key (some _) _ => o.entityMeta[key]?.map fun row => ⟨key, row⟩
    | _ => none

inductive OutputPolicyMode where
  | none
  | latest
  | window
  | full
  deriving DecidableEq

structure OutputWindow where
  maxBlocks : Option Nat
  maxAgeSeconds : Option Nat
  maxRows : Option Nat
  maxBytes : Option Nat
  deriving DecidableEq

structure OutputPolicy where
  mode : OutputPolicyMode
  window : Option OutputWindow
  deriving DecidableEq

/-- Output rows one window pruning pass deletes at most, `OUTPUT_PRUNE_BATCH`. -/
def outputPruneBatch : Nat := 10000

structure PrunedOutput where
  mutations : List Mutation
  entities : List EntityMetaImage

def EntityMetaImage.older (a b : EntityMetaImage) : Bool :=
  (compare (a.row.blockNumber, a.row.writtenAt, a.key) (b.row.blockNumber, b.row.writtenAt, b.key)).isLE

/-- The rows of `output_entity_meta` that satisfy `p`, oldest first. -/
def imagesWhere (o : Output) (p : EntityKey → EntityMeta → Bool) : List EntityMetaImage :=
  ((Table.rowsWhere o.entityMeta p).map fun row => ⟨row.1, row.2⟩).mergeSort EntityMetaImage.older

/-- The collections `OUTPUT_NEXT_COLLECTION` finds from the empty name on. -/
def outputCollections (o : Output) : List String :=
  ((Table.rowsWhere o.entityMeta fun key _ => "" < key.1).map fun row => row.1.1).dedup

def expiredBlocks (o : Output) (retainedFrom : Nat) : List EntityMetaImage :=
  (((outputCollections o).flatMap fun collection =>
      (imagesWhere o fun key row => key.1 = collection && row.blockNumber < retainedFrom &&
        row.finality = .finalized).take outputPruneBatch).mergeSort
    EntityMetaImage.older).take outputPruneBatch

/-- The oldest finalized rows until `excess` bytes are freed. -/
def excessBytes : Nat → List EntityMetaImage → List EntityMetaImage
  | _, [] => []
  | excess, image :: images =>
    if excess = 0 then [] else image :: excessBytes (excess - image.row.valueBytes) images

def pruneCandidates (o : Output) (window : OutputWindow) (currentBlock : BlockRef) (now : Nat) :
    Except StoreError (List EntityMetaImage) :=
  match window.maxBlocks with
  | some maxBlocks => do
    let retainedFrom ← u64I64 (satAdd currentBlock.number 1 - maxBlocks) "output window start"
    pure (expiredBlocks o retainedFrom)
  | none =>
    let rows := (imagesWhere o fun _ row => row.finality = .finalized).take outputPruneBatch
    match window.maxAgeSeconds, window.maxRows, window.maxBytes with
    | some maxAgeSeconds, _, _ => do
      let age ← u64I64 (min (maxAgeSeconds * 1000) u64Max) "output maximum age"
      pure (rows.filter fun image => image.row.writtenAt < now - age)
    | none, some maxRows, _ => pure (rows.take (o.entities.size - maxRows))
    | none, none, some maxBytes =>
      let total := (o.entityMeta.toList.map fun row => row.2.valueBytes).sum
      pure (excessBytes (total - maxBytes) rows)
    | none, none, none => pure []

def deleteCandidate (st : Output × PrunedOutput) (image : EntityMetaImage) : Output × PrunedOutput :=
  match st.1.entities[image.key]? with
  | some value =>
    ({ st.1 with
        entities := st.1.entities.erase image.key
        entityMeta := st.1.entityMeta.erase image.key },
      { mutations := st.2.mutations ++ [.entity image.key (some value) none]
        entities := st.2.entities ++ [image] })
  | none => st

def hasEntityKey (o : Output) (key : Bytes) : Bool := o.entities.toList.any fun row => row.1.2 = key

/-- `delete_pruned_output`: the candidates, and the index entries left without an entity. -/
def deletePrunedOutput (o : Output) (candidates : List EntityMetaImage) : Output × PrunedOutput :=
  if candidates.isEmpty then (o, ⟨[], []⟩) else
    let (o, pruned) := candidates.foldl deleteCandidate (o, ⟨[], []⟩)
    let orphaned := Table.rowsWhere o.indexes fun key _ => !hasEntityKey o key.2.2
    ({ o with indexes := Table.deleteWhere o.indexes fun key _ => !hasEntityKey o key.2.2 },
      { pruned with
        mutations := pruned.mutations ++ orphaned.map fun row => .index row.1 true false })

def pruneOutputWindow (o : Output) (policy : OutputPolicy) (currentBlock : BlockRef) (now : Nat) :
    Except StoreError (Output × PrunedOutput) :=
  if policy.mode = .window then do
    let window ← required policy.window (.invariant "window output policy is missing its bound")
    let candidates ← pruneCandidates o window currentBlock now
    pure (deletePrunedOutput o candidates)
  else pure (o, ⟨[], []⟩)

/-- The level at which undo restores a row: finalized once finality has passed its block, otherwise
the higher of its own level and its block's. -/
def restoredLevel (coveredLevel : Nat → Option Finality) (finalizedThrough : Option Nat)
    (row : EntityMeta) : Finality :=
  if ∃ through ∈ finalizedThrough, row.blockNumber ≤ through then .finalized
  else (coveredLevel row.blockNumber).elim row.finality fun covered => max covered row.finality

def restoreImage (coveredLevel : Nat → Option Finality) (finalizedThrough : Option Nat)
    (o : Output) (image : EntityMetaImage) : Output :=
  let row := { image.row with finality := restoredLevel coveredLevel finalizedThrough image.row }
  if image.key ∈ o.entityMeta then { o with entityMeta := o.entityMeta.insert image.key row } else o

def restoreEntityMetadata (coveredLevel : Nat → Option Finality) (finalizedThrough : Option Nat)
    (o : Output) (images : List EntityMetaImage) : Output :=
  images.foldl (restoreImage coveredLevel finalizedThrough) o

end Leani.Processor
