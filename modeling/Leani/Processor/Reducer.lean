import Leani.Delivery.Model
import Leani.Processor.Output

/-!
# Reducers

A reducer is a program that reads and writes through its transaction, `ReducerTransaction`. The
transaction is an overlay on the committed rows: the first access to a key loads what the database
holds, and the block's mutations are the keys whose value in the overlay differs from that.
-/

namespace Leani.Processor

open Library Std Delivery

/-- A reducer's run against its transaction: one constructor for each call it can make, with what it
does on the answer. A scan may be refused, which the reducer sees. -/
inductive ReducerProgram where
  | done (changes : List DomainChange)
  | fail (reason : String)
  | stateGet (key : StateKey) (next : Option Bytes → ReducerProgram)
  | statePut (key : StateKey) (value : Bytes) (next : ReducerProgram)
  | stateDelete (key : StateKey) (next : ReducerProgram)
  | stateScan (scope : String) (start : Bytes) (limit : Nat)
      (next : Except String (List (Bytes × Bytes)) → ReducerProgram)
  | get (key : EntityKey) (next : Option Bytes → ReducerProgram)
  | put (key : EntityKey) (value : Bytes) (next : ReducerProgram)
  | delete (key : EntityKey) (next : ReducerProgram)
  | scan (scope : String) (start : Bytes) (limit : Nat)
      (next : Except String (List (Bytes × Bytes)) → ReducerProgram)
  | indexPut (key : IndexKey) (next : ReducerProgram)
  | indexDelete (key : IndexKey) (next : ReducerProgram)
  | emit (change : DomainChange) (next : ReducerProgram)

structure OverlayValue (α : Type) where
  before : α
  after : α

structure ReducerOverlay where
  state : Table StateKey (OverlayValue (Option Bytes))
  entities : Table EntityKey (OverlayValue (Option Bytes))
  indexes : Table IndexKey (OverlayValue Bool)
  changes : List DomainChange
  /-- A reducer read output, or rewrote an entity or index entry unchanged, which output pruned
  between blocks would change. -/
  windowDependent : Bool

def ReducerOverlay.new : ReducerOverlay := ⟨∅, ∅, ∅, [], false⟩

def load {κ α : Type} [Ord κ] [TransOrd κ] (t : Table κ (OverlayValue α)) (key : κ) (stored : α) :
    OverlayValue α := t[key]?.getD ⟨stored, stored⟩

def assign {κ α : Type} [Ord κ] [TransOrd κ] (t : Table κ (OverlayValue α)) (key : κ)
    (stored value : α) : Table κ (OverlayValue α) :=
  t.insert key { load t key stored with after := value }

namespace ReducerOverlay

variable (db : Values) (overlay : ReducerOverlay)

def stateValue (key : StateKey) : Option Bytes := (load overlay.state key db.state[key]?).after

def entityValue (key : EntityKey) : Option Bytes := (load overlay.entities key db.entities[key]?).after

def indexValue (key : IndexKey) : Bool := (load overlay.indexes key (db.indexes.contains key)).after

def setState (key : StateKey) (value : Option Bytes) : ReducerOverlay :=
  { overlay with state := assign overlay.state key db.state[key]? value }

/-- `get` loads a key and depends on what the window kept. -/
def getEntity (key : EntityKey) : ReducerOverlay :=
  { overlay with
    entities := assign overlay.entities key db.entities[key]? (overlay.entityValue db key)
    windowDependent := true }

def putEntity (key : EntityKey) (value : Bytes) : ReducerOverlay :=
  { overlay with
    entities := assign overlay.entities key db.entities[key]? (some value)
    windowDependent := overlay.windowDependent || overlay.entityValue db key = some value }

def deleteEntity (key : EntityKey) : ReducerOverlay :=
  { overlay with entities := assign overlay.entities key db.entities[key]? none }

def putIndex (key : IndexKey) : ReducerOverlay :=
  { overlay with
    indexes := assign overlay.indexes key (db.indexes.contains key) true
    windowDependent := overlay.windowDependent || overlay.indexValue db key }

def deleteIndex (key : IndexKey) : ReducerOverlay :=
  { overlay with indexes := assign overlay.indexes key (db.indexes.contains key) false }

end ReducerOverlay

/-- `prefix_upper_bound`: raise the last byte that can be raised and cut behind it. -/
def prefixUpperBound : Bytes → Option Bytes
  | [] => none
  | b :: bs =>
    match prefixUpperBound bs with
    | some upper => some (b :: upper)
    | none => if b = 255 then none else some [b + 1]

/-- One page of a scope's committed rows, from `lower` on and below the bound of `start`. -/
def committedPage (t : Table StateKey Bytes) (scope : String) (start : Bytes) (limit : Nat)
    (lower : Bytes) : List (Bytes × Bytes) :=
  ((Table.rowsWhere t fun key _ => key.1 = scope && (compare lower key.2).isLE &&
      (prefixUpperBound start).all fun upper => compare key.2 upper = .lt).map
    fun row => (row.1.2, row.2)).take limit

/-- Read pages until `limit` rows are visible or the committed rows run out. The answer is the
committed rows that the overlay does not hide, and the key through which all were read. -/
def scanPages (page : Bytes → List (Bytes × Bytes)) (written : Table Bytes (Option Bytes))
    (limit : Nat) : Nat → Bytes → Table Bytes Bytes → Table Bytes Bytes × Option Bytes
  | 0, _, merged => (merged, none)
  | fuel + 1, lower, merged =>
    let rows := page lower
    let merged := rows.foldl
      (fun merged row => if row.1 ∈ written then merged else merged.insert row.1 row.2) merged
    match rows.getLast? with
    | none => (merged, none)
    | some (last, _) =>
      if rows.length < limit then (merged, none)
      else
        let visible := merged.size + (Table.rowsWhere written fun key value =>
          (compare key last).isLE && value.isSome).length
        if limit ≤ visible then (merged, some last)
        else scanPages page written limit fuel (last ++ [0]) merged

/-- `scan_merged_prefix`: committed rows under a prefix merged with the reducer's own writes. A page
that is not the last moves past one row at least, so the rows bound the pages. -/
def scanMergedPrefix (t : Table StateKey Bytes) (scope : String) (start : Bytes) (limit : Nat)
    (written : Table Bytes (Option Bytes)) : List (Bytes × Bytes) :=
  let (merged, through) :=
    scanPages (committedPage t scope start limit) written limit (t.size + 1) start ∅
  let merged := written.toList.foldl (fun merged row =>
    match row.2 with
    | some value =>
      if through.all fun last => (compare row.1 last).isLE then merged.insert row.1 value else merged
    | none => merged) merged
  merged.toList.take limit

def writtenUnder (t : Table StateKey (OverlayValue (Option Bytes))) (scope : String) (start : Bytes) :
    Table Bytes (Option Bytes) :=
  Table.insertRows ∅ ((Table.rowsWhere t fun key _ => key.1 = scope && start.isPrefixOf key.2).map
    fun row => (row.1.2, row.2.after))

def scanAnswer (t : Table StateKey Bytes) (overlay : Table StateKey (OverlayValue (Option Bytes)))
    (scope : String) (start : Bytes) (limit : Nat) : Except String (List (Bytes × Bytes)) :=
  if limit = 0 ∨ 10000 < limit then .error "scan limit must be in 1..=10000"
  else .ok (scanMergedPrefix t scope start limit (writtenUnder overlay scope start))

def ReducerProgram.run (db : Values) :
    ReducerProgram → ReducerOverlay → Except StoreError (List DomainChange × ReducerOverlay)
  | .done changes, overlay => .ok (changes, overlay)
  | .fail reason, _ => .error (.processor reason)
  | .stateGet key next, overlay =>
    (next (overlay.stateValue db key)).run db (overlay.setState db key (overlay.stateValue db key))
  | .statePut key value next, overlay => next.run db (overlay.setState db key (some value))
  | .stateDelete key next, overlay => next.run db (overlay.setState db key none)
  | .stateScan scope start limit next, overlay =>
    (next (scanAnswer db.state overlay.state scope start limit)).run db overlay
  | .get key next, overlay => (next (overlay.entityValue db key)).run db (overlay.getEntity db key)
  | .put key value next, overlay => next.run db (overlay.putEntity db key value)
  | .delete key next, overlay => next.run db (overlay.deleteEntity db key)
  | .scan scope start limit next, overlay =>
    (next (scanAnswer db.entities overlay.entities scope start limit)).run db { overlay with
        windowDependent := overlay.windowDependent || !(limit = 0 || 10000 < limit) }
  | .indexPut key next, overlay => next.run db (overlay.putIndex db key)
  | .indexDelete key next, overlay => next.run db (overlay.deleteIndex db key)
  | .emit change next, overlay =>
    next.run db { overlay with changes := overlay.changes ++ [change] }

structure MutationBatch where
  mutations : List Mutation
  changes : List DomainChange

def changedKeys {κ α : Type} [Ord κ] [TransOrd κ] [DecidableEq α] (t : Table κ (OverlayValue α))
    (mutation : κ → α → α → Mutation) : List Mutation :=
  t.toList.filterMap fun row =>
    if row.2.before = row.2.after then none else some (mutation row.1 row.2.before row.2.after)

def ReducerOverlay.mutations (overlay : ReducerOverlay) : List Mutation :=
  changedKeys overlay.entities .entity ++ changedKeys overlay.indexes .index ++
    changedKeys overlay.state .state

def ReducerOverlay.intoBatch (overlay : ReducerOverlay) : MutationBatch :=
  ⟨overlay.mutations, overlay.changes⟩

def settle {κ α : Type} [Ord κ] [TransOrd κ] (t : Table κ (OverlayValue α)) :
    Table κ (OverlayValue α) := t.map fun _ value => ⟨value.after, value.after⟩

def ReducerOverlay.takeBatch (overlay : ReducerOverlay) : MutationBatch × ReducerOverlay :=
  (overlay.intoBatch, { overlay with
      state := settle overlay.state
      entities := settle overlay.entities
      indexes := settle overlay.indexes
      changes := [] })

def entityWrites (mutations : List Mutation) : List (Bytes × Option Bytes × Option Bytes) :=
  mutations.filterMap fun m =>
    match m with
    | .entity key before after => some (key.2, before, after)
    | _ => none

def stateWrites (mutations : List Mutation) : List (Bytes × Option Bytes × Option Bytes) :=
  mutations.filterMap fun m =>
    match m with
    | .state key before after => some (key.2, before, after)
    | _ => none

def matchesChange (change : DomainChange) (write : Bytes × Option Bytes × Option Bytes) : Bool :=
  write.1 = change.key &&
    match change.operation with
    | .upsert => write.2.2 = some change.payload
    | .delete => write.2.2 = none

def inverseChange (mutations : List Mutation) (change : DomainChange) :
    Except StoreError DomainChange :=
  let entities := (entityWrites mutations).filter (matchesChange change)
  let matching :=
    if entities.isEmpty then (stateWrites mutations).filter (matchesChange change) else entities
  let created := (entityWrites mutations ++ stateWrites mutations).filter fun write =>
    write.1 = change.key && write.2.1.isNone && write.2.2.isSome
  -- A key the block created may carry another payload: its inverse deletes the key.
  if matching.isEmpty ∧ change.operation = .upsert ∧ created.length = 1 then
    .ok ⟨change.kind, change.key, .delete, []⟩
  else
    match matching with
    | [(_, before, _)] =>
      .ok ⟨change.kind, change.key, if before.isSome then .upsert else .delete, before.getD []⟩
    | _ => .error (.invariant ("change " ++ change.kind ++ " has " ++ toString matching.length ++
        " matching state mutations; expected one"))

def buildInverseChanges (batch : MutationBatch) : Except StoreError (List DomainChange) :=
  batch.changes.reverse.mapM (inverseChange batch.mutations)

end Leani.Processor
