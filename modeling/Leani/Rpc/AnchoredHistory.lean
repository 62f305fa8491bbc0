import Leani.Primitives

/-!
# History below a trusted hash

Endpoints serve blocks that nobody vouches for. An anchored source trusts one hash, walks headers down
from it, and keeps the hashes that end chunks; a chunk is fetched through the next chunk end and counts
when its last block has the proven hash there. Steps of the proof cover at most 65,536 blocks and
windows of it 4,096; what a step proved is kept when all its windows succeed.
-/

namespace Leani.Rpc.History

open Library Std

def chunkBlocks : Nat := 64

@[irreducible] def proofStep : Nat := 65536

@[irreducible] def proofWindow : Nat := 4096

inductive RpcError where
  | malformed (detail : String)
  | unverified (detail : String)
  | request (detail : String)
  deriving DecidableEq

inductive SourceError where
  | invalidPlan (detail : String)
  | missingRange (range : BlockRange)
  | corruptFrame (detail : String)
  | rpc (error : RpcError)
  deriving DecidableEq

variable {η : Type} [DecidableEq η]

structure Header (η : Type) where
  number : Nat
  parentHash : η
  rest : List UInt8
  deriving DecidableEq

/-- A block an endpoint served that decodes: its header, the hash the endpoint gave beside it, and
whether its body passes the checks of `frame`. -/
structure DecodedBlock (η : Type) where
  header : Header η
  hash : η
  framed : Bool

/-- The answers of the endpoints while one walk lasts, one for each block asked for. A block that does
not decode is `none`. -/
structure Endpoints (η : Type) where
  blocks : Nat → Nat → Except RpcError (List (Option (DecodedBlock η)))
  length_eq : ∀ first last list, blocks first last = .ok list → list.length = last + 1 - first

section Proof

variable (hashSlow : Header η → η) (lower grid : Nat)

def Kept (number : Nat) : Prop := number = lower ∨ (number + 1) % max grid 1 = 0

instance instDecidableKept (number : Nat) : Decidable (Kept lower grid number) :=
  inferInstanceAs (Decidable (_ ∨ _))

def walkHeaders (head : Nat) : List (Option (DecodedBlock η)) → η → Table Nat η →
    Except RpcError (η × Table Nat η)
  | [], expected, proven => .ok (expected, proven)
  | none :: _, _, _ => .error (.malformed "block")
  | some block :: rest, expected, proven =>
    if hashSlow block.header ≠ block.hash ∨ block.hash ≠ expected then
      .error (.unverified ("block " ++ toString block.header.number ++
        " is not on the chain of block " ++ toString head))
    else walkHeaders head rest block.header.parentHash
      (if Kept lower grid block.header.number then proven.insert block.header.number block.hash
        else proven)

theorem low_sub_one_lt {top lower win : Nat} (h : ¬ max (top - win) lower = lower) :
    max (top - win) lower - 1 < top := by
  omega

def proveDown (window : Nat) (endpoints : Endpoints η) (head : Nat) (top : Nat) (expected : η)
    (proven : Table Nat η) : List (Nat × Nat) × Except RpcError (Table Nat η) :=
  let low := max (top - (window - 1)) lower
  match endpoints.blocks low top with
  | .error e => ([], .error e)
  | .ok headers =>
    match walkHeaders hashSlow lower grid head headers.reverse expected proven with
    | .error e => ([], .error e)
    | .ok (expected', proven') =>
      if h : low = lower then ([(low, top)], .ok proven')
      else
        let out := proveDown window endpoints head (low - 1) expected' proven'
        ((low, top) :: out.1, out.2)
  termination_by top
  decreasing_by exact low_sub_one_lt h

end Proof

/-- What one turn of the loop in `proven_hash` comes to. -/
inductive Turn (η : Type) where
  | found (hash : η)
  | refused (error : SourceError)
  | proved (windows : List (Nat × Nat)) (proven : Table Nat η)
  | failed (windows : List (Nat × Nat)) (error : SourceError)

def lowest (proven : Table Nat η) : Option (Nat × η) := Table.firstWhere proven fun _ _ => true

def extend (proven more : Table Nat η) : Table Nat η := Table.insertRows proven more.toList

/-- One turn of the loop in `proven_hash`, under the map's lock. -/
def provenTurn (hashSlow : Header η → η) (endpoints : Endpoints η) (proven : Table Nat η)
    (number : Nat) : Turn η :=
  match proven[number]? with
  | some hash => .found hash
  | none => match lowest proven with
    | none => .refused (.invalidPlan "no anchor")
    | some (low, hash) =>
      if low < number then .refused (.invalidPlan ("block " ++ toString number ++ " ends no chunk"))
      else
        let lower := max (low - proofStep) number
        match proveDown hashSlow lower chunkBlocks proofWindow endpoints low low hash ∅ with
        | (windows, .error e) => .failed windows (.rpc e)
        | (windows, .ok more) => .proved windows (extend proven more)

structure Progress (η ρ : Type) where
  windows : List (Nat × Nat)
  proven : Table Nat η
  result : Option (Except SourceError ρ)

/-- The loop of `proven_hash`, over the behaviours that the endpoints show during its turns. Without a
result when they run out before it ends, as when the request is cancelled. -/
def provenHash (hashSlow : Header η → η) : List (Endpoints η) → Table Nat η → Nat → Progress η η
  | [], proven, _ => ⟨[], proven, none⟩
  | endpoints :: rest, proven, number =>
    match provenTurn hashSlow endpoints proven number with
    | .found hash => ⟨[], proven, some (.ok hash)⟩
    | .refused e => ⟨[], proven, some (.error e)⟩
    | .failed _ e => ⟨[], proven, some (.error e)⟩
    | .proved windows more =>
      let out := provenHash hashSlow rest more number
      ⟨windows ++ out.windows, out.proven, out.result⟩

def chunkEnd (number : Nat) : Nat := number ||| (chunkBlocks - 1)

structure Chunk (η : Type) where
  range : BlockRange
  expectedParent : Option η

structure Frame (η : Type) where
  number : Nat
  hash : η
  header : Header η

def decodeAll (blocks : List (Option (DecodedBlock η))) : Except RpcError (List (DecodedBlock η)) :=
  blocks.mapM fun block => required block (.malformed "block")

def linkError (blocks : DecodedBlock η × DecodedBlock η) : SourceError :=
  .corruptFrame ("block " ++ toString blocks.2.header.number ++ " does not link to block " ++
    toString blocks.1.header.number)

def checkLinks : List (DecodedBlock η) → Except SourceError Unit
  | below :: block :: rest => do
    ensure (block.header.parentHash = below.hash) (linkError (below, block))
    checkLinks (block :: rest)
  | _ => .ok ()

def checkParent (expected : Option η) (blocks : List (DecodedBlock η)) : Except SourceError Unit :=
  match blocks.head?, expected with
  | some first, some parent => ensure (first.header.parentHash = parent) (.corruptFrame
      ("block " ++ toString first.header.number ++ " does not link to the expected parent"))
  | _, _ => .ok ()

/-- `frame`: the header must hash to what was served, and the body pass its checks. -/
def frame (hashSlow : Header η → η) (block : DecodedBlock η) : Except SourceError (Frame η) := do
  ensure (hashSlow block.header = block.hash ∧ block.framed = true) (.rpc (.unverified "check"))
  pure ⟨block.header.number, block.hash, block.header⟩

def fromRpc {α : Type} : Except RpcError α → Except SourceError α
  | .ok a => .ok a
  | .error e => .error (.rpc e)

def fetchRange (hashSlow : Header η → η) (endpoints : Endpoints η) (expectedParent : Option η)
    (first last : Nat) : Except SourceError (List (Frame η)) := do
  let served ← fromRpc (endpoints.blocks first last)
  let blocks ← fromRpc (decodeAll served)
  checkLinks blocks
  checkParent expectedParent blocks
  ensure (blocks ≠ []) (.invalidPlan "empty chunk")
  blocks.mapM (frame hashSlow)

/-- `proven_range` once the proven hash at the top is known. -/
def framesBelow (hashSlow : Header η → η) (endpoints : Endpoints η) (chunk : Chunk η) (top : Nat)
    (trusted : η) : Except SourceError (List (Frame η)) := do
  let frames ← fetchRange hashSlow endpoints chunk.expectedParent chunk.range.start top
  ensure (frames.getLast?.map Frame.hash = some trusted) (.corruptFrame
    ("block " ++ toString top ++ " is not on the chain down from the anchor"))
  pure (frames.take (chunk.range.last + 1 - chunk.range.start))

def topOf (anchor : Nat) (chunk : Chunk η) : Nat := min (chunkEnd chunk.range.last) anchor

/-- A request for a chunk: the endpoints behave as `proofs` says while the proof goes on, and as
`endpoints` says while the chunk is fetched. -/
structure Request (η : Type) where
  chunk : Chunk η
  proofs : List (Endpoints η)
  endpoints : Endpoints η

def provenRange (hashSlow : Header η → η) (anchor : Nat) (proven : Table Nat η) (request : Request η) :
    Progress η (List (Frame η)) :=
  let chunk := request.chunk
  if anchor < chunk.range.last then ⟨[], proven, some (.error (.missingRange chunk.range))⟩
  else
    let out := provenHash hashSlow request.proofs proven (topOf anchor chunk)
    ⟨out.windows, out.proven, out.result.map fun result => result >>= fun trusted =>
      framesBelow hashSlow request.endpoints chunk (topOf anchor chunk) trusted⟩

/-- Requests in the order in which they take the map's lock. It is held to the end of the loop, and
what follows does not touch the map. -/
def serve (hashSlow : Header η → η) (anchor : Nat) : List (Request η) → Table Nat η →
    List (Nat × Nat) × Table Nat η
  | [], proven => ([], proven)
  | request :: rest, proven =>
    let out := provenRange hashSlow anchor proven request
    let more := serve hashSlow anchor rest out.proven
    (out.windows ++ more.1, more.2)

end Leani.Rpc.History
