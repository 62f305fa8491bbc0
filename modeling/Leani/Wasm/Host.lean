import Leani.Delivery.Model
import Leani.Library.Effects
import Leani.Library.Postcard

/-!
# The host of a Wasm guest

`reduce` runs a guest that calls the host. Writes wait in a queue of the host; a read suspends the
guest until the queue is applied to the block's transaction and the read is served from it. A guest
is the tree of what it does on each answer. Its fuel is finite, so the tree is well founded, with
the end of the fuel as one of its leaves; an instruction that traps or a buffer outside its memory
is another.
Log messages and hashes change nothing the host keeps and are left out.
-/

namespace Leani.Wasm

open Library Delivery

abbrev Bytes := List UInt8

inductive WriteOperation where
  | put
  | delete
  | statePut
  | stateDelete
  | indexPut
  | indexDelete
  deriving DecidableEq

def WriteOperation.ofCode : Nat → Except Nat WriteOperation
  | 0 => .ok .put
  | 1 => .ok .delete
  | 2 => .ok .statePut
  | 3 => .ok .stateDelete
  | 4 => .ok .indexPut
  | 5 => .ok .indexDelete
  | other => .error other

/-- What the host asks of a transaction; `flush` only applies the queued writes. -/
inductive Request where
  | read (private_ : Bool) (name : String) (key : Bytes)
  | scan (private_ : Bool) (name : String) (start : Bytes) (limit : Nat)
  | write (operation : WriteOperation) (name : String) (key value : Bytes)
  | flush
  deriving DecidableEq

structure ReducerTransaction (σ ε : Type) where
  get : String → Bytes → σ → σ × Except ε (Option Bytes)
  stateGet : String → Bytes → σ → σ × Except ε (Option Bytes)
  scanPrefix : String → Bytes → Nat → σ → σ × Except ε (List (Bytes × Bytes))
  stateScanPrefix : String → Bytes → Nat → σ → σ × Except ε (List (Bytes × Bytes))
  put : String → Bytes → Bytes → σ → σ × Except ε Unit
  statePut : String → Bytes → Bytes → σ → σ × Except ε Unit
  indexPut : String → Bytes → Bytes → σ → σ × Except ε Unit
  indexDelete : String → Bytes → Bytes → σ → σ × Except ε Unit
  delete : String → Bytes → σ → σ × Except ε Unit
  stateDelete : String → Bytes → σ → σ × Except ε Unit

def encodeEntries (entries : List (Bytes × Bytes)) : Bytes :=
  Postcard.seq (fun entry => Postcard.bytes entry.1 ++ Postcard.bytes entry.2) entries

def ReducerTransaction.apply {σ ε : Type} (transaction : ReducerTransaction σ ε) :
    Request → σ → σ × Except ε (Option Bytes)
  | .read true name key, s => transaction.stateGet name key s
  | .read false name key, s => transaction.get name key s
  | .scan private_ name start limit, s =>
    let out := if private_ then transaction.stateScanPrefix name start limit s
      else transaction.scanPrefix name start limit s
    (out.1, out.2.map fun entries => some (encodeEntries entries))
  | .write operation name key value, s =>
    let out := match operation with
      | .put => transaction.put name key value s
      | .delete => transaction.delete name key s
      | .statePut => transaction.statePut name key value s
      | .stateDelete => transaction.stateDelete name key s
      | .indexPut => transaction.indexPut name key value s
      | .indexDelete => transaction.indexDelete name key value s
    (out.1, out.2.map fun _ => none)
  | .flush, s => (s, .ok none)

structure WasmLimits where
  fuel : Nat
  valueBytes : Nat
  changes : Nat
  hostCalls : Nat

/-- What a call is checked against. `notJson` is the error of `serde_json` for bytes it refuses. -/
structure HostEnvironment where
  limits : WasmLimits
  ordered : Bool
  notJson : Bytes → Option String

def nameBytes : Nat := 128

def keyBytes : Nat := 65536

def scanEntries : Nat := 10000

def queuedBytesLimit : Nat := 16777216

def changeBytesLimit : Nat := 67108864

def readBytes (bytes : Bytes) (limit : Nat) (what : String) : Except String Bytes := do
  ensure (bytes.length ≤ limit)
    (what ++ " is " ++ toString bytes.length ++ " bytes, more than the " ++ toString limit ++
      "-byte limit")
  pure bytes

def readName (bytes : Bytes) : Except String String := do
  let bytes ← readBytes bytes nameBytes "a name"
  let name ← required (String.fromUTF8? ⟨bytes.toArray⟩) "a name must be non-empty UTF-8"
  ensure (name ≠ "") "a name must be non-empty UTF-8"
  pure name

def jsonValue (env : HostEnvironment) (bytes : Bytes) (what : String) : Except String Unit :=
  match env.notJson bytes with
  | some error => .error (what ++ " is not JSON: " ++ error)
  | none => .ok ()

inductive HostCall where
  | fail (message : String)
  | takeValue
  | read (private_ : Bool) (name key : Bytes)
  | scan (private_ : Bool) (name start : Bytes) (limit : Nat)
  | write (operation : Nat) (name key value : Bytes)
  | emit (kind key : Bytes) (delete : Bool) (payload : Bytes)

inductive Answer where
  | unit
  | number (n : Int)
  | value (bytes : Bytes)

inductive Guest where
  | finish (status : Nat)
  | trap (message : String)
  | outOfFuel
  | call (request : HostCall) (next : Answer → Guest)

/-- What a call of `leani_reduce` keeps besides its writes. -/
structure CallState where
  failure : Option String
  value : Option Bytes
  changes : List DomainChange
  changeBytes : Nat
  hostCalls : Nat

def CallState.new : CallState where
  failure := none
  value := none
  changes := []
  changeBytes := 0
  hostCalls := 0

structure HostState extends CallState where
  pending : Option Request
  writes : List Request
  queuedBytes : Nat

def HostState.new : HostState where
  toCallState := .new
  pending := none
  writes := []
  queuedBytes := 0

inductive Trap where
  | suspend
  | error (message : String)

/-- `reducing`: the count of the call, and whether it is one too many. -/
def reducing (env : HostEnvironment) (hostCalls : Nat) : Nat × Except String Unit :=
  (hostCalls + 1, ensure (hostCalls + 1 ≤ env.limits.hostCalls)
    ("a block may make at most " ++ toString env.limits.hostCalls ++ " state accesses"))

def checkReading (env : HostEnvironment) : Except String Unit :=
  ensure (env.ordered = true)
    "a block_local processor cannot read state; declare ordered reduction to read it"

/-- The request of a `read`, `scan` or `write`, or the error of its arguments. -/
def requestOf (env : HostEnvironment) : HostCall → Except String Request
  | .read private_ name key => do
    checkReading env
    let name ← readName name
    let key ← readBytes key keyBytes "a key"
    pure (.read private_ name key)
  | .scan private_ name start limit => do
    checkReading env
    ensure (limit ≤ scanEntries)
      ("a scan returns at most " ++ toString scanEntries ++ " entries, not " ++ toString limit)
    let name ← readName name
    let start ← readBytes start keyBytes "a prefix"
    pure (.scan private_ name start limit)
  | .write code name key value => do
    let operation ← (WriteOperation.ofCode code).mapError fun code =>
      "unknown write operation " ++ toString code
    let limit := if operation = .indexPut ∨ operation = .indexDelete then keyBytes
      else env.limits.valueBytes
    let value ← readBytes value limit "a value"
    if operation = .put then jsonValue env value "an entity"
    let key ← readBytes key keyBytes "a key"
    let name ← readName name
    pure (.write operation name key value)
  | _ => pure .flush

def changeOf (env : HostEnvironment) (kind key : Bytes) (delete : Bool) (payload : Bytes) :
    Except String DomainChange := do
  let payload ← readBytes payload env.limits.valueBytes "a change payload"
  if delete then
    if payload ≠ [] then jsonValue env payload "a delete change"
  else jsonValue env payload "an upsert change"
  let kind ← readName kind
  let key ← readBytes key keyBytes "a change key"
  pure ⟨kind, key, if delete then .delete else .upsert, payload⟩

namespace CallState

variable (env : HostEnvironment) (state : CallState)

/-- Count a call that only `reduce` may make, and find its request. -/
def request (call : HostCall) : CallState × Except String Request :=
  ({ state with hostCalls := (reducing env state.hostCalls).1 }, do
      (reducing env state.hostCalls).2
      requestOf env call)

def takeValue : CallState × Except String Answer :=
  match state.value with
  | some value => ({ state with value := none }, .ok (.value value))
  | none => (state, .error "take_value without a read or scan")

def emit (kind key : Bytes) (delete : Bool) (payload : Bytes) : CallState × Except String Answer :=
  let counted := { state with hostCalls := (reducing env state.hostCalls).1 }
  let change := do
    (reducing env state.hostCalls).2
    ensure (state.changes.length < env.limits.changes)
      ("a block may emit at most " ++ toString env.limits.changes ++ " changes")
    let change ← changeOf env kind key delete payload
    ensure (state.changeBytes + (change.kind.utf8ByteSize + change.key.length +
        change.payload.length) ≤ changeBytesLimit)
      ("a call's changes may hold at most " ++ toString changeBytesLimit ++ " bytes")
    pure change
  match change with
  | .error message => (counted, .error message)
  | .ok change =>
    ({ counted with
        changes := counted.changes ++ [change]
        changeBytes := counted.changeBytes +
          (change.kind.utf8ByteSize + change.key.length + change.payload.length) }, .ok .unit)

end CallState

def Request.size : Request → Nat
  | .write _ name key value => name.utf8ByteSize + key.length + value.length
  | _ => 0

def HostState.call (env : HostEnvironment) (host : HostState) :
    HostCall → HostState × Except Trap Answer
  | .fail message => ({ host with failure := some message }, .ok .unit)
  | .takeValue =>
    let out := host.toCallState.takeValue
    ({ host with toCallState := out.1 }, out.2.mapError .error)
  | .emit kind key delete payload =>
    let out := host.toCallState.emit env kind key delete payload
    ({ host with toCallState := out.1 }, out.2.mapError .error)
  | .write operation name key value =>
    let out := host.toCallState.request env (.write operation name key value)
    match out.2 with
    | .error message => ({ host with toCallState := out.1 }, .error (.error message))
    | .ok request =>
      let queued : HostState :=
        { host with
          toCallState := out.1
          writes := host.writes ++ [request]
          queuedBytes := host.queuedBytes + request.size }
      if queuedBytesLimit < queued.queuedBytes then
        ({ queued with pending := some .flush }, .error .suspend)
      else (queued, .ok (.number 0))
  | reading =>
    let out := host.toCallState.request env reading
    match out.2 with
    | .error message => ({ host with toCallState := out.1 }, .error (.error message))
    | .ok request =>
      ({ host with toCallState := out.1, pending := some request }, .error .suspend)

inductive ReduceError (ε : Type) where
  | guest (message : String)
  | state (message : String)
  | transaction (error : ε)

/-- `failure`: what the guest reported, or the error of its trap. -/
def CallState.guestFailure {ε : Type} (state : CallState) (error : Option String) : ReduceError ε :=
  .guest (state.failure.getD (error.getD "failed without a message"))

def outOfFuel {ε : Type} (env : HostEnvironment) : ReduceError ε :=
  .guest ("exhausted its fuel limit of " ++ toString env.limits.fuel)

/-- `last_change_per_key`: keep the last change of each key, in emission order. -/
def lastChangePerKey : List DomainChange → List DomainChange
  | [] => []
  | change :: rest =>
    if rest.any (·.key = change.key) then lastChangePerKey rest
    else change :: lastChangePerKey rest

section Drive

variable {σ ε : Type} (transaction : ReducerTransaction σ ε)

/-- What `serve` makes of the value that the transaction answers with. -/
def CallState.answer (state : CallState) : Request → Option Bytes →
    CallState × Except (ReduceError ε) Answer
  | .write .., _ | .flush, _ => (state, .ok (.number 0))
  | _, some value =>
    if value.length < 2147483648 then
      ({ state with value := some value }, .ok (.number value.length))
    else (state, .error (.state "a stored value exceeds 2 GiB"))
  | _, none => (state, .ok (.number (-1)))

def serve (request : Request) (session : Session σ Request) (state : CallState) :
    Session σ Request × CallState × Except (ReduceError ε) Answer :=
  match request with
  | .flush => (session, state, .ok (.number 0))
  | request =>
    let out := session.perform transaction.apply request
    match out.2 with
    | .error e => (out.1, state, .error (.transaction e))
    | .ok value => (out.1, state.answer request value)

def flush (session : Session σ Request) (host : HostState) :
    Session σ Request × HostState × Except (ReduceError ε) Unit :=
  let out := session.performAll transaction.apply host.writes
  match out.2 with
  | .error e => (out.1, { host with writes := [] }, .error (.transaction e))
  | .ok _ => (out.1, { host with writes := [], queuedBytes := 0 }, .ok ())

structure Reduced (σ ε : Type) where
  session : Session σ Request
  host : HostState
  answers : List Answer
  result : Except (ReduceError ε) (List DomainChange)

/-- What the driver does when a host function returns: the interpreter goes on with its result, or
the driver serves the request it left. -/
def settleCall (session : Session σ Request) (host : HostState) :
    Except Trap Answer → Session σ Request × HostState × Except (ReduceError ε) Answer
  | .ok answer => (session, host, .ok answer)
  | .error trap =>
    match host.pending with
    | none =>
      (session, host, .error (host.toCallState.guestFailure (match trap with
        | .suspend => some "suspended for a state access"
        | .error message => some message)))
    | some request =>
      match flush transaction session { host with pending := none } with
      | (flushed, host, .error e) => (flushed, host, .error e)
      | (flushed, host, .ok _) =>
        let out := serve transaction request flushed host.toCallState
        (out.1, { host with toCallState := out.2.1 }, out.2.2)

def returned (session : Session σ Request) (host : HostState) (answers : List Answer)
    (status : Nat) : Reduced σ ε :=
  if status ≠ 0 then ⟨session, host, answers, .error (host.toCallState.guestFailure none)⟩
  else
    match flush transaction session host with
    | (flushed, host, .error e) => ⟨flushed, host, answers, .error e⟩
    | (flushed, host, .ok _) => ⟨flushed, host, answers, .ok (lastChangePerKey host.changes)⟩

def drive (env : HostEnvironment) : Guest → Session σ Request → HostState → List Answer → Reduced σ ε
  | .finish status, session, host, answers => returned transaction session host answers status
  | .trap message, session, host, answers =>
    ⟨session, host, answers, .error (host.toCallState.guestFailure (some message))⟩
  | .outOfFuel, session, host, answers =>
    ⟨session, host, answers, .error (outOfFuel env)⟩
  | .call call next, session, host, answers =>
    match settleCall transaction session (host.call env call).1 (host.call env call).2 with
    | (session, host, .error e) => ⟨session, host, answers, .error e⟩
    | (session, host, .ok answer) => drive env (next answer) session host (answers ++ [answer])

def reduce (env : HostEnvironment) (guest : Guest) (s : σ) : Reduced σ ε :=
  drive transaction env guest ⟨s, []⟩ .new []

end Drive

end Leani.Wasm
