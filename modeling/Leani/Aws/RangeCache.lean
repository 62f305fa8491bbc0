import Leani.Aws.RangeRing

/-!
# The range cache

Byte ranges of a dataset's objects kept on temporary disk. A read looks its ranges up, fetches the
missing ones that no other read fetches, waits for the others, and keeps what it fetched; a range read
again near the head is written anew. Looking up, reading the file, confirming (and perhaps relocating)
what was read, claiming room, writing the file and marking an entry as written are steps of their own,
and other reads step in between. A reader that is dropped leaves its reading and writing behind, which
go on.
-/

namespace Leani.Aws

open Library Std

abbrev Bytes := List UInt8

inductive WritePhase where
  | pending
  | landed
  | failed
  | marked
  deriving DecidableEq

structure WriteJob where
  key : Key
  entry : Entry
  bytes : Bytes
  phase : WritePhase

inductive Turn where
  | looking (late : Bool)
  | reading (late : Bool) (entry : Entry)
  | loaded (late : Bool) (entry : Entry) (bytes : Bytes)
  | missing
  | fetching (gate : Nat)
  | kept (gate : Nat) (bytes : Bytes)
  | waiting (gate : Nat)
  | again
  | found (bytes : Bytes)
  deriving DecidableEq

namespace Turn

def held : Turn → Option Nat
  | fetching gate => some gate
  | kept gate _ => some gate
  | _ => none

def looked : Turn → Bool
  | missing => true
  | found _ => true
  | _ => false

def waited : Turn → Bool
  | again => true
  | found _ => true
  | _ => false

def miss (late : Bool) : Turn := if late then again else missing

def firstFetch : Turn → Option (Bytes → Turn)
  | fetching gate => some (kept gate)
  | _ => none

def lateFetch : Turn → Option (Bytes → Turn)
  | again => some found
  | _ => none

def released : Turn → Turn
  | kept _ bytes => found bytes
  | fetching _ => missing
  | turn => turn

end Turn

structure Call where
  alive : Bool
  ranges : List (Key × Turn)

structure RangeCache where
  ring : Ring
  file : Nat → UInt8
  writes : Table Nat WriteJob
  puts : List (Key × Bytes)
  calls : Table Nat Call
  flights : Table Key Nat
  gates : Nat
  fetched : List (Key × Bytes)

namespace RangeCache

def empty : RangeCache := ⟨.empty, fun _ => 0, ∅, [], ∅, ∅, 0, []⟩

def readAt (file : Nat → UInt8) (offset len : Nat) : Bytes :=
  (List.range len).map fun i => file (offset + i)

def writeAt (file : Nat → UInt8) (offset : Nat) (bytes : Bytes) : Nat → UInt8 := fun i =>
  if offset ≤ i ∧ i < offset + bytes.length then bytes.getD (i - offset) 0 else file i

variable (capacity : Nat) (s : RangeCache)

def claimWrite (key : Key) (bytes : Bytes) : RangeCache :=
  let claimed := s.ring.claim key bytes.length capacity
  { s with
    ring := claimed.1
    writes := s.writes.insert claimed.2.id ⟨key, claimed.2, bytes, .pending⟩ }

def atTurn (c i : Nat) (f : Key → Turn → Option (RangeCache × Turn)) : Option RangeCache :=
  match s.calls[c]? with
  | none => none
  | some call => match call.ranges[i]? with
    | none => none
    | some (key, turn) => (f key turn).map fun out =>
      { out.1 with calls := out.1.calls.insert c { call with ranges := call.ranges.set i (key, out.2) } }

def atCall (c : Nat) (f : Call → Option (RangeCache × Call)) : Option RangeCache :=
  match s.calls[c]? with
  | none => none
  | some call =>
    if call.alive then (f call).map fun out => { out.1 with calls := out.1.calls.insert c out.2 }
    else none

def look (key : Key) : Turn → Option (RangeCache × Turn)
  | .looking late => match s.ring.entries[key]? with
    | some entry => some (s, if entry.written then .reading late entry else .miss late)
    | none => some (s, .miss late)
  | _ => none

def load (read : Bool) : Turn → Option (RangeCache × Turn)
  | .reading late entry =>
    some (s, if read then .loaded late entry (readAt s.file entry.offset entry.len) else .miss late)
  | _ => none

def near (entry : Entry) : Bool :=
  (entry.offset + capacity - s.ring.head) % capacity < capacity / 2

/-- The check of `get_one`: an entry overwritten while it was read is forgotten by now. -/
def confirm (key : Key) : Turn → Option (RangeCache × Turn)
  | .loaded late entry bytes =>
    if (s.ring.entries[key]?).map Entry.id = some entry.id then
      some (if s.near capacity entry then s.claimWrite capacity key bytes else s, .found bytes)
    else some (s, .miss late)
  | _ => none

/-- `fly`: which of the missing ranges this caller fetches. -/
def fly (flights : Table Key Nat) (gates : Nat) :
    List (Key × Turn) → List (Key × Turn) × Table Key Nat × Nat
  | [] => ([], flights, gates)
  | (key, .missing) :: rest => match flights[key]? with
    | some gate =>
      let out := fly flights gates rest
      ((key, .waiting gate) :: out.1, out.2)
    | none =>
      let out := fly (flights.insert key gates) (gates + 1) rest
      ((key, .fetching gates) :: out.1, out.2)
  | range :: rest =>
    let out := fly flights gates rest
    (range :: out.1, out.2)

def deliver (takes : Turn → Option (Bytes → Turn)) :
    List (Key × Turn) → List Bytes → List (Key × Turn) × List (Key × Bytes)
  | [], _ => ([], [])
  | (key, turn) :: rest, results => match takes turn, results with
    | some next, bytes :: results =>
      let out := deliver takes rest results
      ((key, next bytes) :: out.1, (key, bytes) :: out.2)
    | _, results =>
      let out := deliver takes rest results
      ((key, turn) :: out.1, out.2)

def fetch (takes : Turn → Option (Bytes → Turn)) (results : List Bytes) (call : Call) :
    Option (RangeCache × Call) :=
  if (call.ranges.filter fun range => (takes range.2).isSome).length = results.length then
    let out := deliver takes call.ranges results
    some ({ s with puts := s.puts ++ out.2, fetched := s.fetched ++ out.2 },
      { call with ranges := out.1 })
  else none

def dropFlight (flights : Table Key Nat) (range : Key × Turn) : Table Key Nat :=
  match range.2.held with
  | none => flights
  | some gate => if flights[range.1]? = some gate then flights.erase range.1 else flights

def dropFlights (call : Call) (alive : Bool) : RangeCache × Call :=
  ({ s with flights := call.ranges.foldl dropFlight s.flights },
    ⟨alive, call.ranges.map fun range => (range.1, range.2.released)⟩)

def isHeld (gate : Nat) : Bool := s.calls.toList.any fun row =>
  row.2.ranges.any fun range => range.2.held = some gate

def put (n : Nat) : Option RangeCache :=
  match s.puts[n]? with
  | none => none
  | some (key, bytes) =>
    let rest := { s with puts := s.puts.eraseIdx n }
    if bytes.length = 0 ∨ capacity < bytes.length ∨ key ∈ s.ring.entries then some rest
    else some (rest.claimWrite capacity key bytes)

/-- The file write: all bytes, or the first `count` where it fails. -/
def land (id : Nat) (written : Bool) (count : Nat) : Option RangeCache :=
  match s.writes[id]? with
  | none => none
  | some job => match job.phase with
    | .pending =>
      let bytes := if written then job.bytes else job.bytes.take count
      some { s with
        file := writeAt s.file job.entry.offset bytes
        writes := s.writes.insert id { job with phase := if written then .landed else .failed } }
    | _ => none

/-- The end of `write`: the entry is marked, or forgotten. -/
def markWritten (id : Nat) : Option RangeCache :=
  match s.writes[id]? with
  | none => none
  | some job => match job.phase with
    | .landed => some { s with
        ring := s.ring.mark job.key id true
        writes := s.writes.insert id { job with phase := .marked } }
    | .failed => some { s with
        ring := s.ring.mark job.key id false
        writes := s.writes.insert id { job with phase := .marked } }
    | _ => none

end RangeCache

inductive Action where
  | start (c : Nat) (keys : List Key)
  | look (c i : Nat)
  | load (c i : Nat) (read : Bool)
  | confirm (c i : Nat)
  | fly (c : Nat)
  | fetched (c : Nat) (results : List Bytes)
  | release (c : Nat)
  | pass (c i : Nat)
  | refetched (c : Nat) (results : List Bytes)
  | stop (c : Nat)
  | put (n : Nat)
  | land (id : Nat) (written : Bool) (count : Nat)
  | mark (id : Nat)

namespace RangeCache

variable (capacity : Nat) (s : RangeCache)

def flyCall (call : Call) : Option (RangeCache × Call) :=
  if call.ranges.all fun range => range.2.looked then
    let out := fly s.flights s.gates call.ranges
    some ({ s with flights := out.2.1, gates := out.2.2 }, { call with ranges := out.1 })
  else none

def releaseCall (call : Call) : Option (RangeCache × Call) :=
  if call.ranges.all fun range => (range.2.firstFetch).isNone then some (s.dropFlights call true)
  else none

def passGate (call : Call) : Turn → Option (RangeCache × Turn)
  | .waiting gate =>
    if call.alive ∧ call.ranges.all (fun range => range.2.held = none) ∧ ¬ s.isHeld gate then
      some (s, .looking true)
    else none
  | _ => none

def step : Action → Option RangeCache
  | .start c keys =>
    if c ∈ s.calls then none
    else some { s with
      calls := s.calls.insert c ⟨true, keys.map fun key => (key, .looking false)⟩ }
  | .look c i => s.atTurn c i s.look
  | .load c i read => s.atTurn c i fun _ => s.load read
  | .confirm c i => s.atTurn c i (s.confirm capacity)
  | .fly c => s.atCall c s.flyCall
  | .fetched c results => s.atCall c (s.fetch Turn.firstFetch results)
  | .release c => s.atCall c s.releaseCall
  | .pass c i => s.atTurn c i fun _ turn =>
    (s.calls[c]?).bind fun call => s.passGate call turn
  | .refetched c results => s.atCall c fun call =>
    if call.ranges.all fun range => range.2.waited then s.fetch Turn.lateFetch results call else none
  | .stop c => s.atCall c fun call => some (s.dropFlights call false)
  | .put n => s.put capacity n
  | .land id written count => s.land id written count
  | .mark id => s.markWritten id

end RangeCache

end Leani.Aws
