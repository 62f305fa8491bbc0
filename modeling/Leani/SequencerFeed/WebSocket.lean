import Leani.Library.BigEndian

/-!
# Messages of a sequencer feed

The frames of a WebSocket are read one after the other until a data frame ends a message. A frame's length
is checked together with the bytes collected so far, in 64 bits. The decompressor and the ends of pongs
are parameters, and so is the error that ends a stream which is not just closed.
-/

namespace Leani.SequencerFeed

open Library

def maxMessageBytes : Nat := 16 * 1024 * 1024

structure Decompressed (χ : Type) (input : List UInt8) where
  context : χ
  consumed : Nat
  consumed_le : consumed ≤ input.length
  output : List UInt8
  -- Whether the room for output is used up.
  full : Bool

structure Socket (χ : Type) where
  failure : Option String
  inflate : Option χ
  decompress : χ → (input : List UInt8) → Except String (Decompressed χ input)
  -- How a pong is sent, by the bytes that are still unread.
  write : Nat → Except String Unit

variable {χ : Type} (socket : Socket χ)

def inflateLoop (context : χ) (input output : List UInt8) : Except String (List UInt8 × χ) :=
  match socket.decompress context input with
  | .error e => .error e
  | .ok turn =>
    if maxMessageBytes < (output ++ turn.output).length then
      .error "a feed message inflates past 16 MiB"
    else if input.drop turn.consumed = [] ∧ turn.full = false then
      .ok (output ++ turn.output, turn.context)
    else if turn.consumed = 0 ∧ turn.output = [] then
      .error "a compressed feed message does not inflate"
    else inflateLoop turn.context (input.drop turn.consumed) (output ++ turn.output)
termination_by input.length + (maxMessageBytes - output.length)
decreasing_by
  rename_i hlong _ hstuck
  have := turn.consumed_le
  rw [← List.length_eq_zero_iff] at hstuck
  rw [List.length_append] at hlong ⊢
  rw [List.length_drop]
  omega

def inflate (context : χ) (data : List UInt8) : Except String (List UInt8 × χ) :=
  inflateLoop socket context (data ++ [0, 0, 0xff, 0xff]) []

structure Frame where
  fin : Bool
  rsv1 : Bool
  opcode : Nat
  payload : List UInt8
  deriving DecidableEq

inductive Outcome (χ : Type) where
  | message (bytes rest : List UInt8) (context : Option χ)
  | closed
  | error (message : String)
  | panic
  deriving DecidableEq

def readExact (count : Nat) (bytes : List UInt8) : Option (List UInt8 × List UInt8) :=
  if count ≤ bytes.length then some (bytes.take count, bytes.drop count) else none

def readNumber (width : Nat) (bytes : List UInt8) : Option (Nat × List UInt8) :=
  (readExact width bytes).map fun read => (BigEndian.number read.1, read.2)

def readLength (code : Nat) (bytes : List UInt8) : Option (Nat × List UInt8) :=
  if code = 126 then readNumber 2 bytes
  else if code = 127 then readNumber 8 bytes
  else some (code, bytes)

def eof : Outcome χ := .error (socket.failure.getD "early eof")

/-- A frame's first byte and length, with the bytes after them. -/
def readHead : List UInt8 → Outcome χ ⊕ UInt8 × Nat × List UInt8
  | first :: second :: bytes =>
    if 128 ≤ second.toNat then .inl (.error "the server masked a frame")
    else
      match readLength second.toNat bytes with
      | none => .inl (eof socket)
      | some (length, rest) => .inr (first, length, rest)
  | _ => .inl (match socket.failure with
    | none => .closed
    | some e => .error e)

/-- The sum of the lengths wraps, and an allocation of `2 ^ 63` bytes or more panics. -/
def readFrame (held : Nat) (bytes : List UInt8) : Outcome χ ⊕ Frame × List UInt8 :=
  match readHead socket bytes with
  | .inl outcome => .inl outcome
  | .inr (first, length, bytes) =>
    if (held + length) % 2 ^ 64 ≤ maxMessageBytes then
      if 2 ^ 63 ≤ length then .inl .panic
      else
        match readExact length bytes with
        | none => .inl (eof socket)
        | some (payload, rest) =>
          .inr (⟨128 ≤ first.toNat, 64 ≤ first.toNat % 128, first.toNat % 16, payload⟩, rest)
    else .inl (.error "a feed message exceeds 16 MiB")

structure Reading where
  message : List UInt8
  compressed : Bool
  bytes : List UInt8
  deriving DecidableEq

def Frame.opens (frame : Frame) : Bool := frame.opcode = 1 || frame.opcode = 2

def Reading.take (reading : Reading) (frame : Frame) (rest : List UInt8) : Reading :=
  if frame.opens then ⟨frame.payload, frame.rsv1, rest⟩
  else if frame.opcode = 0 then ⟨reading.message ++ frame.payload, reading.compressed, rest⟩
  else { reading with bytes := rest }

def send (payload : List UInt8) (unread : Nat) : Except String Unit :=
  if payload.length ≤ 125 then socket.write unread
  else .error "a control frame payload exceeds 125 bytes"

def Outcome.ofInflated (rest : List UInt8) : Except String (List UInt8 × χ) → Outcome χ
  | .error e => .error e
  | .ok (bytes, context) => .message bytes rest (some context)

def finish (reading : Reading) : Outcome χ :=
  if reading.compressed then
    match socket.inflate with
    | none => .error "a compressed message without permessage-deflate"
    | some context => .ofInflated reading.bytes (inflate socket context reading.message)
  else .message reading.message reading.bytes socket.inflate

/-- How the call ends with a frame, if it does. -/
def endsWith (reading : Reading) (frame : Frame) (rest : List UInt8) : Option (Outcome χ) :=
  if frame.opcode = 8 then some .closed
  else if frame.opcode = 9 then
    match send socket frame.payload rest.length with
    | .error e => some (.error e)
    | .ok _ => none
  else if frame.opcode = 10 then none
  else if frame.opens || frame.opcode = 0 then
    if frame.fin then some (finish socket (reading.take frame rest)) else none
  else some (.error ("unknown frame opcode 0x" ++ String.ofList (Nat.toDigits 16 frame.opcode)))

/-- One turn of the loop of `next_message`. -/
def step (reading : Reading) : Outcome χ ⊕ Reading :=
  match readFrame socket reading.message.length reading.bytes with
  | .inl outcome => .inl outcome
  | .inr (frame, rest) =>
    match endsWith socket reading frame rest with
    | some outcome => .inl outcome
    | none => .inr (reading.take frame rest)

variable {socket} {held length : Nat} {bytes rest : List UInt8} {first : UInt8} {frame : Frame}

theorem readExact_eq_some {taken : List UInt8} (h : readExact length bytes = some (taken, rest)) :
    taken.length = length ∧ rest.length ≤ bytes.length := by
  rw [readExact] at h
  split at h
  · cases h; rw [List.length_take, List.length_drop]; omega
  · cases h

theorem readLength_eq_some {code : Nat} (hcode : code < 128) (h : readLength code bytes =
    some (length, rest)) : length < 2 ^ 64 ∧ rest.length ≤ bytes.length := by
  have hnum : ∀ {width : Nat}, width ≤ 8 → readNumber width bytes = some (length, rest) →
      length < 2 ^ 64 ∧ rest.length ≤ bytes.length := by
    intro width hwidth h
    obtain ⟨⟨taken, rest⟩, hread, heq⟩ := Option.map_eq_some_iff.1 h
    cases heq
    obtain ⟨htaken, hrest⟩ := readExact_eq_some hread
    refine ⟨(BigEndian.number_lt taken).trans_le ?_, hrest⟩
    rw [htaken]; exact Nat.pow_le_pow_right (by decide) hwidth
  rw [readLength] at h
  split at h
  · exact hnum (by decide) h
  · split at h
    · exact hnum (Nat.le_refl 8) h
    · cases h; exact ⟨by omega, Nat.le_refl _⟩

theorem readHead_eq_inr (h : readHead socket bytes = .inr (first, length, rest)) :
    length < 2 ^ 64 ∧ rest.length + 2 ≤ bytes.length := by
  rw [readHead.eq_def] at h
  split at h
  · split at h
    · cases h
    · rename_i hcode
      split at h
      · cases h
      · rename_i hlen
        cases h
        have := readLength_eq_some (Nat.lt_of_not_le hcode) hlen
        rw [List.length_cons, List.length_cons]; omega
  · cases h

/-- The stream has ended, or an error is reported. -/
def Outcome.Stops : Outcome χ → Prop
  | .closed | .error _ => True
  | .message .. | .panic => False

theorem readHead_eq_inl {outcome : Outcome χ} (h : readHead socket bytes = .inl outcome) :
    outcome.Stops := by
  rw [readHead.eq_def] at h
  split at h
  · split at h
    · cases h; trivial
    · split at h
      · cases h; trivial
      · cases h
  · cases h
    split
    · trivial
    · trivial

theorem readFrame_eq_inr (h : readFrame socket held bytes = .inr (frame, rest)) : rest.length <
    bytes.length ∧ (held ≤ maxMessageBytes → held + frame.payload.length ≤ maxMessageBytes) := by
  rw [readFrame] at h
  split at h
  · cases h
  · rename_i hhead
    have hlen := readHead_eq_inr hhead
    split at h
    · split at h
      · cases h
      · split at h
        · cases h
        · rename_i hread
          cases h
          have := readExact_eq_some hread
          rw [maxMessageBytes] at *
          refine ⟨by omega, fun _ => ?_⟩
          dsimp only; omega
    · cases h

/-- A length that wraps is too large to allocate, and others that are, are refused. -/
theorem readFrame_eq_inl {outcome : Outcome χ} (hheld : held ≤ maxMessageBytes)
    (h : readFrame socket held bytes = .inl outcome) : outcome.Stops ∨ outcome = .panic ∧
      ∃ first length rest, readHead socket bytes = .inr (first, length, rest) ∧
        2 ^ 64 ≤ held + length := by
  rw [readFrame] at h
  split at h
  · cases h; exact .inl (readHead_eq_inl ‹_›)
  · rename_i first length rest hhead
    have hlen := (readHead_eq_inr hhead).1
    rw [maxMessageBytes] at hheld h
    split at h
    · split at h
      · cases h; exact .inr ⟨rfl, first, length, rest, hhead, by omega⟩
      · split at h
        · cases h; exact .inl trivial
        · cases h
    · cases h; exact .inl trivial

variable {reading reading' : Reading}

@[simp] theorem take_bytes : (reading.take frame rest).bytes = rest := by
  rw [Reading.take]
  split
  · rfl
  · split
    · rfl
    · rfl

theorem step_eq_inr (h : step socket reading = .inr reading') : ∃ frame rest,
    readFrame socket reading.message.length reading.bytes = .inr (frame, rest) ∧
      reading' = reading.take frame rest := by
  rw [step] at h
  split at h
  · cases h
  · split at h
    · cases h
    · exact ⟨_, _, ‹_›, (Sum.inr.inj h).symm⟩

theorem step_lt (h : step socket reading = .inr reading') :
    reading'.bytes.length < reading.bytes.length := by
  obtain ⟨_, _, hframe, rfl⟩ := step_eq_inr h; rw [take_bytes]; exact (readFrame_eq_inr hframe).1

variable (socket) in
def nextMessageFrom (reading : Reading) : Outcome χ :=
  match _h : step socket reading with
  | .inl outcome => outcome
  | .inr reading' => nextMessageFrom reading'
termination_by reading.bytes.length
decreasing_by exact step_lt ‹_›

variable (socket) in
def nextMessage (bytes : List UInt8) : Outcome χ := nextMessageFrom socket ⟨[], false, bytes⟩

theorem step_eq_inl {outcome : Outcome χ} (h : step socket reading = .inl outcome) :
    readFrame socket reading.message.length reading.bytes = .inl outcome ∨
    ∃ frame rest, readFrame socket reading.message.length reading.bytes = .inr (frame, rest) ∧
      (outcome.Stops ∨ frame.fin = true ∧ (frame.opens = true ∨ frame.opcode = 0) ∧
        outcome = finish socket (reading.take frame rest)) := by
  rw [step] at h
  split at h
  · cases h; exact .inl ‹_›
  · rename_i frame rest hfrm
    refine .inr ⟨frame, rest, hfrm, ?_⟩
    split at h
    · rename_i hends
      cases h
      rw [endsWith] at hends
      split at hends
      · cases hends; exact .inl trivial
      · split at hends
        · split at hends
          · cases hends; exact .inl trivial
          · cases hends
        · split at hends
          · cases hends
          · split at hends
            · rename_i hdata
              split at hends
              · rename_i hfin; exact .inr ⟨hfin, by simpa using hdata, (Option.some.inj hends).symm⟩
              · cases hends
            · cases hends; exact .inl trivial
    · cases h

variable (socket bytes) in
/-- The frames read so far, newest first, with the state after them. -/
inductive Reached : List Frame → Reading → Prop
  | start : Reached [] ⟨[], false, bytes⟩
  | read {frames : List Frame} {reading reading' : Reading} {frame : Frame} {rest : List UInt8}
      (h : Reached frames reading)
      (hframe : readFrame socket reading.message.length reading.bytes = .inr (frame, rest))
      (hstep : step socket reading = .inr reading') : Reached (frame :: frames) reading'

/-- The data frames since the newest one that opens a message. -/
def current : List Frame → List Frame
  | [] => []
  | frame :: older =>
    if frame.opens then [frame]
    else if frame.opcode = 0 then current older ++ [frame]
    else current older

def marked (frames : List Frame) : Bool := frames.head?.any fun frame => frame.opens && frame.rsv1

def collected (frames : List Frame) (rest : List UInt8) : Reading :=
  ⟨(current frames).flatMap (·.payload), marked (current frames), rest⟩

variable {frames : List Frame}

theorem take_collected {older : List UInt8} (frame : Frame) :
    (collected frames older).take frame rest = collected (frame :: frames) rest := by
  rw [Reading.take, collected, collected, current]
  split
  · rename_i hopens; simp [marked, hopens]
  · rename_i hopens
    split
    · rw [List.flatMap_append, marked, marked]
      cases current frames with
      | nil => simp [hopens]
      | cons first others => simp
    · rfl

theorem Reached.collected (h : Reached socket bytes frames reading) :
    reading = collected frames reading.bytes ∧ reading.message.length ≤ maxMessageBytes := by
  induction h with
  | start => exact ⟨rfl, Nat.zero_le _⟩
  | read h hframe hstep ih =>
    obtain ⟨_, _, hframe', rfl⟩ := step_eq_inr hstep
    cases hframe.symm.trans hframe'
    have hfits := (readFrame_eq_inr hframe).2 ih.2
    refine ⟨?_, ?_⟩
    · rw [take_bytes, ih.1, take_collected]
    · rw [Reading.take]
      split
      · exact (Nat.le_add_left ..).trans hfits
      · split
        · exact (List.length_append ..).trans_le hfits
        · exact ih.2

theorem nextMessageFrom_eq : nextMessageFrom socket reading = match step socket reading with
    | .inl outcome => outcome
    | .inr reading' => nextMessageFrom socket reading' := by
  rw [nextMessageFrom]
  split
  · rename_i h; rw [h]
  · rename_i h; rw [h]

theorem Reached.next (h : Reached socket bytes frames reading) :
    nextMessage socket bytes = nextMessageFrom socket reading := by
  induction h with
  | start => rfl
  | read h hframe hstep ih => rw [ih, nextMessageFrom_eq, hstep]

theorem Reached.last (h : Reached socket bytes frames reading) : ∃ frames' reading',
    Reached socket bytes frames' reading' ∧ step socket reading' = .inl (nextMessage socket bytes) := by
  induction hlen : reading.bytes.length using Nat.strongRecOn generalizing frames reading with
  | ind unread ih =>
    cases hstep : step socket reading with
    | inl outcome => exact ⟨_, _, h, by rw [h.next, nextMessageFrom_eq, hstep]⟩
    | inr reading' =>
      obtain ⟨_, _, hframe, -⟩ := step_eq_inr hstep
      exact ih _ (hlen ▸ step_lt hstep) (h.read hframe hstep) rfl

/-- What a call should do for a stream: it ends without a panic, and a message is made of one message's data
frames, inflated as a whole if the first is marked. Lengths are summed up exactly, within the limit. -/
structure Meets (socket : Socket χ) (bytes : List UInt8) : Prop where
  ends : nextMessage socket bytes ≠ .panic
  made : ∀ message rest context, nextMessage socket bytes = .message message rest context →
    ∃ frame frames reading rest, Reached socket bytes frames reading ∧
      readFrame socket reading.message.length reading.bytes = .inr (frame, rest) ∧ frame.fin = true ∧
      (frame.opens = true ∨ frame.opcode = 0) ∧
      nextMessage socket bytes = finish socket (collected (frame :: frames) rest)
  sums : ∀ frames reading first length rest, Reached socket bytes frames reading →
    readHead socket reading.bytes = .inr (first, length, rest) →
      (reading.message.length + length) % 2 ^ 64 = reading.message.length + length
  held : ∀ frames reading frame rest, Reached socket bytes frames reading →
    readFrame socket reading.message.length reading.bytes = .inr (frame, rest) →
      reading.message.length + frame.payload.length ≤ maxMessageBytes

theorem finish_ne_panic : finish socket reading ≠ .panic := by
  have hinflated : ∀ inflated : Except String (List UInt8 × χ),
      Outcome.ofInflated reading.bytes inflated ≠ .panic := by
    intro inflated
    cases inflated with
    | error e => nofun
    | ok inflated => nofun
  rw [finish]
  split
  · split
    · nofun
    · exact hinflated _
  · nofun

def plainSocket : Socket Unit where
  failure := none
  inflate := none
  decompress context _ := .ok ⟨context, 0, Nat.zero_le _, [], false⟩
  write _ := .ok ()

/-- A text frame of one byte that is not the last, and the head of a continuation. -/
def wrappingBytes : List UInt8 := [1, 1, 65, 128, 127, 255, 255, 255, 255, 255, 255, 255, 255]

end Leani.SequencerFeed
