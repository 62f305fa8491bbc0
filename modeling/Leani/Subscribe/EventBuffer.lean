import Leani.Library.EventStream

/-!
# Incremental parsing of event streams

The buffer parses what was received of an event stream, however it was cut into chunks, as the whole stream
is interpreted, and searches no byte for a line end twice. A text is its UTF-8 bytes. No sum comes near
the largest `usize`.
-/

namespace Leani.Subscribe

open Library.EventStream List Bool

def maxFrameBytes : Nat := 1024 * 1024

def utf8 (line : Line) : Bool := (String.fromUTF8? ⟨line.toArray⟩).isSome

/-- The buffer, with the bytes taken from its front so far, and the positions in the stream that were
searched for a line end, where the test build counts them. -/
structure EventBuffer where
  bytes : List UInt8 := []
  scanned : Nat := 0
  pendingLf : Bool := false
  started : Bool := false
  eventBytes : Nat := 0
  eventType : List UInt8 := []
  data : List UInt8 := []
  taken : Nat := 0
  examined : List Nat := []

namespace EventBuffer

variable (buffer : EventBuffer)

def push (chunk : List UInt8) : EventBuffer := { buffer with bytes := buffer.bytes ++ chunk }

/-- The start of the stream: `none` with too few bytes yet to tell a byte-order mark apart. -/
def start? : Option EventBuffer :=
  if buffer.started then some buffer
  else if buffer.bytes.length < byteOrderMark.length ∧ buffer.bytes <+: byteOrderMark then none
  else if byteOrderMark <+: buffer.bytes then
    some { buffer with bytes := buffer.bytes.drop 3, taken := buffer.taken + 3, started := true }
  else some { buffer with started := true }

def skipLf : EventBuffer :=
  if buffer.pendingLf && !buffer.bytes.isEmpty then
    if buffer.bytes.head? = some 10 then
      { buffer with pendingLf := false, bytes := buffer.bytes.tail, taken := buffer.taken + 1 }
    else { buffer with pendingLf := false }
  else buffer

def checkFrameSize (partialLine : Nat) : Except StreamError Unit :=
  if maxFrameBytes < buffer.eventBytes + partialLine then .error .tooLong else .ok ()

def endLen (rest : List UInt8) : Nat := if [13, 10] <+: rest then 2 else 1

/-- The search of `next_line` for a line end, and the line. -/
def searchLine : EventBuffer × Except StreamError (Option Line) :=
  let unscanned := buffer.bytes.drop buffer.scanned
  match unscanned.findIdx? isEnd with
  | none =>
    let examined := buffer.examined ++ List.range' (buffer.taken + buffer.scanned) unscanned.length
    let buffer := { buffer with examined, scanned := buffer.bytes.length }
    (buffer, (buffer.checkFrameSize buffer.bytes.length).map fun _ => none)
  | some offset =>
    let examined := buffer.examined ++ List.range' (buffer.taken + buffer.scanned) (offset + 1)
    let buffer := { buffer with examined }
    let ending := buffer.scanned + offset
    match buffer.checkFrameSize ending with
    | .error error => (buffer, .error error)
    | .ok () =>
      let rest := buffer.bytes.drop ending
      ({ buffer with
          bytes := rest.drop (endLen rest)
          pendingLf := rest = [13]
          scanned := 0
          eventBytes := buffer.eventBytes + (ending + 1)
          taken := buffer.taken + (ending + endLen rest) },
        .ok (some (buffer.bytes.take ending)))

def nextLine : EventBuffer × Except StreamError (Option Line) :=
  match buffer.start? with
  | none => (buffer, .ok none)
  | some started => started.skipLf.searchLine

def field (line : Line) : Except StreamError EventBuffer :=
  if utf8 line then
    let parsed := nameAndValue line
    .ok (if parsed.1 = ascii "event" then { buffer with eventType := parsed.2 }
      else if parsed.1 = ascii "data" then { buffer with data := buffer.data ++ parsed.2 ++ [10] }
      else buffer)
  else .error .notText

def dispatch : EventBuffer × Option Event :=
  let reset := { buffer with eventBytes := 0, eventType := [], data := [] }
  if buffer.data = [] then (reset, none)
  else
    let data := if buffer.data.getLast? = some 10 then buffer.data.dropLast else buffer.data
    (reset, some { name := if buffer.eventType = [] then none else some buffer.eventType, data })

theorem length_skipLf : buffer.skipLf.bytes.length ≤ buffer.bytes.length := by
  rw [skipLf]
  split
  · split
    · exact length_tail ▸ Nat.sub_le _ _
    · exact Nat.le_refl _
  · exact Nat.le_refl _

theorem length_start {buf started : EventBuffer} (h : buf.start? = some started) :
    started.bytes.length ≤ buf.bytes.length := by
  rw [start?] at h
  split at h
  · cases h; exact Nat.le_refl _
  · split at h
    · cases h
    · split at h
      · cases h; exact length_drop ▸ Nat.sub_le _ _
      · cases h; exact Nat.le_refl _

variable {line : Line}

variable {buffer' : EventBuffer}

theorem searchLine_shorter {buf : EventBuffer} (h : buf.searchLine =
    (buf', .ok (some line))) : buf'.bytes.length < buf.bytes.length := by
  rw [searchLine] at h
  dsimp only at h
  split at h
  · rename_i hfound
    revert h
    rw [checkFrameSize]
    split
    · intro h; cases h
    · intro h; cases h
  · rename_i off hfound
    obtain ⟨hlt, -⟩ := findIdx?_eq_some_iff_getElem.1 hfound
    rw [length_drop] at hlt
    split at h
    · cases h
    · cases h
      rw [length_drop, length_drop, endLen]
      split
      · omega
      · omega

theorem nextLine_shorter {buf : EventBuffer} (h : buf.nextLine = (buf', .ok (some line))) :
    buf'.bytes.length < buf.bytes.length := by
  rw [nextLine] at h
  split at h
  · cases h
  · rename_i started hbegun
    have hline := searchLine_shorter h
    have hskip := started.length_skipLf
    have hstart := length_start hbegun; omega

theorem dispatch_bytes : buffer.dispatch.1.bytes = buffer.bytes := by
  rw [dispatch]
  split <;> rfl

theorem field_bytes {buf : EventBuffer} (h : buf.field line = .ok buf') :
    buf'.bytes = buf.bytes := by
  rw [field] at h
  split at h
  · cases h; simp only [apply_ite EventBuffer.bytes, ite_self]
  · cases h

/-- The next complete event, `none` until more bytes arrive. -/
def nextEvent (buffer : EventBuffer) : EventBuffer × Except StreamError (Option Event) :=
  match _hline : buffer.nextLine with
  | (buffer', .error error) => (buffer', .error error)
  | (buffer', .ok none) => (buffer', .ok none)
  | (buffer', .ok (some line)) =>
    if line = [] then
      match _hevent : buffer'.dispatch with
      | (buffer'', some event) => (buffer'', .ok (some event))
      | (buffer'', none) => nextEvent buffer''
    else
      match _hfield : buffer'.field line with
      | .error error => (buffer', .error error)
      | .ok buffer'' => nextEvent buffer''
termination_by buffer.bytes.length
decreasing_by
  · have hbytes := buffer'.dispatch_bytes
    rw [_hevent] at hbytes
    exact hbytes ▸ nextLine_shorter _hline
  · exact field_bytes _hfield ▸ nextLine_shorter _hline

theorem nextEvent_shorter {buf : EventBuffer} {event : Event} (h : buf.nextEvent =
    (buf', .ok (some event))) : buf'.bytes.length < buf.bytes.length := by
  fun_induction nextEvent buf with
  | case1 => cases h
  | case2 => cases h
  | case3 buf next reset found hevent hline =>
    cases h
    have hbytes := next.dispatch_bytes; rw [hevent] at hbytes; exact hbytes ▸ nextLine_shorter hline
  | case4 buf next reset hevent hline ih =>
    have hbytes := next.dispatch_bytes
    rw [hevent] at hbytes
    have hrest := ih h; rw [hbytes] at hrest; exact Nat.lt_trans hrest (nextLine_shorter hline)
  | case5 => cases h
  | case6 buf next line hline hne next' hfield ih =>
    have hrest := ih h
    rw [field_bytes hfield] at hrest; exact Nat.lt_trans hrest (nextLine_shorter hline)

def drain (buffer : EventBuffer) : EventBuffer × List Event × Option StreamError :=
  match _hevent : buffer.nextEvent with
  | (buffer', .error error) => (buffer', [], some error)
  | (buffer', .ok none) => (buffer', [], none)
  | (buffer', .ok (some event)) =>
    let out := drain buffer'
    (out.1, event :: out.2.1, out.2.2)
termination_by buffer.bytes.length
decreasing_by exact nextEvent_shorter _hevent

def receive (buffer : EventBuffer) : List (List UInt8) → EventBuffer × List Event × Option StreamError
  | [] => (buffer, [], none)
  | chunk :: chunks =>
    match (buffer.push chunk).drain with
    | (buffer', events, some error) => (buffer', events, some error)
    | (buffer', events, none) =>
      let out := receive buffer' chunks
      (out.1, events ++ out.2.1, out.2.2)

def text (buffer : EventBuffer) (future : List UInt8) : List UInt8 :=
  let bytes := buffer.bytes ++ future
  if buffer.started then if buffer.pendingLf then dropLf bytes else bytes else dropMark bytes

def outcome (buffer : EventBuffer) (block : List Line) (future : List UInt8) :
    List Event × Option StreamError :=
  interpret maxFrameBytes utf8 block (splitLines (buffer.text future)).1
    (splitLines (buffer.text future)).2

structure Searched (buffer : EventBuffer) (received : Nat) : Prop where
  ordered : buffer.examined.Pairwise (· < ·)
  examined : ∀ position ∈ buffer.examined, position < received

structure Scans (buffer : EventBuffer) (received : Nat) : Prop where
  scanned : buffer.scanned ≤ buffer.bytes.length
  noEnd : ∀ byte ∈ buffer.bytes.take buffer.scanned, isEnd byte = false
  fresh : buffer.started = false →
    buffer.scanned = 0 ∧ buffer.pendingLf = false ∧ buffer.eventBytes = 0
  pending : buffer.pendingLf = true → buffer.scanned = 0
  received : buffer.taken + buffer.bytes.length = received
  searched : buffer.Searched (buffer.taken + buffer.scanned)

structure Assembles (buffer : EventBuffer) (block : List Line) : Prop where
  eventBytes : buffer.eventBytes = blockBytes block
  eventType : buffer.eventType = (values (ascii "event") block).getLast?.getD []
  data : buffer.data = (values (ascii "data") block).flatMap (· ++ [10])

inductive LineRead (buffer : EventBuffer) (received : Nat) (block : List Line) :
    EventBuffer × Except StreamError (Option Line) → Prop where
  | more {next : EventBuffer} : next.Scans received → next.Assembles block →
    (∀ future, next.text future = buffer.text future) → next.outcome block [] = ([], none) →
      LineRead buffer received block (next, .ok none)
  | tooLong {next : EventBuffer} : next.Searched received → (∀ future, buffer.outcome block future =
    ([], some .tooLong)) → LineRead buffer received block (next, .error .tooLong)
  | line {next : EventBuffer} {line : Line} : next.Scans received →
    blockBytes block + line.length ≤ maxFrameBytes → (∀ future, splitLines (buffer.text future) =
    (line :: (splitLines (next.text future)).1, (splitLines (next.text future)).2)) →
    next.eventBytes = blockBytes block + (line.length + 1) → next.eventType = buffer.eventType →
    next.data = buffer.data → LineRead buffer received block (next, .ok (some line))

inductive EventRead (buffer : EventBuffer) (received : Nat) (block : List Line) :
    EventBuffer × Except StreamError (Option Event) → Prop where
  | more {next : EventBuffer} {block' : List Line} : next.Scans received →
    next.Assembles block' → (∀ future, buffer.outcome block future = next.outcome block' future) →
    next.outcome block' [] = ([], none) → EventRead buffer received block (next, .ok none)
  | error {next : EventBuffer} {error : StreamError} : next.Searched received →
    (∀ future, buffer.outcome block future = ([], some error)) →
      EventRead buffer received block (next, .error error)
  | event {next : EventBuffer} {event : Event} : next.Scans received → next.Assembles [] → (∀ future,
    buffer.outcome block future = (event :: (next.outcome [] future).1, (next.outcome [] future).2)) →
    EventRead buffer received block (next, .ok (some event))

variable {buffer : EventBuffer} {received : Nat} {block : List Line}

theorem text_started (h : buffer.started = true) (fut : List UInt8) : buffer.text fut =
    if buffer.pendingLf then dropLf (buffer.bytes ++ fut) else buffer.bytes ++ fut := by
  rw [text, if_pos h]

theorem text_unstarted (h : buffer.started = false) (fut : List UInt8) :
    buffer.text fut = dropMark (buffer.bytes ++ fut) := by
  rw [text, h, if_neg Bool.false_ne_true]

theorem Searched.later (h : buffer.Searched received) (count : Nat) :
    (buffer.examined ++ range' received count).Pairwise (· < ·) ∧
      ∀ pos ∈ buffer.examined ++ range' received count, pos < received + count := by
  have hnew : ∀ pos ∈ range' received count,
      received ≤ pos ∧ pos < received + count := fun pos hmem => by
    simpa using mem_range'_1.1 hmem
  refine ⟨pairwise_append.2 ⟨h.ordered, pairwise_lt_range', fun old hold new hmem =>
    Nat.lt_of_lt_of_le (h.examined old hold) (hnew new hmem).1⟩, fun pos hmem => ?_⟩
  rcases mem_append.1 hmem with hmem | hmem
  · exact Nat.lt_of_lt_of_le (h.examined pos hmem) (Nat.le_add_right _ _)
  · exact (hnew pos hmem).2

theorem dropMark_short {bytes : List UInt8} (h : bytes.length < byteOrderMark.length) :
    dropMark bytes = bytes := by
  rw [dropMark, if_neg]; exact fun hmark => absurd hmark.length_le (Nat.not_le.2 h)

/-- Bytes taken from the front where none is searched yet. -/
theorem Scans.advance (h : buffer.Scans received) (hscan : buffer.scanned = 0) (count : Nat)
    (hlen : count ≤ buffer.bytes.length) {started : Bool} (hbegun : started = true) (pendingLf : Bool) :
    { buffer with
      bytes := buffer.bytes.drop count
      taken := buffer.taken + count
      started
      pendingLf }.Scans received := by
  have hsearch := h.searched
  have hreceived := h.received
  rw [hscan] at hsearch
  refine ⟨?_, ?_, fun hfresh => absurd (hbegun.symm.trans hfresh) nofun, fun _ => hscan, ?_,
    hsearch.ordered, fun pos hmem => ?_⟩
  · rw [hscan]; exact Nat.zero_le _
  · rw [hscan]; exact nofun
  · dsimp only; rw [length_drop]; omega
  · have := hsearch.examined pos hmem
    dsimp only; omega

theorem start_spec (hscans : buffer.Scans received) : (buffer.start? = none ∧ buffer.started =
    false ∧ buffer.bytes.length < 3 ∧ buffer.bytes <+: byteOrderMark) ∨ ∃ started, buffer.start? =
    some started ∧ started.Scans received ∧ started.started = true ∧ (∀ future, started.text future =
    buffer.text future) ∧ (∀ block, buffer.Assembles block → started.Assembles block) := by
  rw [start?]
  by_cases hbegun : buffer.started = true
  · rw [if_pos hbegun]; exact .inr ⟨buffer, rfl, hscans, hbegun, fun _ => rfl, fun _ h => h⟩
  rw [if_neg hbegun]
  rw [not_eq_true] at hbegun
  obtain ⟨hscan, hpend, -⟩ := hscans.fresh hbegun
  by_cases hshort : buffer.bytes.length < byteOrderMark.length ∧ buffer.bytes <+: byteOrderMark
  · rw [if_pos hshort]; exact .inl ⟨rfl, hbegun, hshort.1, hshort.2⟩
  rw [if_neg hshort]
  by_cases hmark : byteOrderMark <+: buffer.bytes
  · have hlen : 3 ≤ buffer.bytes.length := hmark.length_le
    rw [if_pos hmark]
    refine .inr ⟨_, rfl, hscans.advance hscan 3 hlen rfl _, rfl, fun future => ?_,
      fun block h => ⟨h.eventBytes, h.eventType, h.data⟩⟩
    have hall : byteOrderMark <+: buffer.bytes ++ future :=
      hmark.trans (prefix_append _ _)
    rw [text_started rfl, text_unstarted hbegun, dropMark, if_pos hall, drop_append_of_le_length hlen]
    rw [hpend, if_neg Bool.false_ne_true]
  · rw [if_neg hmark]
    refine .inr ⟨_, rfl, ⟨hscans.scanned, hscans.noEnd, nofun, hscans.pending, hscans.received,
      hscans.searched.1, hscans.searched.2⟩, rfl, fun future => ?_,
        fun block h => ⟨h.eventBytes, h.eventType, h.data⟩⟩
    have hall : ¬ byteOrderMark <+: buffer.bytes ++ future := fun hall => by
      by_cases hlen : buffer.bytes.length < byteOrderMark.length
      · exact hshort ⟨hlen, prefix_of_prefix_length_le (prefix_append _ _) hall (Nat.le_of_lt hlen)⟩
      · exact hmark (prefix_of_prefix_length_le hall (prefix_append _ _) (Nat.not_lt.1 hlen))
    rw [text_started rfl, text_unstarted hbegun, dropMark, if_neg hall]
    rw [hpend, if_neg Bool.false_ne_true]

theorem skipLf_spec (hscans : buffer.Scans received) (hbegun : buffer.started = true) :
    buffer.skipLf.Scans received ∧ buffer.skipLf.started = true ∧
      (∀ fut, buffer.skipLf.text fut = buffer.text fut) ∧
      (buffer.skipLf.pendingLf = true → buffer.skipLf.bytes = []) ∧
      (∀ block, buffer.Assembles block → buffer.skipLf.Assembles block) := by
  rw [skipLf]
  by_cases hskip : (buffer.pendingLf && !buffer.bytes.isEmpty) = true
  · rw [if_pos hskip]
    obtain ⟨hpend, hne⟩ := and_eq_true_iff.1 hskip
    have hscan := hscans.pending hpend
    cases hbytes : buffer.bytes with
    | nil => simp [hbytes] at hne
    | cons byte bytes =>
      by_cases hlf : byte = 10
      · subst hlf
        rw [head?_cons, if_pos rfl, tail_cons]
        have hadv := hscans.advance hscan 1 (by rw [hbytes, length_cons]; omega) hbegun false
        rw [hbytes, drop_one, tail_cons] at hadv
        refine ⟨hadv, hbegun, fun fut => ?_, by simp,
          fun block h => ⟨h.eventBytes, h.eventType, h.data⟩⟩
        simp [text, hbegun, hpend, hbytes, dropLf]
      · have hhead : ¬ (byte :: bytes).head? = some 10 := fun h => hlf (Option.some.inj h)
        rw [if_neg hhead, ← hbytes]
        refine ⟨⟨hscans.scanned, hscans.noEnd, fun h => absurd (hbegun.symm.trans h) (by simp), by simp,
          hscans.received, hscans.searched.1, hscans.searched.2⟩, hbegun, fun fut => ?_, by simp,
            fun block h => ⟨h.eventBytes, h.eventType, h.data⟩⟩
        simp [text, hbegun, hpend, hbytes, dropLf, hlf]
  · rw [if_neg hskip]
    refine ⟨hscans, hbegun, fun _ => rfl, fun hpend => ?_, fun _ h => h⟩
    simpa [hpend] using hskip

theorem checkFrameSize_cases (buf : EventBuffer) (partialLine : Nat) :
    (maxFrameBytes < buf.eventBytes + partialLine ∧ buf.checkFrameSize partialLine =
    .error .tooLong) ∨ (¬ maxFrameBytes < buf.eventBytes + partialLine ∧
    buf.checkFrameSize partialLine = .ok ()) := by
  by_cases h : maxFrameBytes < buf.eventBytes + partialLine
  · exact .inl ⟨h, if_pos h⟩
  · exact .inr ⟨h, if_neg h⟩

theorem endLen_le {ending : UInt8} {rest : List UInt8} :
    endLen (ending :: rest) ≤ (ending :: rest).length := by
  rw [endLen]
  split
  · rename_i hcrlf; exact hcrlf.length_le
  · exact Nat.succ_le_succ (Nat.zero_le _)

theorem splitLines_line (h : ∀ byte ∈ line, isEnd byte = false) {ending : UInt8}
    (hending : isEnd ending = true) (rest fut : List UInt8) :
    splitLines (line ++ ending :: (rest ++ fut)) =
      (line :: (splitLines (if decide (ending :: rest = [13]) = true then
        dropLf ((ending :: rest).drop (endLen (ending :: rest)) ++ fut)
        else (ending :: rest).drop (endLen (ending :: rest)) ++ fut)).1,
      (splitLines (if decide (ending :: rest = [13]) = true then
        dropLf ((ending :: rest).drop (endLen (ending :: rest)) ++ fut)
        else (ending :: rest).drop (endLen (ending :: rest)) ++ fut)).2) := by
  have hcases : ending = 13 ∨ ending = 10 := by simpa [isEnd] using hending
  rcases hcases with rfl | rfl
  · rw [splitLines_cr h]
    cases rest with
    | nil => rfl
    | cons byte rest =>
      have hne : ¬ decide ((13 : UInt8) :: byte :: rest = [13]) = true := by simp
      rw [if_neg hne]
      by_cases hlf : byte = 10
      · subst hlf; simp [endLen, dropLf]
      · have hlf' : ¬ (10 = byte) := fun h => hlf h.symm
        simp [endLen, dropLf, hlf, hlf']
  · rw [splitLines_lf h]; simp [endLen]

theorem searchLine_spec (hscans : buffer.Scans received) (hbegun : buffer.started = true)
    (hpend : buffer.pendingLf = true → buffer.bytes = []) (hasm : buffer.Assembles block) :
    LineRead buffer received block buffer.searchLine := by
  have hreceived := hscans.received
  have hscan := hscans.scanned
  rw [searchLine]
  cases hfound : (buffer.bytes.drop buffer.scanned).findIdx? isEnd with
  | none =>
    have hnone : ∀ byte ∈ buffer.bytes, isEnd byte = false := fun byte hbyte => by
      rw [← take_append_drop buffer.scanned buffer.bytes] at hbyte
      rcases mem_append.1 hbyte with hbyte | hbyte
      · exact hscans.noEnd byte hbyte
      · exact not_eq_true _ ▸ findIdx?_eq_none_iff.1 hfound byte hbyte
    have hlater := hscans.searched.later (buffer.bytes.drop buffer.scanned).length
    have hall : buffer.taken + buffer.scanned + (buffer.bytes.drop buffer.scanned).length =
        received := by
      rw [length_drop]; omega
    rw [hall] at hlater
    -- A line feed yet to be dropped follows the bytes only where there are none.
    have htext : ∀ future, ∃ rest, buffer.text future = buffer.bytes ++ rest := fun future => by
      rw [text_started hbegun]
      split
      · exact ⟨dropLf future, by rw [hpend ‹_›]; rfl⟩
      · exact ⟨future, rfl⟩
    have hnow : buffer.text [] = buffer.bytes := by
      rw [text_started hbegun, append_nil]
      split
      · rw [hpend ‹_›]; rfl
      · rfl
    dsimp only
    rcases checkFrameSize_cases { buffer with
      examined := buffer.examined ++ range' (buffer.taken + buffer.scanned)
        (buffer.bytes.drop buffer.scanned).length,
      scanned := buffer.bytes.length } buffer.bytes.length with ⟨hlong, hcheck⟩ | ⟨hfits, hcheck⟩
    · rw [hcheck]
      refine .tooLong ⟨hlater.1, hlater.2⟩ fun future => ?_
      obtain ⟨rest, hrest⟩ := htext future
      rw [hasm.eventBytes] at hlong; rw [outcome, hrest]; exact interpret_tooLong hnone hlong rest
    · rw [hcheck]
      refine .more ⟨Nat.le_refl _, fun byte hbyte => ?_, fun h =>
        absurd (hbegun.symm.trans h) (by simp), fun h => ?_, hreceived, hlater.1, ?_⟩
          ⟨hasm.eventBytes, hasm.eventType, hasm.data⟩ (fun _ => rfl) ?_
      · exact hnone byte (mem_of_mem_take hbyte)
      · exact length_eq_zero_iff.2 (hpend h)
      · rw [hreceived]; exact hlater.2
      · rw [outcome]
        have hsplit : splitLines (buffer.text []) = ([], buffer.bytes) := by
          rw [hnow, splitLines_of_forall hnone]
        rw [hasm.eventBytes] at hfits
        show interpret _ _ _ (splitLines (buffer.text [])).1 (splitLines (buffer.text [])).2 = _
        rw [hsplit, interpret, if_neg hfits]
  | some offset =>
    obtain ⟨hlt, hend, hbef⟩ := findIdx?_eq_some_iff_getElem.1 hfound
    rw [length_drop] at hlt
    have hnone : ∀ byte ∈ buffer.bytes.take (buffer.scanned + offset), isEnd byte = false := by
      intro byte hbyte
      rw [take_add] at hbyte
      rcases mem_append.1 hbyte with hbyte | hbyte
      · exact hscans.noEnd byte hbyte
      · obtain ⟨i, hi, rfl⟩ := mem_iff_getElem.1 hbyte
        rw [getElem_take]
        rw [length_take, length_drop] at hi; exact not_eq_true _ ▸ hbef i (by omega)
    have hbytes : buffer.bytes ≠ [] := fun h => by
      rw [h, length_nil] at hlt; omega
    have hnotPending : buffer.pendingLf = false := by
      cases hlf : buffer.pendingLf with
      | false => rfl
      | true => exact absurd (hpend hlf) hbytes
    have htext : ∀ future, buffer.text future = buffer.bytes ++ future := fun future => by
      rw [text_started hbegun, hnotPending, if_neg Bool.false_ne_true]
    have hlater := hscans.searched.later (offset + 1)
    -- The line, and the end after it.
    obtain ⟨ending, rest, hdrop, hisEnd⟩ : ∃ ending rest,
        buffer.bytes.drop (buffer.scanned + offset) = ending :: rest ∧ isEnd ending = true := by
      rw [getElem_drop] at hend; exact ⟨_, _, drop_eq_getElem_cons (by omega), hend⟩
    have hlen : (buffer.bytes.take (buffer.scanned + offset)).length = buffer.scanned + offset := by
      rw [length_take]; omega
    have hrestLen : rest.length + 1 = buffer.bytes.length - (buffer.scanned + offset) := by
      rw [← length_cons, ← hdrop, length_drop]
    have hsplit : ∀ future, buffer.bytes ++ future =
        buffer.bytes.take (buffer.scanned + offset) ++ ending :: (rest ++ future) := by
      intro future; rw [← cons_append, ← hdrop, ← append_assoc, take_append_drop]
    dsimp only
    rcases checkFrameSize_cases { buffer with
      examined := buffer.examined ++ range' (buffer.taken + buffer.scanned) (offset + 1) }
        (buffer.scanned + offset) with ⟨hlong, hcheck⟩ | ⟨hfits, hcheck⟩
    · rw [hcheck]
      refine .tooLong ⟨hlater.1, fun pos hmem =>
        Nat.lt_of_lt_of_le (hlater.2 pos hmem) (by omega)⟩ fun future => ?_
      rw [hasm.eventBytes, ← hlen] at hlong
      rw [outcome, htext, hsplit]; exact interpret_tooLong hnone hlong _
    · rw [hcheck, hdrop]
      rw [hasm.eventBytes] at hfits
      have hend := @endLen_le ending rest
      rw [length_cons] at hend
      refine .line ⟨Nat.zero_le _, by simp, fun h => absurd (hbegun.symm.trans h) (by simp),
        fun _ => rfl, ?_, hlater.1, fun pos hmem => ?_⟩ (by omega) (fun future => ?_) ?_ rfl rfl
      · dsimp only; rw [length_drop, length_cons]; omega
      · have hpos : 1 ≤ endLen (ending :: rest) := by
          rw [endLen]
          split <;> decide
        refine Nat.lt_of_lt_of_le (hlater.2 pos hmem) ?_
        dsimp only; omega
      · rw [htext, hsplit, splitLines_line hnone hisEnd]; simp only [text, hbegun, if_true]
      · rw [hasm.eventBytes, hlen]

theorem nextLine_spec (hscans : buffer.Scans received) (hasm : buffer.Assembles block) :
    LineRead buffer received block buffer.nextLine := by
  rw [nextLine]
  rcases start_spec hscans with ⟨hnone, hfresh, hlen, hmark⟩ |
    ⟨started, hsome, hscans', hbegun, htext, hasm'⟩
  · rw [hnone]
    refine .more hscans hasm (fun _ => rfl) ?_
    have hnoEnd : ∀ byte ∈ byteOrderMark, isEnd byte = false := by simp [byteOrderMark, isEnd]
    have hfits : ¬ maxFrameBytes < blockBytes block + buffer.bytes.length := by
      rw [← hasm.eventBytes, (hscans.fresh hfresh).2.2]
      have hlimit : 3 ≤ maxFrameBytes := by decide
      omega
    rw [outcome, text_unstarted hfresh, append_nil, dropMark_short hlen,
      splitLines_of_forall fun byte hbyte => hnoEnd byte (hmark.subset hbyte), interpret,
      if_neg hfits]
  · rw [hsome]
    obtain ⟨hskipped, hopen, hsame, hempty, hkeeps⟩ := skipLf_spec hscans' hbegun
    have hall : ∀ future, started.skipLf.text future = buffer.text future := fun future =>
      (hsame future).trans (htext future)
    have hassembled := hkeeps block (hasm' block hasm)
    have hread := searchLine_spec hskipped hopen hempty hassembled
    dsimp only
    generalize started.skipLf.searchLine = out at hread
    cases hread with
    | more hnext hblock hto hout =>
      exact .more hnext hblock (fun future => (hto future).trans (hall future)) hout
    | tooLong hsearch hout =>
      refine .tooLong hsearch fun future => ?_
      rw [outcome, ← hall]; exact hout future
    | line hnext hfits hsplit hbytes htype hdata =>
      refine .line hnext hfits (fun future => ?_) hbytes ?_ ?_
      · rw [← hall]; exact hsplit future
      · rw [htype, hassembled.eventType, hasm.eventType]
      · rw [hdata, hassembled.data, hasm.data]

theorem dispatch_spec (hscans : buffer.Scans received)
    (heventType : buffer.eventType = (values (ascii "event") block).getLast?.getD [])
    (hdata : buffer.data = (values (ascii "data") block).flatMap (· ++ [10])) :
    ∃ next, buffer.dispatch = (next, eventOf block) ∧ next.Scans received ∧ next.Assembles [] ∧
      ∀ future, next.text future = buffer.text future := by
  have hreset : { buffer with eventBytes := 0, eventType := [], data := [] }.Scans received :=
    ⟨hscans.scanned, hscans.noEnd, fun h => ⟨(hscans.fresh h).1, (hscans.fresh h).2.1, rfl⟩,
      hscans.pending, hscans.received, hscans.searched.1, hscans.searched.2⟩
  refine ⟨{ buffer with eventBytes := 0, eventType := [], data := [] }, ?_, hreset, ⟨rfl, rfl, rfl⟩,
    fun _ => rfl⟩
  rw [dispatch, eventOf]
  by_cases hvals : values (ascii "data") block = []
  · rw [hvals, flatMap_nil] at hdata; rw [if_pos hdata, if_pos hvals]
  · rw [intercalate_concat [10] _ hvals] at hdata
    have hne : buffer.data ≠ [] := by simp [hdata]
    rw [if_neg hne, if_neg hvals, hdata, getLast?_concat, if_pos rfl, dropLast_concat, heventType]
    cases (values (ascii "event") block).getLast? with
    | none => rfl
    | some name =>
      by_cases hname : name = []
      · subst hname; rfl
      · simp [Option.filter, hname]

theorem field_spec (hscans : buffer.Scans received) (hutf8 : utf8 line = true)
    (heventBytes : buffer.eventBytes = blockBytes block + (line.length + 1))
    (heventType : buffer.eventType = (values (ascii "event") block).getLast?.getD [])
    (hdata : buffer.data = (values (ascii "data") block).flatMap (· ++ [10])) :
    ∃ next, buffer.field line = .ok next ∧ next.Scans received ∧
      next.Assembles (block ++ [line]) ∧ ∀ future, next.text future = buffer.text future := by
  have hne : ¬ ascii "event" = ascii "data" := by decide
  rw [← blockBytes_concat] at heventBytes
  rw [field, if_pos hutf8]
  dsimp only
  by_cases hev : (nameAndValue line).1 = ascii "event"
  · rw [if_pos hev]
    refine ⟨_, rfl, ⟨hscans.scanned, hscans.noEnd, hscans.fresh, hscans.pending, hscans.received,
      hscans.searched.1, hscans.searched.2⟩, ⟨heventBytes, ?_, ?_⟩, fun _ => rfl⟩
    · rw [values_concat, if_pos hev, getLast?_concat]; rfl
    · rw [values_concat, if_neg (hev ▸ hne), append_nil]; exact hdata
  rw [if_neg hev]
  have htype : buffer.eventType = (values (ascii "event") (block ++ [line])).getLast?.getD [] := by
    rw [values_concat, if_neg hev, append_nil, heventType]
  by_cases hisData : (nameAndValue line).1 = ascii "data"
  · rw [if_pos hisData]
    refine ⟨_, rfl, ⟨hscans.scanned, hscans.noEnd, hscans.fresh, hscans.pending, hscans.received,
      hscans.searched.1, hscans.searched.2⟩, ⟨heventBytes, htype, ?_⟩, fun _ => rfl⟩
    rw [values_concat, if_pos hisData]; simp [hdata]
  · rw [if_neg hisData]
    refine ⟨_, rfl, hscans, ⟨heventBytes, htype, ?_⟩, fun _ => rfl⟩
    rw [values_concat, if_neg hisData, append_nil]; exact hdata

theorem outcome_line {next : EventBuffer} {fut : List UInt8}
    (hfits : blockBytes block + line.length ≤ maxFrameBytes)
    (hsplit : ∀ fut, splitLines (buffer.text fut) =
      (line :: (splitLines (next.text fut)).1, (splitLines (next.text fut)).2)) :
    buffer.outcome block fut = if line = [] then
        ((eventOf block).toList ++ (next.outcome [] fut).1, (next.outcome [] fut).2)
      else if utf8 line then next.outcome (block ++ [line]) fut else ([], some .notText) := by
  rw [outcome, hsplit, interpret, if_neg (Nat.not_lt.2 hfits)]; rfl

theorem Searched.mono (h : buffer.Searched (buffer.taken + buffer.scanned))
    (hscans : buffer.Scans received) : buffer.Searched received := by
  refine ⟨h.ordered, fun pos hmem => Nat.lt_of_lt_of_le (h.examined pos hmem) ?_⟩
  have hscan := hscans.scanned
  have hreceived := hscans.received; omega

theorem EventRead.congr {start : EventBuffer} {block' : List Line}
    {out : EventBuffer × Except StreamError (Option Event)} (h : EventRead buffer received block out)
    (hsame : ∀ fut, start.outcome block' fut = buffer.outcome block fut) :
    EventRead start received block' out := by
  cases h with
  | more hnext hblock hout hend =>
    exact .more hnext hblock (fun fut => (hsame fut).trans (hout fut)) hend
  | error hsearch hout => exact .error hsearch fun fut => (hsame fut).trans (hout fut)
  | event hnext hblock hout =>
    exact .event hnext hblock fun fut => (hsame fut).trans (hout fut)

theorem nextEvent_spec (hscans : buffer.Scans received) (hasm : buffer.Assembles block) :
    EventRead buffer received block buffer.nextEvent := by
  have hread := nextLine_spec hscans hasm
  fun_induction nextEvent buffer generalizing block with
  | case1 buffer next error hline =>
    rw [hline] at hread
    cases hread with
    | tooLong hsearch hout => exact .error hsearch hout
  | case2 buffer next hline =>
    rw [hline] at hread
    cases hread with
    | more hnext hblock htext hout =>
      refine .more hnext hblock (fun fut => ?_) hout
      rw [outcome, outcome, htext]
  | case3 buffer next reset found hevent hline =>
    rw [hline] at hread
    cases hread with
    | line hnext hfits hsplit hbytes htype hdata =>
      obtain ⟨_, hdispatch, hreset, hblock, htext⟩ := dispatch_spec hnext
        (htype.trans hasm.eventType) (hdata.trans hasm.data)
      obtain ⟨rfl, hfound⟩ := Prod.mk.inj (hevent.symm.trans hdispatch)
      refine .event hreset hblock fun fut => ?_
      rw [outcome_line hfits hsplit, if_pos rfl, ← hfound, outcome, ← htext]; rfl
  | case4 buffer next reset hevent hline ih =>
    rw [hline] at hread
    cases hread with
    | line hnext hfits hsplit hbytes htype hdata =>
      obtain ⟨_, hdispatch, hreset, hblock, htext⟩ := dispatch_spec hnext
        (htype.trans hasm.eventType) (hdata.trans hasm.data)
      obtain ⟨rfl, hfound⟩ := Prod.mk.inj (hevent.symm.trans hdispatch)
      refine (ih hreset hblock (nextLine_spec hreset hblock)).congr fun fut => ?_
      rw [outcome_line hfits hsplit, if_pos rfl, ← hfound, outcome, ← htext]; rfl
  | case5 buffer next line hline hne error hfield =>
    rw [hline] at hread
    cases hread with
    | line hnext hfits hsplit hbytes htype hdata =>
      by_cases hutf8 : utf8 line = true
      · obtain ⟨_, hok, -⟩ := field_spec hnext hutf8 hbytes (htype.trans hasm.eventType)
          (hdata.trans hasm.data)
        cases hfield.symm.trans hok
      · rw [field, if_neg hutf8] at hfield
        cases hfield
        refine .error (hnext.searched.mono hnext) fun fut => ?_
        rw [outcome_line hfits hsplit, if_neg hne, if_neg hutf8]
  | case6 buffer next line hline hne filled hfield ih =>
    rw [hline] at hread
    cases hread with
    | line hnext hfits hsplit hbytes htype hdata =>
      by_cases hutf8 : utf8 line = true
      · obtain ⟨_, hok, hfilled, hblock, htext⟩ := field_spec hnext hutf8 hbytes
          (htype.trans hasm.eventType) (hdata.trans hasm.data)
        cases hfield.symm.trans hok
        refine (ih hfilled hblock (nextLine_spec hfilled hblock)).congr fun fut => ?_
        rw [outcome_line hfits hsplit, if_neg hne, if_pos hutf8, outcome, outcome, htext]
      · rw [field, if_neg hutf8] at hfield; cases hfield

theorem drain_spec (hscans : buffer.Scans received) (hasm : buffer.Assembles block) :
    (∃ next block' events, buffer.drain = (next, events, none) ∧ next.Scans received ∧
      next.Assembles block' ∧ next.outcome block' [] = ([], none) ∧
      ∀ fut, buffer.outcome block fut =
        (events ++ (next.outcome block' fut).1, (next.outcome block' fut).2)) ∨
    (∃ next events error, buffer.drain = (next, events, some error) ∧ next.Searched received ∧
      ∀ fut, buffer.outcome block fut = (events, some error)) := by
  have hread := nextEvent_spec hscans hasm
  fun_induction drain buffer generalizing block with
  | case1 buffer next error hevent =>
    rw [hevent] at hread
    cases hread with
    | error hsearch hout => exact .inr ⟨_, _, _, rfl, hsearch, hout⟩
  | case2 buffer next hevent =>
    rw [hevent] at hread
    cases hread with
    | more hnext hblock hsame hout => exact .inl ⟨_, _, _, rfl, hnext, hblock, hout, hsame⟩
  | case3 buffer next event hevent out =>
    rename_i ih
    rw [hevent] at hread
    cases hread with
    | event hnext hblock hsame =>
      rcases ih hnext hblock (nextEvent_spec hnext hblock) with
        ⟨last, block', events, hdrain, hlast, hblock', hend, hout⟩ |
        ⟨last, events, error, hdrain, hsearch, hout⟩
      · refine .inl ⟨last, block', event :: events, ?_, hlast, hblock', hend, fun fut => ?_⟩
        · simp only [out, hdrain]
        · rw [hsame, hout]; rfl
      · refine .inr ⟨last, event :: events, error, ?_, hsearch, fun fut => ?_⟩
        · simp only [out, hdrain]
        · rw [hsame, hout]

theorem push_text (buf : EventBuffer) (chunk fut : List UInt8) :
    (buf.push chunk).text fut = buf.text (chunk ++ fut) := by
  rw [text, text, push, append_assoc]

theorem push_scans (hscans : buffer.Scans received) (chunk : List UInt8) :
    (buffer.push chunk).Scans (received + chunk.length) := by
  refine ⟨?_, ?_, hscans.fresh, hscans.pending, ?_, hscans.searched.1, hscans.searched.2⟩
  · rw [push, length_append]; exact Nat.le_trans hscans.scanned (Nat.le_add_right _ _)
  · rw [push]; rw [take_append_of_le_length hscans.scanned]; exact hscans.noEnd
  · rw [push, ← hscans.received, length_append, Nat.add_assoc]

theorem receive_spec (chunks : List (List UInt8)) (hscans : buffer.Scans received)
    (hasm : buffer.Assembles block) (hdrained : buffer.outcome block [] = ([], none)) :
    (buffer.receive chunks).2 = buffer.outcome block chunks.flatten ∧
      (buffer.receive chunks).1.Searched (received + chunks.flatten.length) := by
  induction chunks generalizing buffer received block with
  | nil => exact ⟨hdrained.symm, hscans.searched.mono hscans⟩
  | cons chunk chunks ih =>
    have hpushed : (buffer.push chunk).Assembles block :=
      ⟨hasm.eventBytes, hasm.eventType, hasm.data⟩
    have hwhole : buffer.outcome block (chunk :: chunks).flatten =
        (buffer.push chunk).outcome block chunks.flatten := by
      rw [outcome, outcome, push_text]; rfl
    have hlen : (chunk :: chunks).flatten.length = chunk.length + chunks.flatten.length := by
      rw [flatten_cons, length_append]
    rw [hwhole, receive, hlen, ← Nat.add_assoc]
    rcases drain_spec (push_scans hscans chunk) hpushed with
      ⟨next, block', events, hdrain, hnext, hblock, hend, hout⟩ |
      ⟨next, events, error, hdrain, hsearch, hout⟩
    · obtain ⟨hrest, hsearch⟩ := ih hnext hblock hend
      rw [hdrain, hout]; exact ⟨by rw [← hrest], hsearch⟩
    · rw [hdrain, hout]
      exact ⟨rfl, hsearch.ordered, fun pos hmem =>
        Nat.lt_of_lt_of_le (hsearch.examined pos hmem) (Nat.le_add_right _ _)⟩

end EventBuffer

/-- However a stream is cut into chunks, its events and its error are those of the whole stream, and each of
its bytes is searched for a line end at most once. -/
theorem chunks_as_stream (chunks : List (List UInt8)) :
    (EventBuffer.receive {} chunks).2 = interpretStream maxFrameBytes utf8 chunks.flatten ∧
      (EventBuffer.receive {} chunks).1.examined.Nodup ∧
      ∀ position ∈ (EventBuffer.receive {} chunks).1.examined, position < chunks.flatten.length := by
  have hscans : EventBuffer.Scans {} 0 :=
    ⟨Nat.le_refl _, nofun, fun _ => ⟨rfl, rfl, rfl⟩, nofun, rfl, .nil, nofun⟩
  have hempty : EventBuffer.outcome {} [] [] = ([], none) := by
    rw [EventBuffer.outcome, EventBuffer.text_unstarted rfl, append_nil,
      EventBuffer.dropMark_short (by decide), splitLines, interpret, if_neg (by decide)]
  obtain ⟨hevents, hsearched⟩ := EventBuffer.receive_spec chunks hscans ⟨rfl, rfl, rfl⟩ hempty
  refine ⟨?_, hsearched.ordered.imp Nat.ne_of_lt, fun position hmem => ?_⟩
  · rw [hevents, EventBuffer.outcome, EventBuffer.text_unstarted rfl]; rfl
  · have := hsearched.examined position hmem; rwa [Nat.zero_add] at this

end Leani.Subscribe
