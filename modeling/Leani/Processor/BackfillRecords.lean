import Leani.Library.Fields
import Leani.Processor.Store

/-!
# The record that completes a backfill

The last delivery of a backfill stream says how many blocks were requested, which of them were
covered before the request, and how many were processed and published. It is written in a versioned
layout: two bytes of version, mode, disposition, five counts, the number of covered ranges, and the
ranges. What the store counted is what a reader of the record decodes, as long as the number of
ranges fits its four bytes (`round_trip_iff`).
-/

namespace Leani.Backfills

open Library Library.BigEndian List

inductive BackfillSubscriptionMode where
  | fillMissing
  | recompute
  deriving DecidableEq, Repr

inductive BackfillCompletionDisposition where
  | publishedAll
  | publishedMissingOnly
  | alreadyCoveredNoop
  deriving DecidableEq, Repr

structure BackfillCompletionMetadata where
  mode : BackfillSubscriptionMode
  disposition : BackfillCompletionDisposition
  requestedBlocks : Nat
  coveredBeforeRequestBlocks : Nat
  coveredBeforeRequestRanges : List BlockRange
  newlyProcessedBlocks : Nat
  republishedBlocks : Nat
  domainChanges : Nat
  deriving DecidableEq

def rangeLen (range : BlockRange) : Nat := satAdd (range.last - range.start) 1

def blockRangeError (start last : Nat) : String :=
  "invalid block range " ++ toString start ++ "..=" ++ toString last ++ ": end precedes start"

def newRange (start last : Nat) : Except StoreError BlockRange :=
  required (BlockRange.new? start last) (.invariant (blockRangeError start last))

def addLen (label : String) (total : Nat) (range : BlockRange) : Except StoreError Nat := do
  ensure (total + rangeLen range ≤ u64Max) (.numeric label)
  pure (total + rangeLen range)

def sumLens (label : String) (ranges : List BlockRange) : Except StoreError Nat :=
  foldExcept (addLen label) 0 ranges

def BackfillSubscriptionMode.tag : BackfillSubscriptionMode → UInt8
  | .fillMissing => 0
  | .recompute => 1

def BackfillCompletionDisposition.tag : BackfillCompletionDisposition → UInt8
  | .publishedAll => 0
  | .publishedMissingOnly => 1
  | .alreadyCoveredNoop => 2

def encodeRange (range : BlockRange) : List UInt8 := bytes 8 range.start ++ bytes 8 range.last

def BackfillCompletionMetadata.payload (m : BackfillCompletionMetadata) : List UInt8 :=
  bytes 2 2 ++ ([m.mode.tag] ++ ([m.disposition.tag] ++ (bytes 8 m.requestedBlocks ++
    (bytes 8 m.coveredBeforeRequestBlocks ++ (bytes 8 m.newlyProcessedBlocks ++
      (bytes 8 m.republishedBlocks ++ (bytes 8 m.domainChanges ++
        (bytes 4 m.coveredBeforeRequestRanges.length ++
          table encodeRange m.coveredBeforeRequestRanges))))))))

/-- `encode_backfill_completion_metadata`. Without a value where the number of ranges does not fit
`u32`, which panics. -/
def encodeBackfillCompletionMetadata (m : BackfillCompletionMetadata) : Option (List UInt8) :=
  if m.coveredBeforeRequestRanges.length < 2 ^ 32 then some m.payload else none

def v1EncodedLen : Nat := 44

def v2HeaderLen : Nat := 48

def decodeMode : Option UInt8 → Except StoreError BackfillSubscriptionMode
  | some 0 => .ok .fillMissing
  | some 1 => .ok .recompute
  | _ => .error (.invariant "invalid backfill completion mode")

def decodeDisposition : Option UInt8 → Except StoreError BackfillCompletionDisposition
  | some 0 => .ok .publishedAll
  | some 1 => .ok .publishedMissingOnly
  | some 2 => .ok .alreadyCoveredNoop
  | _ => .error (.invariant "invalid backfill completion disposition")

def numberAt (payload : List UInt8) (offset : Nat) : Except StoreError Nat := do
  ensure (offset + 8 ≤ payload.length) (.invariant "invalid backfill completion numeric field")
  pure (number (field offset 8 payload))

def rangeAt (payload : List UInt8) (index : Nat) : Except StoreError BlockRange := do
  let start ← numberAt payload (v2HeaderLen + index * 16)
  let last ← numberAt payload (v2HeaderLen + index * 16 + 8)
  newRange start last

/-- The ranges behind the header. A count of four bytes keeps the expected length within `usize`. -/
def decodeRanges (payload : List UInt8) : Except StoreError (List BlockRange) := do
  let rangeCount := number (field 44 4 payload)
  ensure (payload.length = v2HeaderLen + rangeCount * 16)
    (.invariant "invalid backfill completion range payload length")
  (List.range rangeCount).mapM (rangeAt payload)

def decodeVersion (payload : List UInt8) : Except StoreError Nat := do
  ensure (v1EncodedLen ≤ payload.length)
    (.invariant "invalid backfill completion payload version or length")
  let version := number (field 0 2 payload)
  ensure (version = 1 ∧ payload.length = v1EncodedLen ∨ version = 2 ∧ v2HeaderLen ≤ payload.length)
    (.invariant "invalid backfill completion payload version or length")
  pure version

def rangesOf (version : Nat) (payload : List UInt8) : Except StoreError (List BlockRange) :=
  if version = 1 then .ok [] else decodeRanges payload

def decodeBackfillCompletionMetadata (payload : List UInt8) :
    Except StoreError BackfillCompletionMetadata := do
  let version ← decodeVersion payload
  let mode ← decodeMode payload[2]?
  let disposition ← decodeDisposition payload[3]?
  let ranges ← rangesOf version payload
  let requested ← numberAt payload 4
  let covered ← numberAt payload 12
  let newly ← numberAt payload 20
  let republished ← numberAt payload 28
  let changes ← numberAt payload 36
  ensure (republished ≤ requested ∧ covered ≤ requested ∧ newly ≤ requested)
    (.invariant "invalid backfill completion counts")
  let coveredRangeBlocks ← sumLens "completion covered range blocks" ranges
  ensure (version = 2 → coveredRangeBlocks = covered) (.invariant
    "backfill completion covered ranges do not match the covered block count")
  pure ⟨mode, disposition, requested, covered, ranges, newly, republished, changes⟩

/-- Counts a record may hold: numbers of eight bytes, none above the requested blocks, and the
covered blocks those of the ranges. -/
structure BackfillCompletionMetadata.Consistent (m : BackfillCompletionMetadata) : Prop where
  requested_lt : m.requestedBlocks < 2 ^ 64
  changes_lt : m.domainChanges < 2 ^ 64
  republished_le : m.republishedBlocks ≤ m.requestedBlocks
  covered_le : m.coveredBeforeRequestBlocks ≤ m.requestedBlocks
  newly_le : m.newlyProcessedBlocks ≤ m.requestedBlocks
  covered_eq : m.coveredBeforeRequestBlocks = (m.coveredBeforeRequestRanges.map rangeLen).sum

variable {range : BlockRange}

theorem newRange_eq_ok {start last : Nat} :
    newRange start last = .ok range ↔ range.start = start ∧ range.last = last := by
  rw [newRange, required_eq_ok, BlockRange.new?]
  split
  · rw [Option.some.injEq, BlockRange.ext_iff, eq_comm (a := start), eq_comm (a := last)]
  · rename_i h
    constructor
    · intro h; cases h
    · rintro ⟨rfl, rfl⟩; exact absurd ⟨range.start_le_last, range.last_le⟩ h

variable {label : String} {ranges : List BlockRange}

theorem foldExcept_addLen_eq_ok {total covered : Nat} : foldExcept (addLen label) total ranges =
    .ok covered ↔ covered = total + (ranges.map rangeLen).sum ∧ (total ≤ u64Max → covered ≤ u64Max) ∧
    (total + (ranges.map rangeLen).sum ≤ u64Max ∨ ranges = []) := by
  induction ranges generalizing total with
  | nil =>
    simp; omega
  | cons range ranges ih =>
    rw [foldExcept_cons, bind_eq_ok]
    simp only [addLen, eq_ok, map_cons, sum_cons]
    constructor
    · rintro ⟨_, ⟨_, hle, rfl⟩, h⟩
      obtain ⟨heq, hbound, hor⟩ := ih.1 h
      refine ⟨by omega, fun _ => hbound hle, .inl ?_⟩
      have := hbound hle; omega
    · rintro ⟨heq, -, hor⟩
      have hle : total + (rangeLen range + (ranges.map rangeLen).sum) ≤ u64Max := by
        simpa using hor
      refine ⟨_, ⟨(), by omega, rfl⟩, ih.2 ⟨by omega, fun _ => by omega, .inl (by omega)⟩⟩

theorem sumLens_eq_ok {covered : Nat} : sumLens label ranges = .ok covered ↔
      covered = (ranges.map rangeLen).sum ∧ covered ≤ u64Max := by
  rw [sumLens, foldExcept_addLen_eq_ok, Nat.zero_add]
  constructor
  · rintro ⟨rfl, hbound, -⟩; exact ⟨rfl, hbound (Nat.zero_le _)⟩
  · rintro ⟨rfl, hle⟩; exact ⟨rfl, fun _ => hle, .inl hle⟩

variable {tag : Option UInt8}

theorem decodeMode_eq_ok {mode : BackfillSubscriptionMode} :
    decodeMode tag = .ok mode ↔ tag = some mode.tag := by
  constructor
  · intro h
    unfold decodeMode at h
    split at h <;> cases h <;> rfl
  · rintro rfl
    cases mode <;> rfl

theorem decodeDisposition_eq_ok {disposition : BackfillCompletionDisposition} :
    decodeDisposition tag = .ok disposition ↔ tag = some disposition.tag := by
  constructor
  · intro h
    unfold decodeDisposition at h
    split at h <;> cases h <;> rfl
  · rintro rfl
    cases disposition <;> rfl

variable {payload : List UInt8}

theorem numberAt_eq_ok {off n : Nat} : numberAt payload off = .ok n ↔
      off + 8 ≤ payload.length ∧ number (field off 8 payload) = n := by
  simp only [numberAt, eq_ok]
  constructor
  · rintro ⟨_, hle, rfl⟩; exact ⟨hle, rfl⟩
  · rintro ⟨hle, rfl⟩; exact ⟨(), hle, rfl⟩

theorem length_encodeRange (range : BlockRange) : (encodeRange range).length = 16 := by
  simp [encodeRange]

theorem eq_encodeRange_iff {bs : List UInt8} (h : bs.length = 16) : bs = encodeRange range ↔
      number (field 0 8 bs) = range.start ∧ number (field 8 8 bs) = range.last := by
  have hmax : u64Max < 256 ^ 8 := by decide
  have hlast := Nat.lt_of_le_of_lt range.last_le hmax
  have hstart := Nat.lt_of_le_of_lt range.start_le_last hlast
  constructor
  · rintro rfl
    rw [encodeRange, field_zero_append (length_bytes ..), field_append (length_bytes ..).le,
      length_bytes, Nat.sub_self, ← append_nil (bytes 8 range.last),
      field_zero_append (length_bytes ..)]
    exact ⟨number_bytes hstart, number_bytes hlast⟩
  · rintro ⟨hfst, hsecond⟩
    have hsplit := drop_eq_field_append 0 8 bs
    have hrest := drop_eq_field_append 8 8 bs
    rw [drop_eq_nil_of_le (Nat.le_of_eq h), append_nil] at hrest
    rw [drop_zero, Nat.zero_add, hrest] at hsplit
    rw [hsplit, encodeRange, ← hfst, ← hsecond, bytes_number_field (by omega),
      bytes_number_field (by omega)]

theorem rangeAt_eq_ok {index : Nat} (h : v2HeaderLen + (index + 1) * 16 ≤ payload.length) :
    rangeAt payload index = .ok range ↔
      field (16 * index) 16 (payload.drop v2HeaderLen) = encodeRange range := by
  have hlen : (field (16 * index) 16 (payload.drop v2HeaderLen)).length = 16 := by
    apply length_field
    rw [length_drop]; omega
  have hflds (start : Nat) (hstart : start + 8 ≤ 16) :
      field start 8 (field (16 * index) 16 (payload.drop v2HeaderLen)) =
        field (v2HeaderLen + index * 16 + start) 8 payload := by
    rw [field_field _ hstart, field, drop_drop, field]
    congr 2
    omega
  rw [eq_encodeRange_iff hlen, hflds 0 (by decide), hflds 8 (by decide)]
  simp only [rangeAt, bind_eq_ok, numberAt_eq_ok, newRange_eq_ok, Nat.add_zero]
  constructor
  · rintro ⟨_, ⟨-, rfl⟩, _, ⟨-, rfl⟩, hstart, hlast⟩; exact ⟨hstart.symm, hlast.symm⟩
  · rintro ⟨hstart, hlast⟩; exact ⟨_, ⟨by omega, hstart⟩, _, ⟨by omega, hlast⟩, rfl, rfl⟩

theorem decodeRanges_eq_ok : decodeRanges payload =
      .ok ranges ↔ payload.length = v2HeaderLen + number (field 44 4 payload) * 16 ∧ ranges.length =
      number (field 44 4 payload) ∧ payload.drop v2HeaderLen = table encodeRange ranges := by
  have hwidth (range : BlockRange) (_ : range ∈ ranges) : (encodeRange range).length = 16 :=
    length_encodeRange range
  simp only [decodeRanges, eq_ok, mapM_range_eq_ok]
  constructor
  · rintro ⟨_, hlen, hcount, hranges⟩
    have hrest : (payload.drop v2HeaderLen).length = 16 * ranges.length := by
      rw [length_drop, hlen, hcount]; omega
    refine ⟨hlen, hcount, eq_table_of_fields hrest ?_⟩
    intro index range hrng
    have hindex := (List.getElem?_eq_some_iff.1 hrng).1
    exact (rangeAt_eq_ok (by omega)).1 (hranges index range hrng)
  · rintro ⟨hlen, hcount, htable⟩
    refine ⟨(), hlen, hcount, ?_⟩
    intro index range hrng
    have hindex := (List.getElem?_eq_some_iff.1 hrng).1
    apply (rangeAt_eq_ok (by omega)).2
    rw [htable]; exact field_table hwidth hrng

theorem decodeVersion_eq_ok {version : Nat} :
    decodeVersion payload = .ok version ↔ number (field 0 2 payload) = version ∧
      (version = 1 ∧ payload.length = v1EncodedLen ∨ version = 2 ∧ v2HeaderLen ≤ payload.length) := by
  simp only [decodeVersion, eq_ok]
  constructor
  · rintro ⟨_, -, _, hver, rfl⟩; exact ⟨rfl, hver⟩
  · rintro ⟨rfl, hver⟩
    refine ⟨(), ?_, (), hver, rfl⟩
    unfold v1EncodedLen v2HeaderLen at *; omega

structure Spells (payload : List UInt8) (m : BackfillCompletionMetadata) : Prop where
  version : number (field 0 2 payload) = 2
  mode : payload[2]? = some m.mode.tag
  disposition : payload[3]? = some m.disposition.tag
  requested : number (field 4 8 payload) = m.requestedBlocks
  covered : number (field 12 8 payload) = m.coveredBeforeRequestBlocks
  newly : number (field 20 8 payload) = m.newlyProcessedBlocks
  republished : number (field 28 8 payload) = m.republishedBlocks
  changes : number (field 36 8 payload) = m.domainChanges
  count : number (field 44 4 payload) = m.coveredBeforeRequestRanges.length
  length : payload.length = v2HeaderLen + m.coveredBeforeRequestRanges.length * 16
  ranges : payload.drop v2HeaderLen = table encodeRange m.coveredBeforeRequestRanges

variable {m : BackfillCompletionMetadata}

theorem decode_eq_ok_iff (hver : number (field 0 2 payload) = 2) :
    decodeBackfillCompletionMetadata payload = .ok m ↔ Spells payload m ∧ m.Consistent := by
  have htwo : ¬ (2 = 1) := by decide
  simp only [decodeBackfillCompletionMetadata, eq_ok, decodeVersion_eq_ok, hver, decodeMode_eq_ok,
    decodeDisposition_eq_ok, numberAt_eq_ok, sumLens_eq_ok]
  constructor
  · rintro ⟨_, ⟨rfl, -⟩, mode, hmode, disposition, hdisposition, ranges, hranges, _, ⟨h4, rfl⟩, _,
      ⟨h12, rfl⟩, _, ⟨h20, rfl⟩, _, ⟨h28, rfl⟩, _, ⟨h36, rfl⟩, _, hcounts, covered, ⟨hsum, -⟩, _,
      hcov, rfl⟩
    rw [rangesOf, if_neg htwo, decodeRanges_eq_ok] at hranges
    obtain ⟨hlen, hcount, htable⟩ := hranges
    refine ⟨⟨hver, hmode, hdisposition, rfl, rfl, rfl, rfl, rfl, hcount.symm, ?_, htable⟩,
      ⟨number_field_lt h4, number_field_lt h36, hcounts.1, hcounts.2.1, hcounts.2.2, ?_⟩⟩
    · rw [hlen, hcount]
    · rw [← hcov rfl, hsum]
  · rintro ⟨hspells, hm⟩
    have hlen := hspells.length
    unfold v2HeaderLen at hlen
    have hsum : m.coveredBeforeRequestBlocks ≤ u64Max := by
      have := hm.requested_lt
      have := hm.covered_le
      unfold u64Max; omega
    refine ⟨2, ⟨rfl, .inr ⟨rfl, ?_⟩⟩, m.mode, hspells.mode, m.disposition, hspells.disposition,
      m.coveredBeforeRequestRanges, ?_, _, ⟨by omega, hspells.requested⟩, _,
      ⟨by omega, hspells.covered⟩, _, ⟨by omega, hspells.newly⟩, _,
      ⟨by omega, hspells.republished⟩, _, ⟨by omega, hspells.changes⟩, (),
      ⟨hm.republished_le, hm.covered_le, hm.newly_le⟩, _, ⟨hm.covered_eq, hsum⟩, (), fun _ => rfl,
      rfl⟩
    · unfold v2HeaderLen; omega
    · rw [rangesOf, if_neg htwo, decodeRanges_eq_ok, hspells.count]
      exact ⟨hspells.length, rfl, hspells.ranges⟩

theorem length_payload (m : BackfillCompletionMetadata) :
    m.payload.length = v2HeaderLen + m.coveredBeforeRequestRanges.length * 16 := by
  have htable : (table encodeRange m.coveredBeforeRequestRanges).length =
      16 * m.coveredBeforeRequestRanges.length :=
    length_table fun range _ => length_encodeRange range
  simp only [BackfillCompletionMetadata.payload, length_append, length_bytes,
    length_singleton, htable, v2HeaderLen]
  omega

theorem spells_payload (hm : m.Consistent)
    (hcnt : m.coveredBeforeRequestRanges.length < 2 ^ 32) : Spells m.payload m := by
  have hnum {n : Nat} (h : n < 2 ^ 64) : number (bytes 8 n) = n := number_bytes h
  have hreq := hm.requested_lt
  have hcov := Nat.lt_of_le_of_lt hm.covered_le hreq
  have hnewly := Nat.lt_of_le_of_lt hm.newly_le hreq
  have hrepublished := Nat.lt_of_le_of_lt hm.republished_le hreq
  have hrngs : number (bytes 4 m.coveredBeforeRequestRanges.length) =
      m.coveredBeforeRequestRanges.length := number_bytes hcnt
  have htwo : number (bytes 2 2) = 2 := by decide
  refine ⟨?_, ?_, ?_, ?_, ?_, ?_, ?_, ?_, ?_, length_payload m, ?_⟩
  all_goals unfold BackfillCompletionMetadata.payload
  · simp [field_zero_append, htwo]
  · simp
  · simp [getElem?_append]
  · simp [field_append, field_cons, field_zero_append, hnum hreq]
  · simp [field_append, field_cons, field_zero_append, hnum hcov]
  · simp [field_append, field_cons, field_zero_append, hnum hnewly]
  · simp [field_append, field_cons, field_zero_append, hnum hrepublished]
  · simp [field_append, field_cons, field_zero_append, hnum hm.changes_lt]
  · simp [field_append, field_cons, field_zero_append, hrngs]
  · simp [v2HeaderLen, drop_append_of_le]

theorem drop_eq_of_get? {off : Nat} {byte : UInt8}
    (h : payload[off]? = some byte) : payload.drop off = [byte] ++ payload.drop (off + 1) := by
  obtain ⟨hlt, rfl⟩ := List.getElem?_eq_some_iff.1 h; exact List.drop_eq_getElem_cons hlt

theorem Spells.eq_payload (h : Spells payload m) : payload = m.payload := by
  have hlen := h.length
  unfold v2HeaderLen at hlen
  have hfld (off width n : Nat) (hle : off + width ≤ 48)
      (hn : number (field off width payload) = n) :
      payload.drop off = bytes width n ++ payload.drop (off + width) := by
    rw [drop_eq_field_append off width, ← bytes_number_field (by omega), hn]
  have hranges := h.ranges
  unfold v2HeaderLen at hranges
  rw [← drop_zero (l := payload), hfld 0 2 _ (by decide) h.version,
    drop_eq_of_get? h.mode, drop_eq_of_get? h.disposition,
    hfld 4 8 _ (by decide) h.requested, hfld 12 8 _ (by decide) h.covered,
    hfld 20 8 _ (by decide) h.newly, hfld 28 8 _ (by decide) h.republished,
    hfld 36 8 _ (by decide) h.changes, hfld 44 4 _ (by decide) h.count, hranges]
  rfl

theorem decode_payload (hm : m.Consistent) (hcnt : m.coveredBeforeRequestRanges.length < 2 ^ 32) :
    decodeBackfillCompletionMetadata m.payload = .ok m := by
  have hspells := spells_payload hm hcnt; exact (decode_eq_ok_iff hspells.version).2 ⟨hspells, hm⟩

theorem encode_of_decode (hver : number (field 0 2 payload) = 2)
    (h : decodeBackfillCompletionMetadata payload = .ok m) :
    encodeBackfillCompletionMetadata m = some payload := by
  obtain ⟨hspells, -⟩ := (decode_eq_ok_iff hver).1 h
  have hle : 44 + 4 ≤ payload.length := by
    have := hspells.length
    unfold v2HeaderLen at this; omega
  have hcnt : m.coveredBeforeRequestRanges.length < 2 ^ 32 := by
    have := number_field_lt hle; rwa [hspells.count] at this
  rw [encodeBackfillCompletionMetadata, if_pos hcnt, ← hspells.eq_payload]

end Leani.Backfills
