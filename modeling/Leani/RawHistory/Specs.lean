import Leani.Filtering.Requests
import Leani.Library.Ranges

/-!
# Raw-history requests

What a raw-history job asks for, the normal form under which it is stored, and the blocks that
retained segments leave open.
-/

namespace Leani.RawHistory

open Library Std Leani.Filtering List

deriving instance DecidableEq for FilterSet

abbrev Digest := BitVec 256

inductive HistoryStoreError where
  | invalidOwnerId (value : String)
  | invalidJob (message : String)
  | jobConflict (id : String)
  | unknownJob (id : String)
  | jobState (id state : String)
  | unknownSegment (id : String)
  | missingReservation (id : String)
  | reservationExceeded
  | ownedSegment (id : String) (owners : Nat)
  | catalogIntegrity (message : String)
  | numericRange (name : String)
  | arithmeticOverflow
  | segment (reason : String)
  | sql (reason : String)
  deriving DecidableEq

def u64I64 (value : Nat) (name : String) : Except HistoryStoreError Nat := do
  ensure (value ≤ i64Max) (.numericRange name)
  pure value

def isPortableId (value : String) : Bool :=
  value ≠ "" && value.utf8ByteSize ≤ 96 &&
    value.toList.all fun ch => ch.isAlphanum || ch = '-' || ch = '_' || ch = '.'

structure RawHistoryJobId where
  value : String
  portable : isPortableId value = true

def RawHistoryJobId.new? (value : String) : Except HistoryStoreError RawHistoryJobId :=
  if h : isPortableId value = true then .ok ⟨value, h⟩
  else .error (.invalidJob s!"invalid job ID `{value}`")

structure SegmentId where
  value : String
  portable : isPortableId value = true

inductive VerificationClass where
  | bestEffort
  | trustedDataset
  | cryptographic
  deriving DecidableEq

namespace VerificationClass

def toNat : VerificationClass → Nat
  | bestEffort => 0
  | trustedDataset => 1
  | cryptographic => 2

theorem toNat_injective : Function.Injective toNat := by
  intro a b h
  cases a <;> cases b <;> first | rfl | cases h

instance : LinearOrder VerificationClass := LinearOrder.lift' toNat toNat_injective

end VerificationClass

inductive TrustModel where
  | untrusted
  | trustedManifest
  | trustedDataset
  | protocolVerified
  deriving DecidableEq

namespace TrustModel

def toNat : TrustModel → Nat
  | untrusted => 0
  | trustedManifest => 1
  | trustedDataset => 2
  | protocolVerified => 3

theorem toNat_injective : Function.Injective toNat := by
  intro a b h
  cases a <;> cases b <;> first | rfl | cases h

instance : LinearOrder TrustModel := LinearOrder.lift' toNat toNat_injective

end TrustModel

structure RawHistoryIndexPolicy where
  blockHash : Bool
  transactionHash : Bool
  logs : Bool
  deriving DecidableEq

def RawHistoryIndexPolicy.contains (indexes required : RawHistoryIndexPolicy) : Bool :=
  (!required.blockHash || indexes.blockHash) &&
    (!required.transactionHash || indexes.transactionHash) && (!required.logs || indexes.logs)

inductive RawHistoryProfile where
  | processorReuse
  | postMergeExecutionRpc (mergeBlock : Nat)
  deriving DecidableEq

def RawHistoryProfile.satisfies (profile : RawHistoryProfile) : RawHistoryProfile → Bool
  | processorReuse => true
  | postMergeExecutionRpc requiredMerge => profile = postMergeExecutionRpc requiredMerge

/-- `Vec::dedup`: drop an element equal to the one before it. -/
def dedup {α : Type} [DecidableEq α] : List α → List α
  | [] => []
  | [a] => [a]
  | a :: b :: rest => if a = b then dedup (b :: rest) else a :: dedup (b :: rest)

def sortDedup {α : Type} [Ord α] [DecidableEq α] (values : List α) : List α :=
  dedup (values.mergeSort fun a b => (compare a b).isLE)

theorem mem_dedup {α : Type} [DecidableEq α] {a : α} {vals : List α} :
    a ∈ dedup vals ↔ a ∈ vals := by
  induction vals using dedup.induct with
  | case1 => exact Iff.rfl
  | case2 b => exact Iff.rfl
  | case3 b rest ih =>
    rw [dedup, if_pos rfl, ih, mem_cons (b := b) (l := b :: rest)]
    exact ⟨.inr, fun h => h.elim (fun h => h ▸ mem_cons_self) id⟩
  | case4 b c' rest hne ih => rw [dedup, if_neg hne, mem_cons, ih, ← mem_cons]

theorem mem_sortDedup {α : Type} [Ord α] [DecidableEq α] {a : α} {vals : List α} :
    a ∈ sortDedup vals ↔ a ∈ vals := by
  rw [sortDedup, mem_dedup, mem_mergeSort]

structure FieldProjection where
  headerFields : List String
  transactionFields : List String
  receiptFields : List String
  logFields : List String
  deriving DecidableEq

structure RawHistoryMaterialProfile where
  allowFiltered : Bool
  projection : FieldProjection
  logFields : LogFieldSet
  filters : FilterSet
  deriving DecidableEq

namespace RawHistoryMaterialProfile

/-- `RawHistoryMaterialProfile::default`: everything, unfiltered. -/
def complete : RawHistoryMaterialProfile where
  allowFiltered := false
  projection := ⟨[], [], [], []⟩
  logFields := ⟨1⟩
  filters := .wildcard

def normalize (material : RawHistoryMaterialProfile) : RawHistoryMaterialProfile where
  allowFiltered := material.allowFiltered
  projection :=
    { headerFields := sortDedup material.projection.headerFields
      transactionFields := sortDedup material.projection.transactionFields
      receiptFields := sortDedup material.projection.receiptFields
      logFields := sortDedup material.projection.logFields }
  logFields := material.logFields
  filters :=
    { material.filters with
      senders := sortDedup material.filters.senders
      recipients := sortDedup material.filters.recipients }

end RawHistoryMaterialProfile

inductive RawHistoryRetention where
  | full
  | window (blocks : Nat)
  deriving DecidableEq

inductive Compression where
  | none
  | snappy
  | deflate
  deriving DecidableEq

inductive StorageLimitAction where
  | pause
  | fail
  deriving DecidableEq

structure RawHistorySegmentPolicy where
  targetBlocks : Nat
  maximumLogicalBytes : Nat
  maximumPhysicalBytes : Nat
  compression : Compression
  onLimit : StorageLimitAction
  deriving DecidableEq

structure RawHistoryJobSpec where
  chainId : Nat
  ranges : List Range
  profile : RawHistoryProfile
  material : RawHistoryMaterialProfile
  requiredCapabilities : CapabilitySet
  verification : VerificationClass
  minimumTrust : TrustModel
  sourcePolicyDigest : Digest
  retention : RawHistoryRetention
  segment : RawHistorySegmentPolicy
  indexes : RawHistoryIndexPolicy

def normalizeRanges (ranges : List Range) : Except HistoryStoreError (List Range) := do
  ensure (ranges ≠ [] ∧ ranges.length ≤ 1024) (.invalidJob "raw-history job requires 1..=1024 ranges")
  pure (Range.normalize u64Max ranges)

namespace RawHistoryJobSpec

def checkExecutionRpc (spec : RawHistoryJobSpec) (mergeBlock : Nat) :
    Except HistoryStoreError Unit := do
  ensure (spec.ranges.head?.all fun range => mergeBlock ≤ range.start) (.invalidJob
    (s!"post_merge_execution_rpc starts at Merge block {mergeBlock}; requested range starts at " ++
      s!"{(spec.ranges.head?.map Range.start).getD 0}"))
  ensure (spec.material = .complete)
    (.invalidJob "post_merge_execution_rpc requires complete unfiltered material")
  ensure (spec.requiredCapabilities.withDerivable.containsAll
      (((CapabilitySet.of .header).including .transactions).including .receipts))
    (.invalidJob "post_merge_execution_rpc requires complete headers, transactions, and receipts")
  ensure (.trustedDataset ≤ spec.verification ∧ .trustedDataset ≤ spec.minimumTrust) (.invalidJob
    ("post_merge_execution_rpc requires trusted-dataset verification and trust or " ++ "stronger"))

def checkProfile (spec : RawHistoryJobSpec) : Except HistoryStoreError Unit :=
  match spec.profile with
  | .processorReuse => pure ()
  | .postMergeExecutionRpc mergeBlock => spec.checkExecutionRpc mergeBlock

def requiredTrust : VerificationClass → TrustModel
  | .bestEffort => .untrusted
  | .trustedDataset => .trustedDataset
  | .cryptographic => .protocolVerified

def normalize (spec : RawHistoryJobSpec) : Except HistoryStoreError RawHistoryJobSpec := do
  ensure (spec.chainId ≠ 0) (.invalidJob "chain ID must be non-zero")
  let ranges ← normalizeRanges spec.ranges
  let spec := { spec with ranges := ranges, material := spec.material.normalize }
  ensure (spec.material.allowFiltered ∨ spec.material.filters = .wildcard)
    (.invalidJob "unfiltered raw material cannot carry source predicates")
  ensure (spec.requiredCapabilities ≠ .none ∧ ¬ spec.requiredCapabilities.contains .mempool)
    (.invalidJob "historical capabilities must be non-empty and cannot include mempool")
  ensure (¬ spec.indexes.logs) (.invalidJob
    ("log indexes are not supported; set \"logs\": false in \"indexes\": logs are read from the " ++
      "retained receipts"))
  ensure (spec.retention = .full) (.invalidJob
    ("window retention is not supported: a job keeps the segments it retains until it is " ++
      "deleted; use \"retention\": \"full\""))
  ensure (¬ (spec.indexes.transactionHash ∧ (spec.material.allowFiltered ∨
      ¬ spec.requiredCapabilities.contains .transactions)))
    (.invalidJob "transaction-hash locators require complete unfiltered transaction material")
  spec.checkProfile
  ensure (spec.segment.targetBlocks ≠ 0 ∧ spec.segment.maximumLogicalBytes ≠ 0 ∧
      spec.segment.maximumPhysicalBytes ≠ 0)
    (.invalidJob "segment limits and target block span must be non-zero")
  ensure (requiredTrust spec.verification ≤ spec.minimumTrust)
    (.invalidJob "minimum trust is weaker than the requested verification class")
  pure spec

end RawHistoryJobSpec

/-- `decode_spec`: a stored request is normalized once more, which fails as a normalization does. -/
def decodeSpec (spec : RawHistoryJobSpec) : Except HistoryStoreError RawHistoryJobSpec :=
  match spec.normalize with
  | .error (.invalidJob message) =>
    .error (.catalogIntegrity s!"invalid raw-history job: {message}")
  | result => result

def gapsFrom (requested : Range) : Nat → List Range → List Range
  | next, [] => if h : next ≤ requested.last then [⟨next, requested.last, h⟩] else []
  | next, range :: rest =>
    let start := max range.start requested.start
    let last := min range.last requested.last
    let gaps := if h : next < start then [⟨next, start - 1, Nat.le_sub_one_of_lt h⟩] else []
    let next := max next (satAdd last 1)
    gaps ++ if requested.last < next then [] else gapsFrom requested next rest

/-- `range_gaps`: what `covered` leaves open of one range. -/
def rangeGaps (requested : Range) (covered : List Range) : List Range :=
  let relevant := covered.filter fun range =>
    requested.start ≤ range.last && range.start ≤ requested.last
  gapsFrom requested requested.start (relevant.mergeSort fun a b => a.start ≤ b.start)

def requestedGaps (requested covered : List Range) : List Range :=
  requested.flatMap fun range => rangeGaps range covered

def rangesOverlap (left right : Range) : Bool :=
  left.start ≤ right.last && right.start ≤ left.last

theorem covers_of_gapsFrom_eq_nil {reqd : Range} {rngs : List Range} :
    ∀ {next : Nat}, gapsFrom reqd next rngs = [] → ∀ n, next ≤ n → n ≤ reqd.last →
      Range.Covers rngs n := by
  induction rngs with
  | nil =>
    intro next h n hnext hn; rw [gapsFrom, dif_pos (Nat.le_trans hnext hn)] at h; cases h
  | cons range rest ih =>
    intro next h n hnext hn
    simp only [gapsFrom, append_eq_nil_iff] at h
    obtain ⟨hgap, hrest⟩ := h
    have hstart : ¬ next < max range.start reqd.start := by
      intro hlt; rw [dif_pos hlt] at hgap; cases hgap
    by_cases hin : n ≤ range.last
    · exact Range.covers_cons.2 (.inl ⟨by omega, hin⟩)
    · have hbeyond : max next (satAdd (min range.last reqd.last) 1) ≤ n := by
        have := satAdd_le (min range.last reqd.last) 1; omega
      rw [if_neg (by omega)] at hrest; exact Range.covers_cons.2 (.inr (ih hrest n hbeyond hn))

theorem covers_of_requestedGaps_eq_nil {reqd covered : List Range} {n : Nat}
    (h : requestedGaps reqd covered = []) (hn : Range.Covers reqd n) : Range.Covers covered n := by
  obtain ⟨range, hrange, hstart, hlast⟩ := hn
  have hgaps : rangeGaps range covered = [] := by
    rw [requestedGaps, flatMap_eq_nil_iff] at h; exact h range hrange
  obtain ⟨r, hr, hmem⟩ := covers_of_gapsFrom_eq_nil hgaps n hstart hlast
  exact ⟨r, (mem_filter.1 (mem_mergeSort.1 hr)).1, hmem⟩

end Leani.RawHistory
