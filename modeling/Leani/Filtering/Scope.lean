import Leani.Primitives
import Mathlib.Data.List.Basic
import Std.Data.ExtTreeSet

/-!
# Filter scopes

The predicate a source applies to the blocks, transactions and logs it hands over, and when
material that is complete for one scope is complete for another.
-/

namespace Leani.Filtering

open Library Std

section Lists

variable {α : Type} [DecidableEq α]

def listMatches (list : List α) (value : Option α) : Bool :=
  list.isEmpty || value.any (list.contains ·)

def linearScanLimit : Nat := 16

/-- Whether `values` holds every item of `required`; long lists are indexed first. -/
def containsAll [Ord α] [TransOrd α] (values required : List α) : Bool :=
  if values.length ≤ linearScanLimit then required.all (values.contains ·)
  else
    let index := ExtTreeSet.ofList values
    required.all (index.contains ·)

def listCovers [Ord α] [TransOrd α] (scope filter : List α) : Bool :=
  scope.isEmpty || (!filter.isEmpty && containsAll scope filter)

variable {value : Option α}

theorem listMatches_iff {list : List α} :
    listMatches list value = true ↔ list = [] ∨ ∃ v ∈ list, value = some v := by
  rw [listMatches, Bool.or_eq_true, List.isEmpty_iff]
  refine or_congr_right ?_
  cases value with
  | none => simp
  | some v => simp

variable [Ord α] [TransOrd α] [LawfulEqOrd α]

theorem containsAll_iff {vals required : List α} :
    containsAll vals required = true ↔ required ⊆ vals := by
  have hidx : ∀ v, (ExtTreeSet.ofList vals).contains v = vals.contains v :=
    fun v => ExtTreeSet.contains_ofList
  unfold containsAll; simp only [hidx, ite_self, List.all_eq_true, List.contains_iff_mem]; rfl

theorem listCovers_iff {scope filter : List α} :
    listCovers scope filter = true ↔ scope = [] ∨ (filter ≠ [] ∧ filter ⊆ scope) := by
  rw [listCovers, Bool.or_eq_true, Bool.and_eq_true, containsAll_iff, List.isEmpty_iff,
    Bool.not_eq_eq_eq_not, Bool.not_true, List.isEmpty_eq_false_iff]

theorem listCovers_refl (list : List α) : listCovers list list = true := by
  rw [listCovers_iff]
  by_cases h : list = []
  · exact .inl h
  · exact .inr ⟨h, fun _ hv => hv⟩

theorem listCovers_trans {l₁ l₂ l₃ : List α} (h₁ : listCovers l₁ l₂ = true)
    (h₂ : listCovers l₂ l₃ = true) : listCovers l₁ l₃ = true := by
  rw [listCovers_iff] at *
  rcases h₁ with h₁ | ⟨hne, hsub⟩
  · exact .inl h₁
  · rcases h₂ with h₂ | ⟨hne', hsub'⟩
    · exact absurd h₂ hne
    · exact .inr ⟨hne', fun _ hv => hsub (hsub' hv)⟩

theorem listMatches_of_covers {scope filter : List α} (h : listCovers scope filter = true)
    (hm : listMatches filter value = true) : listMatches scope value = true := by
  rw [listCovers_iff] at h
  rw [listMatches_iff] at *
  rcases h with h | ⟨hne, hsub⟩
  · exact .inl h
  · rcases hm with hm | ⟨v, hv, hvalue⟩
    · exact absurd hm hne
    · exact .inr ⟨v, hsub hv, hvalue⟩

end Lists

abbrev Topic := Vector UInt8 32

instance transOrdTopic : TransOrd Topic := inferInstance

structure TopicFilter where
  position : UInt8
  alternatives : List Topic
  deriving DecidableEq

def ConstrainsAt (filters : List TopicFilter) (position : UInt8) : Prop :=
  ∃ topic ∈ filters, topic.position = position

def AllowedAt (filters : List TopicFilter) (position : UInt8) (value : Topic) : Prop :=
  ∀ topic ∈ filters, topic.position = position → value ∈ topic.alternatives

def topicsCover (scope filter : List TopicFilter) : Bool :=
  scope.all fun required =>
    match filter.filter (·.position = required.position) with
    -- The filter leaves this position open, so it also matches topics the scope excludes.
    | [] => false
    | first :: constraints =>
      let matchable := first.alternatives.filter fun value =>
        constraints.all (·.alternatives.contains value)
      containsAll required.alternatives matchable

theorem topicsCover_iff {scope filter : List TopicFilter} :
    topicsCover scope filter = true ↔ ∀ required ∈ scope, ConstrainsAt filter required.position ∧
        ∀ value, AllowedAt filter required.position value → value ∈ required.alternatives := by
  rw [topicsCover, List.all_eq_true]
  refine forall₂_congr fun required _ => ?_
  have hmem : ∀ topic, topic ∈ filter.filter (·.position = required.position) ↔
      topic ∈ filter ∧ topic.position = required.position := by
    intro topic; rw [List.mem_filter, decide_eq_true_iff]
  have hallowed : ∀ value, AllowedAt filter required.position value ↔
      ∀ topic ∈ filter.filter (·.position = required.position), value ∈ topic.alternatives := by
    intro value; simp only [hmem, and_imp, AllowedAt]
  simp only [hallowed]
  split
  · rename_i hnil
    refine iff_of_false Bool.false_ne_true fun ⟨⟨topic, htopic, hpos⟩, _⟩ => ?_
    have hin := (hmem topic).2 ⟨htopic, hpos⟩; rw [hnil] at hin; cases hin
  · rename_i first constraints hcons
    have hfirst := (hmem first).1 (hcons ▸ List.mem_cons_self)
    rw [hcons, containsAll_iff, and_iff_right ⟨first, hfirst⟩]
    refine forall_congr' fun value => ?_
    simp only [List.mem_filter, List.all_eq_true, List.contains_iff_mem, List.forall_mem_cons]

theorem topicsCover_refl (topics : List TopicFilter) : topicsCover topics topics = true :=
  topicsCover_iff.2 fun required hmem =>
    ⟨⟨required, hmem, rfl⟩, fun _ hallowed => hallowed required hmem rfl⟩

theorem topicsCover_trans {t₁ t₂ t₃ : List TopicFilter} (h₁ : topicsCover t₁ t₂ = true)
    (h₂ : topicsCover t₂ t₃ = true) : topicsCover t₁ t₃ = true := by
  rw [topicsCover_iff] at *
  intro required hreqd
  obtain ⟨⟨topic, htopic, hpos⟩, hsub⟩ := h₁ required hreqd
  refine ⟨?_, fun value _ => hsub value ?_⟩
  · have := (h₂ topic htopic).1; rwa [hpos] at this
  · intro middle hmid hat
    apply (h₂ middle hmid).2
    rwa [hat]

abbrev Address := Vector UInt8 20

instance transOrdAddress : TransOrd Address := inferInstance

abbrev TransactionHash := Vector UInt8 32

structure FilterScope where
  blockRange : Option BlockRange
  addresses : List Address
  topics : List TopicFilter
  transactionHashes : List TransactionHash
  transactionTypes : List UInt8
  senders : List Address
  recipients : List Address
  deriving DecidableEq

namespace FilterScope

/-- The scope that matches everything, `FilterScope::default`. -/
def wildcard : FilterScope := ⟨none, [], [], [], [], [], []⟩

variable (scope filter : FilterScope)

def coversValues : Bool :=
  listCovers scope.addresses filter.addresses &&
    topicsCover scope.topics filter.topics &&
    listCovers scope.transactionHashes filter.transactionHashes &&
    listCovers scope.transactionTypes filter.transactionTypes &&
    listCovers scope.senders filter.senders &&
    listCovers scope.recipients filter.recipients

/-- Material complete for this scope is complete for `filter`. -/
def covers : Bool :=
  (match scope.blockRange, filter.blockRange with
    | none, _ => true
    | some _, none => false
    | some scope, some filter => scope.start ≤ filter.start && filter.last ≤ scope.last) &&
  scope.coversValues filter

def coversAt (block : Nat) : Bool :=
  if filter.blockRange.any (!·.contains block) then true
  else scope.blockRange.all (·.contains block) && scope.coversValues filter

def matchesBlock (block : Nat) : Bool := scope.blockRange.all (·.contains block)

def matchesTransactionHash (hash : TransactionHash) : Bool :=
  listMatches scope.transactionHashes (some hash)

def matchesTransaction (transactionType : UInt8) (recipient : Option Address)
    (hash : TransactionHash) : Bool :=
  listMatches scope.transactionTypes (some transactionType) &&
    listMatches scope.recipients recipient &&
    (scope.transactionHashes.isEmpty || scope.matchesTransactionHash hash)

def matchesSender (sender : Option Address) : Bool := listMatches scope.senders sender

def matchesLogAddress (address : Address) : Bool := listMatches scope.addresses (some address)

def matchesLog (address : Address) (topics : List (List UInt8)) : Bool :=
  scope.matchesLogAddress address && scope.topics.all fun filter =>
      (topics[filter.position.toNat]?).any fun topic =>
        filter.alternatives.any fun alternative => alternative.toList = topic

def constrainsTransactions : Bool :=
  !scope.transactionTypes.isEmpty || !scope.transactionHashes.isEmpty ||
    !scope.senders.isEmpty || !scope.recipients.isEmpty

def constrainsLogs : Bool := !scope.addresses.isEmpty || !scope.topics.isEmpty

end FilterScope

inductive Item where
  | transaction (transactionType : UInt8) (recipient : Option Address) (hash : TransactionHash)
  | transactionHash (hash : TransactionHash)
  | sender (sender : Option Address)
  | log (address : Address) (topics : List (List UInt8))
  | logAddress (address : Address)

namespace FilterScope

def matchesItem (scope : FilterScope) : Item → Bool
  | .transaction transactionType recipient hash =>
    scope.matchesTransaction transactionType recipient hash
  | .transactionHash hash => scope.matchesTransactionHash hash
  | .sender sender => scope.matchesSender sender
  | .log address topics => scope.matchesLog address topics
  | .logAddress address => scope.matchesLogAddress address

def matchesAt (scope : FilterScope) (block : Nat) (item : Item) : Bool :=
  scope.matchesBlock block && scope.matchesItem item

variable {scope filter : FilterScope}

theorem coversValues_iff : scope.coversValues filter = true ↔
    listCovers scope.addresses filter.addresses = true ∧
    topicsCover scope.topics filter.topics = true ∧
    listCovers scope.transactionHashes filter.transactionHashes = true ∧
    listCovers scope.transactionTypes filter.transactionTypes = true ∧
    listCovers scope.senders filter.senders = true ∧
    listCovers scope.recipients filter.recipients = true := by
  simp only [coversValues, Bool.and_eq_true, and_assoc]

variable {block : Nat}

theorem matchesBlock_iff : scope.matchesBlock block = true ↔
    ∀ range, scope.blockRange = some range → range.start ≤ block ∧ block ≤ range.last := by
  rw [matchesBlock, Option.all_eq_true]; exact forall₂_congr fun range _ => BlockRange.contains_iff

theorem matchesTransaction_iff {transactionType : UInt8} {recip : Option Address}
    {hash : TransactionHash} : scope.matchesTransaction transactionType recip hash = true ↔
      listMatches scope.transactionTypes (some transactionType) = true ∧
      listMatches scope.recipients recip = true ∧
      listMatches scope.transactionHashes (some hash) = true := by
  have hwildcard : scope.transactionHashes.isEmpty = true →
      scope.matchesTransactionHash hash = true :=
    fun h => listMatches_iff.2 (.inl (List.isEmpty_iff.1 h))
  rw [matchesTransaction, Bool.and_eq_true, Bool.and_eq_true, Bool.or_eq_true,
    or_iff_right_of_imp hwildcard, and_assoc]
  rfl

variable {address : Address} {topics : List (List UInt8)}

theorem matchesLog_iff : scope.matchesLog address topics = true ↔
      listMatches scope.addresses (some address) = true ∧ ∀ pos, ConstrainsAt scope.topics pos →
      ∃ value : Topic, topics[pos.toNat]? = some value.toList ∧ AllowedAt scope.topics pos value := by
  rw [matchesLog, matchesLogAddress, Bool.and_eq_true, List.all_eq_true]
  refine and_congr_right fun _ => ?_
  simp only [Option.any_eq_true, List.any_eq_true, decide_eq_true_iff]
  constructor
  · rintro h pos ⟨first, hfirst, rfl⟩
    obtain ⟨topic, htopic, value, -, hvalue⟩ := h first hfirst
    refine ⟨value, by rw [htopic, hvalue], fun other hother hpos => ?_⟩
    obtain ⟨_, htopic', value', _, hvalue'⟩ := h other hother
    rw [hpos, htopic, Option.some.injEq] at htopic'
    -- The log has one topic there, so the alternatives the filters found are the same.
    have heq : value = value' := Vector.toList_inj.1 (by rw [hvalue, hvalue', htopic']); rwa [heq]
  · intro h topicFilter hmem
    obtain ⟨value, htopic, hallowed⟩ := h topicFilter.position ⟨topicFilter, hmem, rfl⟩
    exact ⟨value.toList, htopic, value, hallowed topicFilter hmem rfl, rfl⟩

theorem matchesBlock_of_covers (h : scope.covers filter = true)
    (hm : filter.matchesBlock block = true) : scope.matchesBlock block = true := by
  rw [covers, Bool.and_eq_true] at h
  rw [matchesBlock_iff] at *
  intro _ hrng
  have hcovers := h.1
  rw [hrng] at hcovers
  split at hcovers
  · rename_i heq; cases heq
  · cases hcovers
  · rename_i outer inner heq hinner
    cases heq
    simp only [Bool.and_eq_true, decide_eq_true_iff] at hcovers
    obtain ⟨hle, hge⟩ := hm inner hinner
    exact ⟨Nat.le_trans hcovers.1 hle, Nat.le_trans hge hcovers.2⟩

theorem matchesLog_of_coversValues (h : scope.coversValues filter = true)
    (hm : filter.matchesLog address topics = true) : scope.matchesLog address topics = true := by
  rw [coversValues_iff] at h
  rw [matchesLog_iff] at *
  refine ⟨listMatches_of_covers h.1 hm.1, ?_⟩
  rintro pos ⟨first, hfirst, rfl⟩
  obtain ⟨hconstr, -⟩ := topicsCover_iff.1 h.2.1 first hfirst
  obtain ⟨value, htopic, _⟩ := hm.2 first.position hconstr
  refine ⟨value, htopic, fun other hother hpos => ?_⟩
  apply (topicsCover_iff.1 h.2.1 other hother).2
  rwa [hpos]

theorem matchesItem_of_coversValues {item : Item} (h : scope.coversValues filter = true)
    (hm : filter.matchesItem item = true) : scope.matchesItem item = true := by
  obtain ⟨haddrs, -, hhashes, htypes, hsenders, hrecips⟩ := coversValues_iff.1 h
  cases item with
  | transaction transactionType recipient hash =>
    simp only [matchesItem, matchesTransaction_iff] at hm ⊢
    exact ⟨listMatches_of_covers htypes hm.1, listMatches_of_covers hrecips hm.2.1,
      listMatches_of_covers hhashes hm.2.2⟩
  | transactionHash hash => exact listMatches_of_covers hhashes hm
  | sender sender => exact listMatches_of_covers hsenders hm
  | log address topics => exact matchesLog_of_coversValues h hm
  | logAddress address => exact listMatches_of_covers haddrs hm

theorem coversValues_of_covers (h : scope.covers filter = true) :
    scope.coversValues filter = true := by
  rw [covers, Bool.and_eq_true] at h; exact h.2

theorem coversAt_iff : scope.coversAt filter block = true ↔ (filter.matchesBlock block = true →
      scope.matchesBlock block = true ∧ scope.coversValues filter = true) := by
  have hexcludes : (filter.blockRange.any (!·.contains block)) = !filter.matchesBlock block := by
    rw [matchesBlock]
    cases filter.blockRange <;> rfl
  rw [coversAt, hexcludes, ← Bool.and_eq_true]
  cases filter.matchesBlock block with
  | true => exact ⟨fun h _ => h, fun h => h rfl⟩
  | false => exact iff_of_true rfl nofun

variable {item : Item}

theorem matchesAt_of_coversAt (h : scope.coversAt filter block = true)
    (hm : filter.matchesAt block item = true) : scope.matchesAt block item = true := by
  rw [matchesAt, Bool.and_eq_true] at *
  obtain ⟨hblk, hvals⟩ := coversAt_iff.1 h hm.1
  exact ⟨hblk, matchesItem_of_coversValues hvals hm.2⟩

theorem matchesAt_of_covers (h : scope.covers filter = true)
    (hm : filter.matchesAt block item = true) : scope.matchesAt block item = true := by
  rw [matchesAt, Bool.and_eq_true] at *
  exact ⟨matchesBlock_of_covers h hm.1, matchesItem_of_coversValues (coversValues_of_covers h) hm.2⟩

theorem coversValues_refl (scope : FilterScope) : scope.coversValues scope = true :=
  coversValues_iff.2 ⟨listCovers_refl _, topicsCover_refl _, listCovers_refl _, listCovers_refl _,
    listCovers_refl _, listCovers_refl _⟩

theorem coversValues_trans {s₁ s₂ s₃ : FilterScope} (h₁ : s₁.coversValues s₂ = true)
    (h₂ : s₂.coversValues s₃ = true) : s₁.coversValues s₃ = true := by
  obtain ⟨ha, ht, hh, hy, hs, hr⟩ := coversValues_iff.1 h₁
  obtain ⟨ha', ht', hh', hy', hs', hr'⟩ := coversValues_iff.1 h₂
  exact coversValues_iff.2 ⟨listCovers_trans ha ha', topicsCover_trans ht ht',
    listCovers_trans hh hh', listCovers_trans hy hy', listCovers_trans hs hs',
    listCovers_trans hr hr'⟩

theorem covers_iff : scope.covers filter =
    true ↔ (∀ range, scope.blockRange = some range → ∃ inner, filter.blockRange = some inner ∧
    range.start ≤ inner.start ∧ inner.last ≤ range.last) ∧ scope.coversValues filter = true := by
  rw [covers, Bool.and_eq_true]
  refine and_congr_left fun _ => ?_
  cases scope.blockRange with
  | none => simp
  | some range =>
    cases filter.blockRange with
    | none => simp
    | some inner => simp

theorem covers_refl (scope : FilterScope) : scope.covers scope = true :=
  covers_iff.2 ⟨fun range hrng => ⟨range, hrng, le_rfl, le_rfl⟩, coversValues_refl scope⟩

theorem covers_trans {s₁ s₂ s₃ : FilterScope} (h₁ : s₁.covers s₂ = true)
    (h₂ : s₂.covers s₃ = true) : s₁.covers s₃ = true := by
  rw [covers_iff] at *
  refine ⟨fun range hrng => ?_, coversValues_trans h₁.2 h₂.2⟩
  obtain ⟨middle, hmid, hstart, hlast⟩ := h₁.1 range hrng
  obtain ⟨inner, hinner, hstart', hlast'⟩ := h₂.1 middle hmid
  exact ⟨inner, hinner, Nat.le_trans hstart hstart', Nat.le_trans hlast' hlast⟩

/-- Coverage speaks for every item: what a covered scope matches, the covering one matches, at any
height and, for coverage at one height, there. -/
structure CoverageSound : Prop where
  block : ∀ (scope filter : FilterScope) (block : Nat), scope.covers filter = true →
    filter.matchesBlock block = true → scope.matchesBlock block = true
  item : ∀ (scope filter : FilterScope) (item : Item), scope.covers filter = true →
    filter.matchesItem item = true → scope.matchesItem item = true
  blockAt : ∀ (scope filter : FilterScope) (block : Nat), scope.coversAt filter block = true →
    filter.matchesBlock block = true → scope.matchesBlock block = true
  itemAt : ∀ (scope filter : FilterScope) (block : Nat) (item : Item), scope.coversAt filter block =
    true → filter.matchesAt block item = true → scope.matchesAt block item = true
  refl : ∀ scope : FilterScope, scope.covers scope = true
  trans : ∀ s₁ s₂ s₃ : FilterScope, s₁.covers s₂ = true → s₂.covers s₃ = true → s₁.covers s₃ = true

theorem coverage_sound : CoverageSound where
  block _ _ _ h hm := matchesBlock_of_covers h hm
  item _ _ _ h hm := matchesItem_of_coversValues (coversValues_of_covers h) hm
  blockAt _ _ _ h hm := (coversAt_iff.1 h hm).1
  itemAt _ _ _ _ h hm := matchesAt_of_coversAt h hm
  refl := covers_refl
  trans _ _ _ := covers_trans

end FilterScope

end Leani.Filtering
