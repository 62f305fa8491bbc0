import Leani.EvmEvents.Layout

/-!
# Standard encodings and the work of the check

Every standard encoding passes the layout check. `visits` counts the values the check looks at: the
iterations of its loops, in the order the check makes them, also when it fails.
-/

namespace Leani.EvmEvents

open Library Library.ContractAbi Std List Option

mutual

def HasType : DynSolType → DynSolValue → Prop
  | .bytes, .bytes _ | .string, .bytes _ => True
  | .array element, .array items => ∀ item ∈ items, HasType element item
  | .fixedArray element size, .fixedArray items =>
    items.length = size ∧ ∀ item ∈ items, HasType element item
  | .tuple types, .tuple items => HaveTypes types items
  | .bool, .word w | .int _, .word w | .uint _, .word w | .fixedBytes _, .word w
  | .address, .word w | .function, .word w => w.length = 32
  | _, _ => False

def HaveTypes : List DynSolType → List DynSolValue → Prop
  | [], [] => True
  | ty :: types, item :: items => HasType ty item ∧ HaveTypes types items
  | _, _ => False

end

mutual

def encode : DynSolType → DynSolValue → List UInt8
  | .array element, .array items =>
    word items.length ++ assemble (items.map fun item =>
      ⟨element.shape.isDynamic, encode element item⟩)
  | .fixedArray element _, .fixedArray items =>
    assemble (items.map fun item => ⟨element.shape.isDynamic, encode element item⟩)
  | .tuple types, .tuple items => assemble (encodeParts types items)
  | _, .bytes bytes => word bytes.length ++ (bytes ++ List.replicate (padding bytes.length) 0)
  | _, .word w => w
  | _, _ => []

def encodeParts : List DynSolType → List DynSolValue → List Part
  | ty :: types, item :: items =>
    ⟨ty.shape.isDynamic, encode ty item⟩ :: encodeParts types items
  | _, _ => []

end

mutual

theorem encodes_encode : ∀ {ty : DynSolType} {value : DynSolValue}, HasType ty value →
    Encodes ty.shape (encode ty value)
  | .bytes, .bytes bytes, _ | .string, .bytes bytes, _ => by
    rw [DynSolType.shape, Encodes, encode]
    exact ⟨bytes, _, length_replicate, rfl⟩
  | .array element, .array items, h => by
    rw [HasType] at h
    rw [DynSolType.shape, Encodes, encode]
    refine ⟨items.map fun item => ⟨element.shape.isDynamic, encode element item⟩, ?_, ?_⟩
    · intro part hpart
      obtain ⟨item, hitem, rfl⟩ := mem_map.1 hpart
      exact ⟨rfl, encodes_encode (h item hitem)⟩
    · rw [length_map]
  | .fixedArray element size, .fixedArray items, h => by
    rw [HasType] at h
    rw [DynSolType.shape, Encodes, encode]
    refine ⟨_, ?_, ?_, rfl⟩
    · rw [length_map, h.1]
    · intro part hpart
      obtain ⟨item, hitem, rfl⟩ := mem_map.1 hpart; exact ⟨rfl, encodes_encode (h.2 item hitem)⟩
  | .tuple types, .tuple items, h => by
    rw [HasType] at h
    rw [DynSolType.shape, Encodes, encode]; exact ⟨_, encodesAll_encodeParts h, rfl⟩
  | .bool, .word w, h | .int _, .word w, h | .uint _, .word w, h | .fixedBytes _, .word w, h
  | .address, .word w, h | .function, .word w, h => by
    rw [DynSolType.shape, Encodes, encode]; exact h

theorem encodesAll_encodeParts : ∀ {types : List DynSolType} {items : List DynSolValue},
    HaveTypes types items → EncodesAll (shapes types) (encodeParts types items)
  | [], [], _ => by
    rw [shapes, EncodesAll, encodeParts]
    nofun
  | ty :: types, item :: items, h => by
    rw [HaveTypes] at h
    rw [shapes, EncodesAll, encodeParts]
    exact ⟨_, _, rfl, rfl, encodes_encode h.1, encodesAll_encodeParts h.2⟩

end

structure VisitedItem extends LayoutItem where
  visits : Nat → Nat

/-- The values `sequenceLoop` looks at, up to where it fails. -/
def visitsLoop (data : List UInt8) (base : Nat) : List VisitedItem → Nat → Nat → Nat
  | [], _, _ => 0
  | item :: items, head, tail =>
    if item.dynamic then
      if length data head = some tail then
        match checkedAdd base tail with
        | none => 1
        | some start =>
          match item.encodedLen start >>= checkedAdd tail with
          | none => 1 + item.visits start
          | some tail => 1 + item.visits start +
            visitsLoop data base items (saturatingAdd head item.headSize) tail
      else 1
    else 1 + visitsLoop data base items (saturatingAdd head item.headSize) tail

def visitsSequence (data : List UInt8) (items : List VisitedItem) (heads base : Nat) : Nat :=
  match checkedAdd base heads with
  | none => 0
  | some stop => if stop ≤ data.length then visitsLoop data base items base heads else 0

mutual

def visits (alloy : Alloy) (data : List UInt8) : DynSolType → Nat → Nat
  | .array element, at_ =>
    match length data at_ with
    | none => 0
    | some count =>
      match checkedMul count (headSize alloy element), checkedAdd at_ 32 with
      | some heads, some base => visitsSequence data (List.replicate count
          ⟨⟨alloy.isDynamic element, headSize alloy element, encodedLen alloy data element⟩,
            visits alloy data element⟩) heads base
      | _, _ => 0
  | .fixedArray element count, at_ =>
    match checkedMul count (headSize alloy element) with
    | none => 0
    | some heads => visitsSequence data (List.replicate count
        ⟨⟨alloy.isDynamic element, headSize alloy element, encodedLen alloy data element⟩,
          visits alloy data element⟩) heads at_
  | .tuple types, at_ =>
    match headSizes alloy types with
    | none => 0
    | some heads => visitsSequence data (visitedItems alloy data types) heads at_
  | _, _ => 0

def visitedItems (alloy : Alloy) (data : List UInt8) : List DynSolType → List VisitedItem
  | [] => []
  | ty :: types =>
    ⟨⟨alloy.isDynamic ty, headSize alloy ty, encodedLen alloy data ty⟩, visits alloy data ty⟩ ::
      visitedItems alloy data types

end

variable {alloy : Alloy} {data : List UInt8}

theorem toLayoutItem_visitedItems (types : List DynSolType) :
    (visitedItems alloy data types).map VisitedItem.toLayoutItem = layoutItems alloy data types := by
  induction types with
  | nil => rfl
  | cons ty types ih => rw [visitedItems, layoutItems, map_cons, ih]

theorem headSize_visitedItems (types : List DynSolType) :
    (visitedItems alloy data types).map (fun item => item.headSize) = types.map (headSize alloy) := by
  induction types with
  | nil => rfl
  | cons ty types ih => rw [visitedItems, map_cons, ih, map_cons]

def Bounded (data : List UInt8) (check : Nat → Option Nat) (visits : Nat → Nat) : Prop :=
  ∀ at_, 32 * visits at_ ≤ (check at_).getD (data.length - at_)

structure FewVisits (data : List UInt8) (item : VisitedItem) : Prop where
  headSize : 32 ≤ item.headSize
  bounded : Bounded data item.encodedLen item.visits
  within : ∀ at_ n, item.encodedLen at_ = some n → at_ + n ≤ data.length

theorem le_of_sequenceLoop {items : List LayoutItem} {base head tail n : Nat}
    (h : sequenceLoop data base items head tail = some n) : tail ≤ n := by
  induction items generalizing head tail with
  | nil =>
    rw [sequenceLoop, some.injEq] at h; omega
  | cons item items ih =>
    rw [sequenceLoop] at h
    split at h
    · simp only [bind_eq_bind, bind_eq_some_iff, ite_none_right_eq_some, checkedAdd_eq_some] at h
      obtain ⟨_, -, rfl, _, -, _, -, _, ⟨-, rfl⟩, hloop⟩ := h
      have := ih hloop; omega
    · exact ih h

theorem visitsLoop_le (hdata : data.length ≤ isizeMax) {items : List VisitedItem}
    (hitems : ∀ item ∈ items, FewVisits data item) {base head tail : Nat}
    (hheads : head + (items.map fun item => item.headSize).sum ≤ data.length)
    (htail : base + tail ≤ data.length) :
    32 * visitsLoop data base items head tail ≤ (items.map fun item => item.headSize).sum +
      ((sequenceLoop data base (items.map VisitedItem.toLayoutItem) head tail).getD
        (data.length - base) - tail) := by
  have hlt := isizeMax_lt
  induction items generalizing head tail with
  | nil => exact Nat.zero_le _
  | cons item items ih =>
    obtain ⟨hitem, hrest⟩ := forall_mem_cons.1 hitems
    have hsize := hitem.headSize
    rw [map_cons, sum_cons] at hheads ⊢
    have hnext : saturatingAdd head item.headSize = head + item.headSize := by
      rw [saturatingAdd, Nat.min_eq_left (by omega)]
    rw [visitsLoop, map_cons, sequenceLoop, hnext]
    cases hdyn : item.dynamic with
    | false =>
      have := @ih hrest (head + item.headSize) tail (by omega) htail
      rw [if_neg Bool.false_ne_true, if_neg Bool.false_ne_true]; omega
    | true =>
      rw [if_pos rfl, if_pos rfl]
      have hstart : checkedAdd base tail = some (base + tail) :=
        checkedAdd_eq_some.2 ⟨by omega, rfl⟩
      by_cases hoff : length data head = some tail
      · have hbounded := hitem.bounded (base + tail)
        rw [if_pos hoff, hoff, hstart]
        simp only [bind_eq_bind, bind_some, if_true]
        cases hlen : item.encodedLen (base + tail) with
        | none =>
          rw [hlen] at hbounded; simp only [bind_none, getD_none] at hbounded ⊢; omega
        | some size =>
          have hwithin := hitem.within _ _ hlen
          have hsum : checkedAdd tail size = some (tail + size) :=
            checkedAdd_eq_some.2 ⟨by omega, rfl⟩
          have := @ih hrest (head + item.headSize) (tail + size) (by omega) (by omega)
          rw [hlen] at hbounded
          simp only [bind_some, hsum, getD_some] at hbounded ⊢
          cases hloop : sequenceLoop data base (items.map VisitedItem.toLayoutItem)
              (head + item.headSize) (tail + size) with
          | none =>
            rw [hloop, getD_none] at this; rw [getD_none]; omega
          | some n =>
            have hgrows := le_of_sequenceLoop hloop
            rw [hloop, getD_some] at this; rw [getD_some]; omega
      · rw [if_neg hoff]; omega

theorem visitsSequence_le (hdata : data.length ≤ isizeMax) {items : List VisitedItem}
    (hitems : ∀ item ∈ items, FewVisits data item) {headsLen base : Nat}
    (hheads : (items.map fun item => item.headSize).sum = headsLen) :
    32 * visitsSequence data items headsLen base ≤
      (sequence data (items.map VisitedItem.toLayoutItem) headsLen base).getD
        (data.length - base) := by
  unfold visitsSequence sequence
  cases hstop : checkedAdd base headsLen with
  | none => exact Nat.zero_le _
  | some stop =>
    obtain ⟨-, rfl⟩ := checkedAdd_eq_some.1 hstop
    simp only [bind_eq_bind, bind_some]
    by_cases hle : base + headsLen ≤ data.length
    · rw [if_pos hle, if_pos hle]
      have hloop := visitsLoop_le hdata hitems (by rw [hheads]; exact hle) hle
      rw [hheads] at hloop
      cases hseq : sequenceLoop data base (items.map VisitedItem.toLayoutItem) base headsLen with
      | none =>
        rw [hseq, getD_none] at hloop; rw [getD_none]; omega
      | some n =>
        have hgrows := le_of_sequenceLoop hseq
        rw [hseq, getD_some] at hloop; rw [getD_some]; omega
    · rw [if_neg hle]; exact Nat.zero_le _

theorem sum_of_headSizes {types : List DynSolType} {n : Nat}
    (h : headSizes alloy types = some n) : (types.map (headSize alloy)).sum = n := by
  have hfold : ∀ total, types.foldlM (fun total ty => checkedAdd total (headSize alloy ty)) total =
      some n → total + (types.map (headSize alloy)).sum = n := by
    clear h
    induction types with
    | nil =>
      intro total h; exact some.inj h
    | cons ty types ih =>
      intro total h
      rw [foldlM_cons, bind_eq_bind, bind_eq_some_iff] at h
      obtain ⟨_, hadd, hrest⟩ := h
      obtain ⟨-, rfl⟩ := checkedAdd_eq_some.1 hadd
      rw [map_cons, sum_cons, ← Nat.add_assoc]; exact ih _ hrest
  have := hfold 0 h; rwa [Nat.zero_add] at this

theorem checkedMul_eq_some {a b n : Nat} :
    checkedMul a b = some n ↔ a * b ≤ usizeMax ∧ a * b = n := by
  unfold checkedMul
  split <;> simp_all

theorem encodedLen_within (hdata : data.length ≤ isizeMax) (hmeasures : alloy.Measures)
    {ty : DynSolType} (hty : ty.shape.Inhabited) {at_ n : Nat}
    (h : encodedLen alloy data ty at_ = some n) : at_ + n ≤ data.length := by
  by_cases hword : ty.shape = .word
  · cases ty with
    | bytes => cases hword
    | string => cases hword
    | array element => cases hword
    | fixedArray element size => cases hword
    | tuple types => cases hword
    | _ => cases h
  · obtain ⟨_, -, rfl, hat⟩ := (encodedLen_eq_some hdata hmeasures hty hword).1 h; exact hat.le

section

variable (hdata : data.length ≤ isizeMax) (hmeasures : alloy.Measures)

include hdata hmeasures

variable {ty : DynSolType}

theorem fewVisits (hty : ty.shape.Inhabited)
    (h : Bounded data (encodedLen alloy data ty) (visits alloy data ty)) :
    FewVisits data ⟨⟨alloy.isDynamic ty, headSize alloy ty, encodedLen alloy data ty⟩,
      visits alloy data ty⟩ where
  headSize := by
    have := Shape.le_headSize hty
    simp only [hmeasures.headSize hty]; exact Nat.le_min.2 ⟨this, by decide⟩
  bounded := h
  within _ _ := encodedLen_within hdata hmeasures hty

theorem visitsSequence_replicate (hty : ty.shape.Inhabited)
    (h : Bounded data (encodedLen alloy data ty) (visits alloy data ty)) {count headsLen : Nat}
    (hheads : checkedMul count (headSize alloy ty) = some headsLen) (base : Nat) :
    32 * visitsSequence data (replicate count
        ⟨⟨alloy.isDynamic ty, headSize alloy ty, encodedLen alloy data ty⟩, visits alloy data ty⟩)
        headsLen base ≤ (sequence data (replicate count
        ⟨alloy.isDynamic ty, headSize alloy ty, encodedLen alloy data ty⟩) headsLen base).getD
          (data.length - base) := by
  obtain ⟨-, rfl⟩ := checkedMul_eq_some.1 hheads
  have hfew : ∀ item ∈ replicate count (⟨⟨alloy.isDynamic ty, headSize alloy ty,
      encodedLen alloy data ty⟩, visits alloy data ty⟩ : VisitedItem), FewVisits data item := by
    intro item hitem; rw [eq_of_mem_replicate hitem]; exact fewVisits hdata hmeasures hty h
  have hsum : ((replicate count (⟨⟨alloy.isDynamic ty, headSize alloy ty,
      encodedLen alloy data ty⟩, visits alloy data ty⟩ : VisitedItem)).map
        fun item => item.headSize).sum = count * headSize alloy ty := by
    rw [map_replicate, sum_replicate_nat]
  have := @visitsSequence_le data hdata _ hfew _ base hsum; rwa [map_replicate] at this

omit hmeasures in
theorem bounded_tuple {types : List DynSolType}
    (hitems : ∀ item ∈ visitedItems alloy data types, FewVisits data item) :
    Bounded data (encodedLen alloy data (.tuple types)) (visits alloy data (.tuple types)) := by
  intro at_
  rw [visits, encodedLen]
  cases hheads : headSizes alloy types with
  | none => exact Nat.zero_le _
  | some headsLen =>
    have hsum := sum_of_headSizes hheads
    rw [← @headSize_visitedItems alloy data] at hsum
    have := @visitsSequence_le data hdata _ hitems _ at_ hsum
    rwa [toLayoutItem_visitedItems] at this

mutual

theorem bounded_visits : ∀ {ty : DynSolType}, ty.shape.Inhabited →
    Bounded data (encodedLen alloy data ty) (visits alloy data ty)
  | .array element, h, at_ => by
    have hinner : element.shape.Inhabited := h
    rw [visits, encodedLen]
    simp only [bind_eq_bind]
    cases hlen : EvmEvents.length data at_ with
    | none => exact Nat.zero_le _
    | some count =>
      simp only [bind_some]
      cases hheads : checkedMul count (headSize alloy element) with
      | none => exact Nat.zero_le _
      | some headsLen =>
        simp only [bind_some]
        cases hbase : checkedAdd at_ 32 with
        | none => exact Nat.zero_le _
        | some base =>
          obtain ⟨-, rfl⟩ := checkedAdd_eq_some.1 hbase
          have hle := visitsSequence_replicate hdata hmeasures hinner (bounded_visits hinner) hheads
            (at_ + 32)
          simp only [bind_some]
          cases hseq : sequence data (replicate count
              ⟨alloy.isDynamic element, headSize alloy element, encodedLen alloy data element⟩)
              headsLen (at_ + 32) with
          | none =>
            rw [hseq, getD_none] at hle; rw [bind_none, getD_none]; omega
          | some n =>
            have hcounts : Counts (some headsLen) (count * element.shape.headSize) := by
              rw [← hheads]
              refine Counts.mul count ?_
              rw [hmeasures.headSize hinner]; exact counts_min _
            obtain ⟨_, -, hat, rfl⟩ :=
              (sequence_replicate hdata (lays hdata hmeasures hinner) hcounts).1 hseq
            have hwithin := hat.le
            rw [hseq, getD_some] at hle
            rw [bind_some]
            unfold checkedAdd
            split
            · rw [getD_some]; omega
            · rw [getD_none]; omega
  | .fixedArray element count, h, at_ => by
    have hinner := h.2
    rw [visits, encodedLen]
    cases hheads : checkedMul count (headSize alloy element) with
    | none => exact Nat.zero_le _
    | some headsLen =>
      exact visitsSequence_replicate hdata hmeasures hinner (bounded_visits hinner) hheads at_
  | .tuple _, h, at_ => bounded_tuple hdata (fewVisits_visitedItems h.2) at_
  | .bool, _, _ | .int _, _, _ | .uint _, _, _ | .fixedBytes _, _, _ | .address, _, _
  | .function, _, _ | .bytes, _, _ | .string, _, _ => Nat.zero_le _

theorem fewVisits_visitedItems : ∀ {types : List DynSolType},
    Shape.AllInhabited (shapes types) → ∀ item ∈ visitedItems alloy data types, FewVisits data item
  | [], _ => nofun
  | _ :: _, h => forall_mem_cons.mpr
    ⟨fewVisits hdata hmeasures h.1 (bounded_visits h.1), fewVisits_visitedItems h.2⟩

end

end

variable {event : Event} {abi : EventAbi}

theorem encodedLen_body (hmeasures : alloy.Measures)
    (hparsed : parse alloy event = .ok abi) (data : Slice) : encodedLen alloy data.bytes abi.body 0 =
    some data.bytes.length ↔ Encodes abi.body.shape data.bytes := by
  obtain ⟨hbody, hinhab⟩ := parse_body hparsed
  rw [hbody, encodedLen_tuple data.length_le hmeasures hinhab
    (laysAll data.length_le hmeasures hinhab)]
  constructor
  · rintro ⟨_, henc, hlen, hat⟩; rwa [at_zero.1 ⟨hat, hlen⟩] at henc
  · intro henc
    obtain ⟨hat, hlen⟩ := at_zero.2 (rfl : data.bytes = data.bytes)
    exact ⟨data.bytes, henc, hlen, hat⟩

structure LayoutChecked (alloy : Alloy) (abi : EventAbi) (data : Slice) : Prop where
  /-- The whole data is its encoded length when the offsets name the next unused byte, in order, the
  lengths fit and no byte is left over. -/
  exactly : encodedLen alloy data.bytes abi.body 0 = some data.bytes.length ↔
    Encodes abi.body.shape data.bytes
  standard : ∀ value, HasType abi.body value → encode abi.body value = data.bytes →
    encodedLen alloy data.bytes abi.body 0 = some data.bytes.length
  bounded : 32 * visits alloy data.bytes abi.body 0 ≤ data.bytes.length

theorem layout_checked (hmeasures : alloy.Measures)
    (hparsed : parse alloy event = .ok abi) (data : Slice) : LayoutChecked alloy abi data := by
  obtain ⟨hbody, hinhabited⟩ := parse_body hparsed
  have hlays := laysAll data.length_le hmeasures hinhabited
  refine ⟨encodedLen_body hmeasures hparsed data, fun _ htype hvalue => ?_, ?_⟩
  · rw [encodedLen_body hmeasures hparsed, ← hvalue]; exact encodes_encode htype
  · have hbounded := bounded_tuple data.length_le
      (fewVisits_visitedItems data.length_le hmeasures hinhabited) 0
    rw [hbody]
    cases hlen : encodedLen alloy data.bytes (.tuple abi.bodyTypes) 0 with
    | none =>
      rw [hlen, getD_none] at hbounded; omega
    | some n =>
      obtain ⟨_, -, rfl, hat⟩ :=
        (encodedLen_tuple data.length_le hmeasures hinhabited hlays).1 hlen
      have hwithin := hat.le; rw [hlen, getD_some] at hbounded; omega

def numberAlloy : Alloy where
  resolve param :=
    if param.ty = "address" then .ok .address
    else if param.ty = "uint256" then .ok (.uint 256)
    else .error "unknown type"
  display _ := "type"
  isDynamic ty := ty.shape.isDynamic
  minimumWords ty := ty.shape.words
  abiDecodeSequence
    | .tuple [.uint 256], data =>
      if data.length = 32 then .ok (.tuple [.word data]) else .error "buffer overrun"
    | _, _ => .error "type mismatch"
  abiEncodeSequence
    | .tuple [.word word] => some word
    | _ => none

theorem measures_numberAlloy : numberAlloy.Measures := ⟨fun _ _ => rfl, fun _ _ => rfl⟩

def deposit : Event :=
  ⟨"Deposit", [⟨⟨"address", "owner", []⟩, true⟩, ⟨⟨"uint256", "amount", []⟩, false⟩], false⟩

def depositAbi : EventAbi :=
  ⟨"Deposit", [⟨"owner", .word .address, true⟩, ⟨"amount", .word (.uint 256), false⟩],
    .tuple [.uint 256]⟩

theorem parse_deposit : parse numberAlloy deposit = .ok depositAbi := rfl

theorem layout_checked_deposit :
    LayoutChecked numberAlloy depositAbi ⟨word 5, by rw [length_word]; decide⟩ :=
  layout_checked measures_numberAlloy parse_deposit _

end Leani.EvmEvents
