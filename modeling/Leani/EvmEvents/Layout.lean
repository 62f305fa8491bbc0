import Leani.EvmEvents.Abi

/-!
# The layout check

A type's encoded length is that of its data exactly when the data lays out a value of the type: the
offsets name the next unused byte, the lengths fit and no byte is left over. The check visits at most
one value for each word of the data.
-/

namespace Leani.EvmEvents

open Library Library.ContractAbi Std

mutual

def DynSolType.shape : DynSolType → Shape
  | .bytes | .string => .bytes
  | .array element => .array element.shape
  | .fixedArray element size => .fixedArray element.shape size
  | .tuple types => .tuple (shapes types)
  | .bool | .int _ | .uint _ | .fixedBytes _ | .address | .function => .word

def shapes : List DynSolType → List Shape
  | [] => []
  | ty :: types => ty.shape :: shapes types

end

theorem shapes_eq_map (types : List DynSolType) : shapes types = types.map DynSolType.shape := by
  induction types with
  | nil => rfl
  | cons ty types ih => rw [shapes, ih, List.map_cons]

/-- What the library says of types without empty arrays or tuples; a number of words past `usize`
may be any such number. -/
structure Alloy.Measures (alloy : Alloy) : Prop where
  isDynamic : ∀ ty : DynSolType, ty.shape.Inhabited → alloy.isDynamic ty = ty.shape.isDynamic
  minimumWords : ∀ ty : DynSolType, ty.shape.Inhabited →
    min (alloy.minimumWords ty) usizeMax = min ty.shape.words usizeMax

structure Slice where
  bytes : List UInt8
  length_le : bytes.length ≤ isizeMax

def At (data : List UInt8) (at_ : Nat) (e : List UInt8) : Prop :=
  (data.drop at_).take e.length = e ∧ at_ + e.length ≤ data.length

variable {data : List UInt8} {at_ : Nat}

variable {n : Nat}

theorem at_take (h : at_ + n ≤ data.length) : At data at_ ((data.drop at_).take n) := by
  have hlen : ((data.drop at_).take n).length = n := by
    rw [List.length_take, List.length_drop]; omega
  refine ⟨by rw [hlen], by omega⟩

theorem at_append {a b : List UInt8} :
    At data at_ (a ++ b) ↔ At data at_ a ∧ At data (at_ + a.length) b := by
  unfold At
  rw [List.length_append, List.take_add, List.drop_drop]
  constructor
  · rintro ⟨happend, hle⟩
    have hlen : ((data.drop at_).take a.length).length = a.length := by
      rw [List.length_take, List.length_drop]; omega
    obtain ⟨ha, hb⟩ := List.append_inj happend hlen; exact ⟨⟨ha, by omega⟩, hb, by omega⟩
  · rintro ⟨⟨ha, -⟩, hb, hle⟩; exact ⟨by rw [ha, hb], by omega⟩

theorem at_nil (h : at_ ≤ data.length) : At data at_ [] := ⟨rfl, h⟩

variable {e : List UInt8}

theorem At.le (h : At data at_ e) : at_ + e.length ≤ data.length := h.2

theorem At.eq_take (h : At data at_ e) (hn : e.length = n) : e = (data.drop at_).take n := by
  rw [← hn]; exact h.1.symm

theorem at_zero : At data 0 e ∧ e.length = data.length ↔ e = data := by
  constructor
  · rintro ⟨h, hlen⟩
    have htake := h.1; rw [List.drop_zero, hlen, List.take_length] at htake; exact htake.symm
  · rintro rfl; exact ⟨⟨by rw [List.drop_zero, List.take_length], by omega⟩, rfl⟩

theorem checkedAdd_eq_some {a b : Nat} : checkedAdd a b = some n ↔ a + b ≤ usizeMax ∧ a + b = n := by
  unfold checkedAdd
  split <;> simp_all

def Counts (count : Option Nat) (n : Nat) : Prop :=
  (n ≤ isizeMax → count = some n) ∧ ∀ m, count = some m → m ≤ isizeMax → n = m

theorem isizeMax_lt : isizeMax < usizeMax := by decide

theorem counts_min (n : Nat) : Counts (some (min n usizeMax)) n := by
  have hlt := isizeMax_lt
  refine ⟨fun _ => ?_, fun _ hm _ => ?_⟩
  · rw [Nat.min_eq_left (by omega)]
  · rw [Option.some.injEq] at hm; omega

theorem Counts.add {a b m : Nat} (ha : Counts (some a) n) (hb : Counts (some b) m) :
    Counts (checkedAdd a b) (n + m) := by
  have hlt := isizeMax_lt
  refine ⟨fun _ => ?_, fun _ hk _ => ?_⟩
  · have hna := Option.some.inj (ha.1 (by omega))
    have hmb := Option.some.inj (hb.1 (by omega)); rw [checkedAdd_eq_some, hna, hmb]; omega
  · obtain ⟨-, _⟩ := checkedAdd_eq_some.1 hk
    have hna := ha.2 a rfl (by omega)
    have hmb := hb.2 b rfl (by omega); omega

theorem Counts.mul {a : Nat} (k : Nat) (ha : Counts (some a) n) :
    Counts (checkedMul k a) (k * n) := by
  have hlt := isizeMax_lt
  rcases Nat.eq_zero_or_pos k with rfl | hk
  · refine ⟨fun _ => ?_, fun m hm _ => ?_⟩
    · rw [checkedMul, Nat.zero_mul, Nat.zero_mul, if_pos (Nat.zero_le _)]
    · rw [checkedMul, Nat.zero_mul, if_pos (Nat.zero_le _), Option.some.injEq] at hm
      rw [Nat.zero_mul, hm]
  · refine ⟨fun h => ?_, fun m hm _ => ?_⟩
    · have hna := Option.some.inj (ha.1 (Nat.le_trans (Nat.le_mul_of_pos_left n hk) h))
      rw [checkedMul, hna, if_pos (by omega)]
    · unfold checkedMul at hm
      split at hm
      · rw [Option.some.injEq] at hm
        have hna := ha.2 a rfl (by
          have := Nat.le_mul_of_pos_left a hk; omega)
        rw [hna, hm]
      · cases hm

theorem counts_headSizes {alloy : Alloy} {types : List DynSolType}
    (h : ∀ ty ∈ types, Counts (some (headSize alloy ty)) ty.shape.headSize) :
    Counts (headSizes alloy types) (types.map fun ty => ty.shape.headSize).sum := by
  have hfold : ∀ total n, Counts (some total) n →
      Counts (types.foldlM (fun total ty => checkedAdd total (headSize alloy ty)) total)
        (n + (types.map fun ty => ty.shape.headSize).sum) := by
    induction types with
    | nil =>
      intro total n htotal; exact htotal
    | cons ty types ih =>
      intro total n htotal
      obtain ⟨hty, htypes⟩ := List.forall_mem_cons.1 h
      have hadd := htotal.add hty
      rw [List.foldlM_cons, List.map_cons, List.sum_cons, ← Nat.add_assoc]
      cases hsum : checkedAdd total (headSize alloy ty) with
      | none =>
        rw [hsum] at hadd
        refine ⟨fun _ => ?_, fun m hm => by cases hm⟩
        have := hadd.1 (by omega); cases this
      | some sum =>
        rw [hsum] at hadd; exact ih htypes sum _ hadd
  have := hfold 0 0 ⟨fun _ => rfl, fun m hm _ => Option.some.inj hm⟩
  rwa [Nat.zero_add] at this

theorem Alloy.Measures.headSize {alloy : Alloy} (h : alloy.Measures) {ty : DynSolType}
    (hty : ty.shape.Inhabited) : headSize alloy ty = min ty.shape.headSize usizeMax := by
  have hwords := h.minimumWords ty hty
  rw [EvmEvents.headSize, Shape.headSize, h.isDynamic ty hty, saturatingMul]
  split
  · rfl
  · omega

theorem length_eq_some (hdata : data.length ≤ isizeMax) :
    length data at_ = some n ↔ n ≤ usizeMax ∧ At data at_ (word n) := by
  have hlt := isizeMax_lt
  have husize : usizeMax < 256 ^ 32 := by decide
  unfold length
  cases hstop : checkedAdd at_ 32 with
  | none =>
    refine iff_of_false nofun fun ⟨_, hat⟩ => ?_
    have hle := hat.le
    rw [length_word] at hle
    have : checkedAdd at_ 32 = some (at_ + 32) := checkedAdd_eq_some.2 ⟨by omega, rfl⟩
    rw [hstop] at this; cases this
  | some stop =>
    obtain ⟨-, rfl⟩ := checkedAdd_eq_some.1 hstop
    simp only [Option.bind_eq_bind, Option.bind_some]
    by_cases hle : at_ + 32 ≤ data.length
    · have htake : ((data.drop at_).take 32).length = 32 := by
        rw [List.length_take, List.length_drop]; omega
      rw [if_pos hle, Option.ite_none_right_eq_some, Option.some.injEq]
      constructor
      · rintro ⟨hfits, rfl⟩
        refine ⟨hfits, ?_⟩
        have hword : (data.drop at_).take 32 = word (BigEndian.number ((data.drop at_).take 32)) :=
          (BigEndian.eq_bytes_iff (by omega)).2 ⟨htake, rfl⟩
        rw [← hword]; exact at_take hle
      · rintro ⟨hfits, hat⟩
        have hword := hat.eq_take (length_word n)
        have hnum := ((BigEndian.eq_bytes_iff (by omega)).1 hword.symm).2
        exact ⟨by rw [hnum]; exact hfits, hnum⟩
    · rw [if_neg hle]
      refine iff_of_false nofun fun ⟨_, hat⟩ => ?_
      have := hat.le; rw [length_word] at this; exact hle this

def PartOf (shape : Shape) (part : Part) : Prop :=
  part.dynamic = shape.isDynamic ∧ Encodes shape part.bytes

structure Lays (data : List UInt8) (item : LayoutItem) (shape : Shape) : Prop where
  dynamic : item.dynamic = shape.isDynamic
  headSize : item.headSize = min shape.headSize usizeMax
  encodedLen : shape.isDynamic = true → ∀ {at_ n : Nat}, item.encodedLen at_ = some n ↔
    ∃ e, Encodes shape e ∧ e.length = n ∧ At data at_ e

variable {items : List LayoutItem} {shapes : List Shape}

theorem sequenceLoop_eq_some (hdata : data.length ≤ isizeMax)
    (hitems : List.Forall₂ (Lays data) items shapes) {base head tail : Nat}
    (hheads : head + (shapes.map Shape.headSize).sum ≤ data.length)
    (htail : base + tail ≤ data.length) : sequenceLoop data base items head tail = some n ↔ ∃ parts,
      List.Forall₂ PartOf shapes parts ∧ At data head (heads tail parts) ∧
        At data (base + tail) (tails parts) ∧ n = tail + (tails parts).length := by
  have hlt := isizeMax_lt
  induction hitems generalizing head tail with
  | nil =>
    rw [sequenceLoop, Option.some.injEq]
    constructor
    · rintro rfl; exact ⟨[], .nil, at_nil (by omega), at_nil htail, rfl⟩
    · rintro ⟨parts, hparts, -, -, rfl⟩
      rw [List.forall₂_nil_left_iff] at hparts; rw [hparts]; rfl
  | @cons item shape items shapes hitem hitems ih =>
    rw [List.map_cons, List.sum_cons] at hheads
    have hsize : item.headSize = shape.headSize := by
      rw [hitem.headSize, Nat.min_eq_left (by omega)]
    have hnext : saturatingAdd head item.headSize = head + shape.headSize := by
      rw [hsize, saturatingAdd, Nat.min_eq_left (by omega)]
    rw [sequenceLoop, hitem.dynamic, hnext]
    cases hdyn : shape.isDynamic with
    | false =>
      have hshape : shape.headSize = 32 * shape.words := by
        rw [Shape.headSize, hdyn]; rfl
      rw [if_neg Bool.false_ne_true]
      refine (@ih (head + shape.headSize) tail (by omega) htail).trans ?_
      constructor
      · rintro ⟨rest, hrest, hhead, htails, rfl⟩
        have hlen : ((data.drop head).take shape.headSize).length = shape.headSize := by
          rw [List.length_take, List.length_drop]; omega
        refine ⟨⟨false, (data.drop head).take shape.headSize⟩ :: rest, .cons ⟨hdyn.symm, ?_⟩ hrest,
          ?_, htails, rfl⟩
        · exact (encodes_static hdyn).2 (hlen.trans hshape)
        · refine at_append.2 ⟨at_take (by omega), ?_⟩
          rw [hlen]; exact hhead
      · rintro ⟨parts, hparts, hhead, htails, rfl⟩
        obtain ⟨part, rest, ⟨hpart, henc⟩, hrest, rfl⟩ := List.forall₂_cons_left_iff.1 hparts
        rw [hdyn] at hpart
        rw [heads, hpart, if_neg Bool.false_ne_true, at_append,
          (encodes_static hdyn).1 henc, ← hshape] at hhead
        rw [tails, hpart, if_neg Bool.false_ne_true] at htails
        refine ⟨rest, hrest, hhead.2, htails, ?_⟩
        rw [tails, hpart, if_neg Bool.false_ne_true]
    | true =>
      have hshape : shape.headSize = 32 := by
        rw [Shape.headSize, hdyn]; rfl
      have hstart : checkedAdd base tail = some (base + tail) :=
        checkedAdd_eq_some.2 ⟨by omega, rfl⟩
      rw [if_pos rfl]
      simp only [Option.bind_eq_bind, Option.bind_eq_some_iff, hstart, Option.bind_some,
        Option.ite_none_right_eq_some, length_eq_some hdata, hitem.encodedLen hdyn,
        checkedAdd_eq_some]
      constructor
      · rintro ⟨_, ⟨-, hword⟩, rfl, _, ⟨e, henc, rfl, hat⟩, _, ⟨-, rfl⟩, hloop⟩
        have hle := hat.le
        obtain ⟨rest, hrest, hhead, htails, rfl⟩ := (ih (by omega) (by omega)).1 hloop
        refine ⟨⟨true, e⟩ :: rest, .cons ⟨hdyn.symm, henc⟩ hrest, ?_, ?_, ?_⟩
        · refine at_append.2 ⟨hword, ?_⟩
          rw [length_word, ← hshape]; exact hhead
        · refine at_append.2 ⟨hat, ?_⟩
          rw [Nat.add_assoc]; exact htails
        · rw [tails, if_pos rfl, List.length_append, Nat.add_assoc]
      · rintro ⟨parts, hparts, hhead, htails, rfl⟩
        obtain ⟨part, rest, ⟨hpart, henc⟩, hrest, rfl⟩ := List.forall₂_cons_left_iff.1 hparts
        rw [hdyn] at hpart
        rw [heads, hpart, if_pos rfl, at_append, length_word, ← hshape] at hhead
        rw [tails, hpart, if_pos rfl, at_append, Nat.add_assoc] at htails
        have hle := htails.1.le
        have htail' : tail + part.bytes.length ≤ usizeMax := by omega
        refine ⟨tail, ⟨by omega, hhead.1⟩, rfl, _, ⟨part.bytes, henc, rfl, htails.1⟩, _,
          ⟨htail', rfl⟩, ?_⟩
        refine (@ih (head + shape.headSize) (tail + part.bytes.length) (by omega)
          (by omega)).2 ⟨rest, hrest, hhead.2, htails.2, ?_⟩
        rw [tails, hpart, if_pos rfl, List.length_append]; omega

theorem headLength_of_forall₂ {parts : List Part} (h : List.Forall₂ PartOf shapes parts) :
    headLength parts = (shapes.map Shape.headSize).sum := by
  induction h with
  | nil => rfl
  | @cons shape part shapes parts hpart hparts ih =>
    have hhead : part.headLength = shape.headSize := by
      rw [Part.headLength, Shape.headSize, hpart.1]
      cases hdyn : shape.isDynamic with
      | false => exact (encodes_static hdyn).1 hpart.2
      | true => rfl
    rw [headLength, List.map_cons, List.sum_cons, List.map_cons, List.sum_cons, hhead, ← ih]; rfl

theorem sequence_eq_some (hdata : data.length ≤ isizeMax)
    (hitems : List.Forall₂ (Lays data) items shapes) {headsLen base : Nat}
    (hheads : Counts (some headsLen) (shapes.map Shape.headSize).sum) :
    sequence data items headsLen base = some n ↔ ∃ parts,
      List.Forall₂ PartOf shapes parts ∧ At data base (assemble parts) ∧
        n = (assemble parts).length := by
  have hlt := isizeMax_lt
  have hnone : ¬ base + (shapes.map Shape.headSize).sum ≤ data.length →
      ¬ ∃ parts, List.Forall₂ PartOf shapes parts ∧ At data base (assemble parts) ∧
        n = (assemble parts).length := by
    rintro _ ⟨parts, hparts, hat, -⟩
    have hle := hat.le; rw [length_assemble, headLength_of_forall₂ hparts] at hle; omega
  unfold sequence
  cases hstop : checkedAdd base headsLen with
  | none =>
    refine iff_of_false (by intro h; cases h) (hnone fun hle => ?_)
    have heq := Option.some.inj (hheads.1 (by omega))
    have : checkedAdd base headsLen = some (base + headsLen) :=
      checkedAdd_eq_some.2 ⟨by omega, rfl⟩
    rw [hstop] at this; cases this
  | some stop =>
    obtain ⟨-, rfl⟩ := checkedAdd_eq_some.1 hstop
    simp only [Option.bind_eq_bind, Option.bind_some]
    by_cases hle : base + headsLen ≤ data.length
    · have heq := hheads.2 headsLen rfl (by omega)
      rw [if_pos hle, sequenceLoop_eq_some hdata hitems (by omega) hle]
      refine exists_congr fun parts => and_congr_right fun hparts => ?_
      have hlen := headLength_of_forall₂ hparts
      rw [assemble, at_append, length_heads, List.length_append, length_heads, hlen, heq, and_assoc]
    · rw [if_neg hle]
      refine iff_of_false (by intro h; cases h) (hnone fun hle' => hle ?_)
      have heq := Option.some.inj (hheads.1 (by omega)); rw [heq]; exact hle'

section EncodedLen

variable {alloy : Alloy}

variable {n : Nat}

theorem encodedLen_tuple (hdata : data.length ≤ isizeMax) (hmeas : alloy.Measures)
    {types : List DynSolType} (hinhab : Shape.AllInhabited (EvmEvents.shapes types))
    (hitems : List.Forall₂ (Lays data) (layoutItems alloy data types) (EvmEvents.shapes types))
 : encodedLen alloy data (.tuple types) at_ = some n ↔
      ∃ e, Encodes (DynSolType.tuple types).shape e ∧ e.length = n ∧ At data at_ e := by
  have hsum : (shapes types).map Shape.headSize = types.map fun ty => ty.shape.headSize := by
    rw [shapes_eq_map, List.map_map]; rfl
  have hcounts : Counts (headSizes alloy types) ((shapes types).map Shape.headSize).sum := by
    rw [hsum]
    refine counts_headSizes fun ty hty => ?_
    rw [Shape.allInhabited_iff, shapes_eq_map] at hinhab
    rw [hmeas.headSize (hinhab _ (List.mem_map_of_mem hty))]; exact counts_min _
  have henc : ∀ e, Encodes (DynSolType.tuple types).shape e ↔
      ∃ parts, List.Forall₂ PartOf (shapes types) parts ∧ e = assemble parts := by
    intro e
    rw [DynSolType.shape, Encodes]
    exact exists_congr fun parts => and_congr_left fun _ => encodesAll_iff
  rw [encodedLen]
  simp only [henc]
  cases hheads : headSizes alloy types with
  | none =>
    refine iff_of_false nofun ?_
    rintro ⟨_, ⟨parts, hparts, rfl⟩, -, hat⟩
    rw [hheads] at hcounts
    have hle := hat.le
    rw [length_assemble, headLength_of_forall₂ hparts] at hle
    have := hcounts.1 (by omega); cases this
  | some heads =>
    rw [hheads] at hcounts
    simp only [Option.bind_eq_bind, Option.bind_some]
    rw [sequence_eq_some hdata hitems hcounts]
    constructor
    · rintro ⟨parts, hparts, hat, rfl⟩; exact ⟨_, ⟨parts, hparts, rfl⟩, rfl, hat⟩
    · rintro ⟨_, ⟨parts, hparts, rfl⟩, rfl, hat⟩; exact ⟨parts, hparts, hat, rfl⟩

theorem sequence_replicate (hdata : data.length ≤ isizeMax) {item : LayoutItem} {shape : Shape}
    (hitem : Lays data item shape) {count headsLen base : Nat}
    (hheads : Counts (some headsLen) (count * shape.headSize)) :
    sequence data (List.replicate count item) headsLen base = some n ↔ ∃ parts : List Part,
      (parts.length = count ∧ ∀ part ∈ parts, PartOf shape part) ∧ At data base (assemble parts) ∧
        n = (assemble parts).length := by
  have hitems : ∀ k, List.Forall₂ (Lays data) (List.replicate k item) (List.replicate k shape) := by
    intro k
    induction k with
    | zero => exact .nil
    | succ k ih =>
      rw [List.replicate_succ, List.replicate_succ]; exact .cons hitem ih
  have hsum : ((List.replicate count shape).map Shape.headSize).sum = count * shape.headSize := by
    rw [List.map_replicate, List.sum_replicate_nat]
  rw [sequence_eq_some hdata (hitems count) (by rw [hsum]; exact hheads)]
  exact exists_congr fun parts => and_congr_left fun _ => forall₂_replicate_iff

theorem padding_eq (length : Nat) : padding length = (32 - length % 32) % 32 := by
  rw [padding]; omega

theorem encodedLen_bytes (hdata : data.length ≤ isizeMax) : encodedLen alloy data .bytes at_ =
    some n ↔ ∃ e, Encodes .bytes e ∧ e.length = n ∧ At data at_ e := by
  have hlt := isizeMax_lt
  rw [encodedLen]
  simp only [Option.bind_eq_bind, Option.bind_eq_some_iff, length_eq_some hdata,
    checkedAdd_eq_some, Option.ite_none_right_eq_some, Option.some.injEq, Encodes, ← padding_eq]
  constructor
  · rintro ⟨length, ⟨-, hword⟩, _, ⟨-, rfl⟩, _, ⟨-, rfl⟩, _, ⟨-, rfl⟩, hle, rfl⟩
    have hcontent : At data (at_ + 32) ((data.drop (at_ + 32)).take length) := at_take (by omega)
    have hlen : ((data.drop (at_ + 32)).take length).length = length := by
      rw [List.length_take, List.length_drop]; omega
    have hfill : At data (at_ + 32 + length)
        ((data.drop (at_ + 32 + length)).take (padding length)) := at_take (by omega)
    have hlen' : ((data.drop (at_ + 32 + length)).take (padding length)).length = padding length := by
      rw [List.length_take, List.length_drop]; omega
    refine ⟨_, ⟨_, _, hlen'.trans (congrArg padding hlen.symm), rfl⟩, ?_, ?_⟩
    · rw [List.length_append, List.length_append, length_word, hlen, hlen']; omega
    · rw [hlen, at_append, length_word, at_append, hlen]; exact ⟨hword, hcontent, hfill⟩
  · rintro ⟨_, ⟨content, _, hfill, rfl⟩, rfl, hat⟩
    have hle := hat.le
    rw [List.length_append, List.length_append, length_word, hfill] at hle ⊢
    rw [at_append] at hat
    refine ⟨content.length, ⟨by omega, hat.1⟩, _, ⟨by omega, rfl⟩, _, ⟨by omega, rfl⟩, _,
      ⟨by omega, rfl⟩, by omega, by omega⟩

mutual

theorem encodedLen_eq_some (hdata : data.length ≤ isizeMax) (hmeas : alloy.Measures) :
    ∀ {ty : DynSolType}, ty.shape.Inhabited → ty.shape ≠ .word → ∀ {at_ n : Nat},
      encodedLen alloy data ty at_ = some n ↔ ∃ e, Encodes ty.shape e ∧ e.length = n ∧ At data at_ e
  | .bytes, _, _, at_, n => encodedLen_bytes hdata
  | .string, _, _, at_, n => by
    have hsame : encodedLen alloy data .string at_ = encodedLen alloy data .bytes at_ := by
      rw [encodedLen, encodedLen]
    rw [hsame]; exact encodedLen_bytes hdata
  | .array element, hinhab, _, at_, n => by
    have hlt := isizeMax_lt
    have hinner : element.shape.Inhabited := hinhab
    have hitem := lays hdata hmeas hinner
    have hsize : Counts (some (headSize alloy element)) element.shape.headSize := by
      rw [hmeas.headSize hinner]; exact counts_min _
    rw [encodedLen, DynSolType.shape]
    simp only [Option.bind_eq_bind, Option.bind_eq_some_iff, length_eq_some hdata,
      checkedAdd_eq_some, Encodes]
    constructor
    · rintro ⟨count, ⟨-, hword⟩, headsLen, hheads, _, ⟨-, rfl⟩, _, hseq, -, rfl⟩
      have hcounts := hsize.mul count
      rw [hheads] at hcounts
      obtain ⟨parts, ⟨rfl, hparts⟩, hat, rfl⟩ := (sequence_replicate hdata hitem hcounts).1 hseq
      refine ⟨_, ⟨parts, hparts, rfl⟩, ?_, ?_⟩
      · rw [List.length_append, length_word, Nat.add_comm]
      · rw [at_append, length_word]; exact ⟨hword, hat⟩
    · rintro ⟨_, ⟨parts, hparts, rfl⟩, rfl, hat⟩
      have hle := hat.le
      rw [List.length_append, length_word, length_assemble,
        headLength_of_forall₂ (forall₂_replicate_iff.2 ⟨rfl, hparts⟩), List.map_replicate,
        List.sum_replicate_nat] at hle
      have hcnt : parts.length ≤ parts.length * element.shape.headSize :=
        Nat.le_mul_of_pos_right _ (Nat.lt_of_lt_of_le (by decide) (Shape.le_headSize hinner))
      have hcounts := hsize.mul parts.length
      have hheads := hcounts.1 (by omega)
      rw [hheads] at hcounts
      rw [at_append, length_word] at hat
      have hle' := hat.2.le
      refine ⟨parts.length, ⟨by omega, hat.1⟩, _, hheads, _, ⟨by omega, rfl⟩, _,
        (sequence_replicate hdata hitem hcounts).2 ⟨parts, ⟨rfl, hparts⟩, hat.2, rfl⟩, by omega, ?_⟩
      rw [List.length_append, length_word, Nat.add_comm]
  | .fixedArray element size, hinhab, _, at_, n => by
    have hlt := isizeMax_lt
    have hinner := hinhab.2
    have hitem := lays hdata hmeas hinner
    have hsize : Counts (some (headSize alloy element)) element.shape.headSize := by
      rw [hmeas.headSize hinner]; exact counts_min _
    have hcounts := hsize.mul size
    rw [encodedLen, DynSolType.shape]
    simp only [Option.bind_eq_bind, Encodes]
    cases hheads : checkedMul size (headSize alloy element) with
    | none =>
      refine iff_of_false nofun ?_
      rintro ⟨_, ⟨parts, hlen, hparts, rfl⟩, -, hat⟩
      have hle := hat.le
      rw [length_assemble, headLength_of_forall₂ (forall₂_replicate_iff.2 ⟨hlen, hparts⟩),
        List.map_replicate, List.sum_replicate_nat] at hle
      have := hcounts.1 (by omega); rw [hheads] at this; cases this
    | some headsLen =>
      rw [hheads] at hcounts
      rw [Option.bind_some, sequence_replicate hdata hitem hcounts]
      constructor
      · rintro ⟨parts, ⟨hlen, hparts⟩, hat, rfl⟩; exact ⟨_, ⟨parts, hlen, hparts, rfl⟩, rfl, hat⟩
      · rintro ⟨_, ⟨parts, hlen, hparts, rfl⟩, rfl, hat⟩; exact ⟨parts, ⟨hlen, hparts⟩, hat, rfl⟩
  | .tuple types, hinhab, _, at_, n =>
    encodedLen_tuple hdata hmeas hinhab.2 (laysAll hdata hmeas hinhab.2)
  | .bool, _, hne, _, _ => absurd rfl hne
  | .int _, _, hne, _, _ => absurd rfl hne
  | .uint _, _, hne, _, _ => absurd rfl hne
  | .fixedBytes _, _, hne, _, _ => absurd rfl hne
  | .address, _, hne, _, _ => absurd rfl hne
  | .function, _, hne, _, _ => absurd rfl hne

theorem lays (hdata : data.length ≤ isizeMax) (hmeas : alloy.Measures) {ty : DynSolType}
    (h : ty.shape.Inhabited) :
    Lays data ⟨alloy.isDynamic ty, headSize alloy ty, encodedLen alloy data ty⟩ ty.shape where
  dynamic := hmeas.isDynamic ty h
  headSize := hmeas.headSize h
  encodedLen hdyn {_ _} := encodedLen_eq_some hdata hmeas h (by
    intro hword; rw [hword] at hdyn; cases hdyn)

theorem laysAll (hdata : data.length ≤ isizeMax) (hmeas : alloy.Measures) :
    ∀ {types : List DynSolType}, Shape.AllInhabited (EvmEvents.shapes types) →
      List.Forall₂ (Lays data) (layoutItems alloy data types) (EvmEvents.shapes types)
  | [], _ => .nil
  | _ :: _, h => .cons (lays hdata hmeas h.1) (laysAll hdata hmeas h.2)

end

theorem width_eq_ok {bits : Nat} (h : width bits = .ok n) : n = bits := by
  simp only [width, eq_ok] at h
  obtain ⟨-, -, rfl⟩ := h; rfl

theorem decodeTypes_eq_map (comps : List (String × AbiType)) :
    decodeTypes comps = comps.map fun comp => comp.2.decodeType := by
  induction comps with
  | nil => rfl
  | cons comp comps ih => rw [decodeTypes, ih, List.map_cons]

mutual

theorem abiType_inhabited : ∀ {ty : DynSolType} {comps : List Param} {t : AbiType},
    abiType alloy ty comps = .ok t → t.decodeType.shape.Inhabited
  | .address, _, _, h | .bool, _, _, h | .bytes, _, _, h | .string, _, _, h => by
    cases h
    trivial
  | .uint _, _, _, h | .int _, _, _, h => by
    simp only [abiType, bind_eq_ok, pure_eq_ok] at h
    obtain ⟨_, -, rfl⟩ := h
    trivial
  | .fixedBytes _, _, _, h => by
    simp only [abiType, eq_ok] at h
    obtain ⟨-, -, rfl⟩ := h; trivial
  | .function, _, _, h => by cases h
  | .array element, _, _, h => by
    simp only [abiType, eq_ok] at h
    obtain ⟨t, ht, rfl⟩ := h
    have hinner := abiType_inhabited ht; exact hinner
  | .fixedArray element size, _, _, h => by
    simp only [abiType, eq_ok] at h
    obtain ⟨-, hsize, t, ht, rfl⟩ := h; exact ⟨Nat.pos_of_ne_zero hsize, abiType_inhabited ht⟩
  | .tuple types, comps, _, h => by
    simp only [abiType, eq_ok] at h
    obtain ⟨-, ⟨hne, _⟩, _, hflds, -, -, rfl⟩ := h
    obtain ⟨hall, hflds⟩ := abiTypes_inhabited hflds
    refine ⟨fun hnil => ?_, hall⟩
    rw [shapes_eq_map, decodeTypes_eq_map, List.map_map, List.map_eq_nil_iff] at hnil
    have hcount := List.length_pos_iff.2 hne; rw [hnil, List.length_nil] at hflds; omega

theorem abiTypes_inhabited : ∀ {types : List DynSolType} {comps : List Param}
    {fields : List (String × AbiType)}, abiTypes alloy types comps = .ok fields →
      Shape.AllInhabited (EvmEvents.shapes (decodeTypes fields)) ∧
        fields.length = min types.length comps.length
  | [], _, _, h => by
    simp only [abiTypes, pure_eq_ok] at h
    rw [← h]
    exact ⟨trivial, by rw [List.length_nil, List.length_nil, Nat.zero_min]⟩
  | _ :: _, [], _, h => by
    simp only [abiTypes, pure_eq_ok] at h
    rw [← h]
    exact ⟨trivial, by rw [List.length_nil, List.length_nil, Nat.min_zero]⟩
  | ty :: types, component :: comps, _, h => by
    simp only [abiTypes, bind_eq_ok, pure_eq_ok] at h
    obtain ⟨_, -, _, ht, fields, hflds, rfl⟩ := h
    obtain ⟨hall, hlen⟩ := abiTypes_inhabited hflds
    refine ⟨⟨abiType_inhabited ht, hall⟩, ?_⟩
    rw [List.length_cons, List.length_cons, List.length_cons, hlen, Nat.succ_min_succ]

end

theorem parseInput_inhabited {input : EventParam} {field : AbiField}
    (h : parseInput alloy input = .ok field) : field.ty.decodeType.shape.Inhabited := by
  simp only [parseInput, eq_ok] at h
  obtain ⟨-, -, _, -, _, -, ty, hty, rfl⟩ := h; exact abiType_inhabited hty

def EventAbi.bodyTypes (abi : EventAbi) : List DynSolType :=
  (abi.fields.filter fun field => !field.indexed).map fun field => field.ty.decodeType

theorem parse_body {event : Event} {abi : EventAbi} (h : parse alloy event = .ok abi) :
    abi.body = .tuple abi.bodyTypes ∧ Shape.AllInhabited (EvmEvents.shapes abi.bodyTypes) := by
  simp only [parse, eq_ok] at h
  obtain ⟨-, -, -, -, _, hflds, -, -, -, -, -, -, rfl⟩ := h
  refine ⟨rfl, ?_⟩
  rw [Shape.allInhabited_iff, shapes_eq_map, EventAbi.bodyTypes, List.map_map]
  intro _ hshape
  obtain ⟨field, hfield, rfl⟩ := List.mem_map.1 hshape
  obtain ⟨_, -, hinput⟩ :=
    (mem_of_mapM_eq_ok hflds field).1 (List.mem_filter.1 hfield).1
  exact parseInput_inhabited hinput

end EncodedLen

end Leani.EvmEvents
