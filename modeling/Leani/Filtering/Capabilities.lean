import Leani.Primitives

/-!
# Capabilities

What a processor may require of a block's material, as bits. Bundles stand for the field groups that
follow from them.
-/

namespace Leani.Filtering

open Library

inductive Capability where
  | header
  | body
  | transactions
  | calldata
  | receipts
  | logs
  | withdrawals
  | blobSidecars
  | traces
  | stateDiffs
  | consensusFinality
  | mempool
  | senders
  | blobFields
  | receiptOutcome
  | blockSize
  deriving DecidableEq

namespace Capability

def toNat : Capability → Nat
  | header => 0
  | body => 1
  | transactions => 2
  | calldata => 3
  | receipts => 4
  | logs => 5
  | withdrawals => 6
  | blobSidecars => 7
  | traces => 8
  | stateDiffs => 9
  | consensusFinality => 10
  | mempool => 11
  | senders => 12
  | blobFields => 13
  | receiptOutcome => 14
  | blockSize => 15

def bit (capability : Capability) : BitVec 16 := 1#16 <<< capability.toNat

theorem toNat_injective : Function.Injective toNat := by
  intro a b h
  cases a <;> cases b <;> first | rfl | cases h

theorem toNat_lt (cap : Capability) : cap.toNat < 16 := by
  cases cap <;> decide

theorem exists_toNat {i : Nat} (h : i < 16) : ∃ cap : Capability, cap.toNat = i := by
  have hall : ∀ i : Fin 16, ∃ cap ∈ [header, body, transactions, calldata, receipts, logs,
      withdrawals, blobSidecars, traces, stateDiffs, consensusFinality, mempool, senders,
      blobFields, receiptOutcome, blockSize], cap.toNat = i.val := by decide
  obtain ⟨cap, -, hcap⟩ := hall ⟨i, h⟩; exact ⟨cap, hcap⟩

end Capability

structure CapabilitySet where
  bits : BitVec 16
  deriving DecidableEq

namespace CapabilitySet

open Capability

def none : CapabilitySet := ⟨0⟩

def of (capability : Capability) : CapabilitySet := ⟨capability.bit⟩

variable (s t : CapabilitySet) (capability other : Capability)

def including : CapabilitySet := ⟨s.bits ||| capability.bit⟩

def contains : Bool := s.bits &&& capability.bit ≠ 0

def containsAll : Bool := s.bits &&& t.bits = t.bits

def union : CapabilitySet := ⟨s.bits ||| t.bits⟩

def intersection : CapabilitySet := ⟨s.bits &&& t.bits⟩

def withDerivable : CapabilitySet :=
  let bits := s.bits
  let bits := if s.contains transactions then
    bits ||| (body.bit ||| calldata.bit ||| senders.bit ||| blobFields.bit ||| blockSize.bit)
    else bits
  let bits := if s.contains receipts then bits ||| (logs.bit ||| receiptOutcome.bit) else bits
  ⟨bits⟩

variable {s t capability other}

theorem ext_bits (h : s.bits = t.bits) : s = t := by
  cases s; cases t; exact congrArg mk h

theorem contains_eq : s.contains capability = s.bits.getLsbD capability.toNat := by
  rw [contains, bit, ← BitVec.twoPow_eq, BitVec.and_twoPow]
  have hne : BitVec.twoPow 16 capability.toNat ≠ 0 := by cases capability <;> decide
  cases s.bits.getLsbD capability.toNat with
  | true => simpa using hne
  | false => simp

theorem getLsbD_bit : capability.bit.getLsbD other.toNat = decide (other = capability) := by
  rw [bit, ← BitVec.twoPow_eq, BitVec.getLsbD_twoPow, decide_eq_true (toNat_lt capability),
    Bool.true_and, decide_eq_decide]
  exact ⟨fun h => (toNat_injective h).symm, fun h => h ▸ rfl⟩

@[simp] theorem contains_none : none.contains capability = false := by
  rw [contains_eq]; exact BitVec.getLsbD_zero

@[simp] theorem contains_of : (of capability).contains other = true ↔ other = capability := by
  rw [contains_eq, of, getLsbD_bit, decide_eq_true_iff]

@[simp] theorem contains_including : (s.including capability).contains other = true ↔
    s.contains other = true ∨ other = capability := by
  simp only [contains_eq, including, BitVec.getLsbD_or, getLsbD_bit, Bool.or_eq_true,
    decide_eq_true_iff]

@[simp] theorem contains_union : (s.union t).contains capability = true ↔
    s.contains capability = true ∨ t.contains capability = true := by
  simp only [contains_eq, union, BitVec.getLsbD_or, Bool.or_eq_true]

@[simp] theorem contains_intersection : (s.intersection t).contains capability = true ↔
    s.contains capability = true ∧ t.contains capability = true := by
  simp only [contains_eq, intersection, BitVec.getLsbD_and, Bool.and_eq_true]

theorem ext_contains (h : ∀ cap, s.contains cap = t.contains cap) : s = t := by
  refine ext_bits (BitVec.eq_of_getLsbD_eq fun i hi => ?_)
  obtain ⟨cap, rfl⟩ := exists_toNat hi; rw [← contains_eq, ← contains_eq, h]

theorem containsAll_iff : s.containsAll t = true ↔
    ∀ cap, t.contains cap = true → s.contains cap = true := by
  have hinter : s.containsAll t = true ↔ s.intersection t = t := by
    rw [containsAll, decide_eq_true_iff]; exact ⟨ext_bits, congrArg bits⟩
  rw [hinter]
  constructor
  · intro h cap hcap; rw [← h, contains_intersection] at hcap; exact hcap.1
  · refine fun h => ext_contains fun cap => Bool.eq_iff_iff.2 ?_
    rw [contains_intersection, and_iff_right_of_imp (h cap)]

theorem intersection_eq_none : s.intersection t = none ↔
    ∀ cap, s.contains cap = true → t.contains cap = false := by
  constructor
  · intro h cap hcap
    by_contra hother
    rw [Bool.not_eq_false] at hother
    have hboth := contains_intersection.2 ⟨hcap, hother⟩
    rw [h, contains_none] at hboth; cases hboth
  · refine fun h => ext_contains fun cap => ?_
    rw [contains_none, ← Bool.not_eq_true, contains_intersection]
    rintro ⟨hcap, hother⟩; rw [h cap hcap] at hother; cases hother

end CapabilitySet

def Capability.derives : Capability → Capability → Bool
  | .transactions, .body | .transactions, .calldata | .transactions, .senders
  | .transactions, .blobFields | .transactions, .blockSize => true
  | .receipts, .logs | .receipts, .receiptOutcome => true
  | _, _ => false

namespace CapabilitySet

variable {s t : CapabilitySet} {capability : Capability}

theorem getLsbD_ite_or {p : Bool} {b x : BitVec 16} {i : Nat} :
    (if p = true then b ||| x else b).getLsbD i = (b.getLsbD i || (p && x.getLsbD i)) := by
  cases p <;> simp

theorem contains_withDerivable : s.withDerivable.contains capability = true ↔ ∃ src,
    s.contains src = true ∧ (src = capability ∨ src.derives capability = true) := by
  have hbits : s.withDerivable.contains capability = true ↔ s.contains capability = true ∨
      s.contains .transactions = true ∧ Capability.transactions.derives capability = true ∨
      s.contains .receipts = true ∧ Capability.receipts.derives capability = true := by
    rw [contains_eq]
    simp only [withDerivable, getLsbD_ite_or, BitVec.getLsbD_or, getLsbD_bit, ← contains_eq,
      Bool.or_eq_true, Bool.and_eq_true, decide_eq_true_iff, or_assoc]
    cases capability <;> simp [Capability.derives]
  rw [hbits]
  constructor
  · rintro (h | ⟨h, hder⟩ | ⟨h, hder⟩)
    · exact ⟨capability, h, .inl rfl⟩
    · exact ⟨.transactions, h, .inr hder⟩
    · exact ⟨.receipts, h, .inr hder⟩
  · rintro ⟨src, h, rfl | hder⟩
    · exact .inl h
    · cases src with
      | transactions => exact .inr (.inl ⟨h, hder⟩)
      | receipts => exact .inr (.inr ⟨h, hder⟩)
      | _ => cases capability <;> cases hder

theorem withDerivable_mono (h : ∀ c, s.contains c = true → t.contains c = true)
    (hc : s.withDerivable.contains capability = true) :
    t.withDerivable.contains capability = true := by
  rw [contains_withDerivable] at *
  obtain ⟨src, hsrc, hder⟩ := hc; exact ⟨src, h src hsrc, hder⟩

end CapabilitySet

inductive LogField where
  | transactionHash
  deriving DecidableEq

def LogField.bit : LogField → BitVec 8
  | .transactionHash => 1

structure LogFieldSet where
  bits : BitVec 8
  deriving DecidableEq

namespace LogFieldSet

def none : LogFieldSet := ⟨0⟩

variable (s t : LogFieldSet) (field : LogField)

def contains : Bool := s.bits &&& field.bit ≠ 0

def union : LogFieldSet := ⟨s.bits ||| t.bits⟩

variable {s t field}

theorem contains_eq : s.contains field = s.bits.getLsbD 0 := by
  have hbit : field.bit = BitVec.twoPow 8 0 := by cases field; decide
  rw [contains, hbit, BitVec.and_twoPow]
  cases s.bits.getLsbD 0 <;> decide

@[simp] theorem contains_union : (s.union t).contains field = true ↔
    s.contains field = true ∨ t.contains field = true := by
  simp only [contains_eq, union, BitVec.getLsbD_or, Bool.or_eq_true]

end LogFieldSet

end Leani.Filtering
