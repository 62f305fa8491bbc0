import Mathlib.Data.BitVec

/-!
# Bloom filters

A filter of `w` bits: every input sets its own bits, and a filter may hold the inputs whose bits are
all set. It never rules out an input that was added.
-/

namespace Library.Bloom

open BitVec Bool

variable {w : Nat} {ι : Type} (bits : ι → BitVec w)

def accrue (filter : BitVec w) (input : ι) : BitVec w := filter ||| bits input

def ofInputs (inputs : List ι) : BitVec w := inputs.foldl (accrue bits) 0

def contains (filter : BitVec w) (input : ι) : Bool := filter &&& bits input = bits input

variable {bits} {filter : BitVec w} {input other : ι} {inputs : List ι}

theorem contains_iff : contains bits filter input = true ↔
    ∀ i, (bits input).getLsbD i = true → filter.getLsbD i = true := by
  rw [contains, decide_eq_true_eq]
  constructor
  · intro h i hi; rw [← h, getLsbD_and, and_eq_true] at hi; exact hi.1
  · intro h
    apply eq_of_getLsbD_eq
    intro i _
    rw [getLsbD_and]
    by_cases hi : (bits input).getLsbD i = true
    · rw [hi, h i hi]; rfl
    · rw [Bool.not_eq_true] at hi; rw [hi, Bool.and_false]

theorem contains_accrue_self : contains bits (accrue bits filter input) input = true := by
  rw [contains_iff]
  intro i hi; rw [accrue, BitVec.getLsbD_or, hi, Bool.or_true]

theorem contains_accrue (h : contains bits filter input = true) :
    contains bits (accrue bits filter other) input = true := by
  rw [contains_iff] at h ⊢
  intro i hi; rw [accrue, BitVec.getLsbD_or, h i hi, Bool.true_or]

theorem contains_foldl (inputs : List ι) : ∀ {filter : BitVec w}, contains bits filter input =
    true ∨ input ∈ inputs → contains bits (inputs.foldl (accrue bits) filter) input = true := by
  induction inputs with
  | nil => exact fun h => h.resolve_right List.not_mem_nil
  | cons first inputs ih =>
    intro filter h
    rw [List.foldl_cons]
    apply ih
    rcases h with h | h
    · exact .inl (contains_accrue h)
    · rcases List.mem_cons.1 h with rfl | h
      · exact .inl contains_accrue_self
      · exact .inr h

theorem contains_of_mem (h : input ∈ inputs) : contains bits (ofInputs bits inputs) input = true :=
  contains_foldl inputs (.inr h)

end Library.Bloom
