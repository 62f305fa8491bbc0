import Mathlib.Tactic.Common
import Mathlib.Tactic.Ring

/-!
# Big-endian numbers

The number a list of bytes denotes, most significant byte first, and the bytes of a number at a
width.
-/

namespace Library.BigEndian

open List UInt8

def number : List UInt8 → Nat
  | [] => 0
  | byte :: bytes => byte.toNat * 256 ^ bytes.length + number bytes

def bytes : Nat → Nat → List UInt8
  | 0, _ => []
  | width + 1, n => UInt8.ofNat (n / 256 ^ width) :: bytes width n

@[simp] theorem length_bytes (width n : Nat) : (bytes width n).length = width := by
  induction width with
  | zero => rfl
  | succ width ih => rw [bytes, length_cons, ih]

theorem number_lt (bs : List UInt8) : number bs < 256 ^ bs.length := by
  induction bs with
  | nil => exact Nat.zero_lt_one
  | cons byte bs ih =>
    have hbyte := Nat.le_of_lt_succ byte.toNat_lt
    calc number (byte :: bs) < byte.toNat * 256 ^ bs.length + 256 ^ bs.length :=
          Nat.add_lt_add_left ih _
      _ ≤ 255 * 256 ^ bs.length + 256 ^ bs.length :=
          Nat.add_le_add_right (Nat.mul_le_mul_right _ hbyte) _
      _ = 256 ^ (byte :: bs).length := by
          rw [length_cons, pow_succ]
          ring

theorem bytes_add_mul (width n k : Nat) : bytes width (n + k * 256 ^ width) = bytes width n := by
  induction width generalizing k with
  | zero => rfl
  | succ width ih =>
    have hsplit : n + k * 256 ^ (width + 1) = n + k * 256 * 256 ^ width := by ring
    have hhead : ofNat ((n + k * 256 * 256 ^ width) / 256 ^ width) =
        UInt8.ofNat (n / 256 ^ width) := by
      rw [Nat.add_mul_div_right _ _ (Nat.pow_pos (by decide)), ← UInt8.toNat_inj,
        UInt8.toNat_ofNat', UInt8.toNat_ofNat']
      omega
    rw [hsplit, bytes, bytes, ih, hhead]

theorem bytes_number (bs : List UInt8) : bytes bs.length (number bs) = bs := by
  induction bs with
  | nil => rfl
  | cons byte bs ih =>
    have hquotient : number (byte :: bs) / 256 ^ bs.length = byte.toNat := by
      rw [number, Nat.add_comm, Nat.add_mul_div_right _ _ (Nat.pow_pos (by decide)),
        Nat.div_eq_of_lt (number_lt bs), Nat.zero_add]
    have hrest : bytes bs.length (number (byte :: bs)) = bs := by
      rw [number, Nat.add_comm, bytes_add_mul, ih]
    rw [length_cons, bytes, hquotient, hrest, UInt8.ofNat_toNat]

theorem number_bytes {width n : Nat} (h : n < 256 ^ width) : number (bytes width n) = n := by
  induction width generalizing n with
  | zero =>
    rw [pow_zero, Nat.lt_one_iff] at h; rw [h]; rfl
  | succ width ih =>
    have hpos : 0 < 256 ^ width := Nat.pow_pos (by decide)
    have hquotient : n / 256 ^ width < 256 := by
      rw [Nat.div_lt_iff_lt_mul hpos, Nat.mul_comm, ← pow_succ]; exact h
    have hrest : bytes width n = bytes width (n % 256 ^ width) := by
      have := bytes_add_mul width (n % 256 ^ width) (n / 256 ^ width)
      rwa [Nat.mul_comm, Nat.mod_add_div] at this
    rw [bytes, number, length_bytes, toNat_ofNat', Nat.mod_eq_of_lt hquotient, hrest,
      ih (Nat.mod_lt _ hpos), Nat.mul_comm, Nat.div_add_mod]

variable {bs : List UInt8}

theorem number_injective {as : List UInt8} (hlen : as.length = bs.length)
    (h : number as = number bs) : as = bs := by
  rw [← bytes_number as, ← bytes_number bs, hlen, h]

theorem eq_bytes_iff {width n : Nat} (h : n < 256 ^ width) :
    bs = bytes width n ↔ bs.length = width ∧ number bs = n := by
  constructor
  · rintro rfl; exact ⟨length_bytes width n, number_bytes h⟩
  · rintro ⟨rfl, rfl⟩; exact (bytes_number bs).symm

theorem number_append (as bs : List UInt8) :
    number (as ++ bs) = number as * 256 ^ bs.length + number bs := by
  induction as with
  | nil => rw [nil_append, number, Nat.zero_mul, Nat.zero_add]
  | cons a as ih =>
    rw [cons_append, number, number, ih, length_append, pow_add]
    ring

theorem number_replicate_zero (k : Nat) : number (replicate k 0) = 0 := by
  induction k with
  | zero => rfl
  | succ k ih =>
    rw [replicate_succ, number, ih]; exact Nat.zero_mul _

theorem number_replicate_max (k : Nat) : number (replicate k 0xff) + 1 = 256 ^ k := by
  induction k with
  | zero => rfl
  | succ k ih =>
    have hbyte : (0xff : UInt8).toNat = 255 := rfl
    rw [replicate_succ, number, length_replicate, hbyte, Nat.add_assoc, ih, pow_succ]
    ring

theorem forall_take_zero_iff {k : Nat} (h : k ≤ bs.length) :
    (∀ byte ∈ bs.take k, byte = 0) ↔ number bs < 256 ^ (bs.length - k) := by
  have hdrop : (bs.drop k).length = bs.length - k := length_drop
  have hsplit : number bs = number (bs.take k) * 256 ^ (bs.length - k) + number (bs.drop k) := by
    rw [← hdrop, ← number_append, take_append_drop]
  have hlt := number_lt (bs.drop k)
  rw [hdrop] at hlt
  constructor
  · intro hall
    rw [hsplit, eq_replicate_of_mem hall, number_replicate_zero, Nat.zero_mul, Nat.zero_add]
    exact hlt
  · intro _ byte hbyte
    have hzero : number (bs.take k) = 0 := by
      by_contra hne
      have hle := Nat.le_mul_of_pos_left (256 ^ (bs.length - k)) (Nat.pos_of_ne_zero hne); omega
    have htake : bs.take k = replicate k 0 := by
      apply number_injective
      · rw [length_take, length_replicate, Nat.min_eq_left h]
      · rw [hzero, number_replicate_zero]
    rw [htake] at hbyte; exact eq_of_mem_replicate hbyte

end Library.BigEndian
