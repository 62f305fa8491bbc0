import Mathlib.Algebra.Ring.Nat
import Mathlib.Tactic.Common

/-!
# The postcard wire format

Unsigned integers are varints, seven bits a byte from the lowest; byte strings and sequences follow
their length, and an optional value a flag.
-/

namespace Library.Postcard

open List Option UInt8

def varint (n : Nat) : List UInt8 :=
  if n < 128 then [UInt8.ofNat n] else UInt8.ofNat (n % 128 + 128) :: varint (n / 128)
termination_by n

def flag (b : Bool) : List UInt8 := [if b then 1 else 0]

def bytes (value : List UInt8) : List UInt8 := varint value.length ++ value

def seq {α : Type} (encode : α → List UInt8) (values : List α) : List UInt8 :=
  varint values.length ++ values.flatMap encode

def option {α : Type} (encode : α → List UInt8) : Option α → List UInt8
  | none => flag false
  | some value => flag true ++ encode value

variable {n : Nat}

theorem varint_of_lt (h : n < 128) : varint n = [ofNat n] := by
  rw [varint, if_pos h]

theorem varint_of_le (h : 128 ≤ n) : varint n = ofNat (n % 128 + 128) :: varint (n / 128) := by
  rw [varint, if_neg (Nat.not_lt.2 h)]

def digits : List UInt8 → Option (List UInt8 × List UInt8)
  | [] => none
  | byte :: rest =>
    if byte.toNat < 128 then some ([byte], rest)
    else (digits rest).map fun (digits, rest) => (byte :: digits, rest)

def number : List UInt8 → Nat
  | [] => 0
  | byte :: rest => byte.toNat % 128 + 128 * number rest

def Shortest (digits : List UInt8) : Prop :=
  digits.length = 1 ∨ digits.getLast? ≠ some 0

theorem toNat_ofNat_of_lt (h : n < 256) : (ofNat n).toNat = n := by
  rw [toNat_ofNat']; omega

theorem number_varint (n : Nat) : number (varint n) = n := by
  induction n using Nat.strongRecOn with
  | ind n ih =>
    by_cases h : n < 128
    · rw [varint_of_lt h, number, number, toNat_ofNat_of_lt (by omega)]; omega
    · rw [varint_of_le (by omega), number, ih (n / 128) (by omega), toNat_ofNat_of_lt (by omega)]
      omega

theorem digits_varint (n : Nat) (rest : List UInt8) :
    digits (varint n ++ rest) = some (varint n, rest) := by
  induction n using Nat.strongRecOn with
  | ind n ih =>
    by_cases h : n < 128
    · rw [varint_of_lt h, singleton_append, digits, toNat_ofNat_of_lt (by omega), if_pos h]
    · rw [varint_of_le (by omega), cons_append, digits, toNat_ofNat_of_lt (by omega),
        if_neg (by omega), ih (n / 128) (by omega)]
      rfl

theorem length_varint_le : ∀ {k n : Nat}, n < 2 ^ (7 * (k + 1)) → (varint n).length ≤ k + 1 := by
  intro k
  induction k with
  | zero =>
    intro n h; rw [varint_of_lt h]; exact le_rfl
  | succ k ih =>
    intro n h
    by_cases hsmall : n < 128
    · rw [varint_of_lt hsmall]; exact Nat.succ_le_succ (Nat.zero_le _)
    · have hpow : 2 ^ (7 * (k + 1 + 1)) = 2 ^ (7 * (k + 1)) * 128 := by
        rw [Nat.mul_succ, Nat.pow_add]
      rw [varint_of_le (by omega), length_cons]
      exact Nat.succ_le_succ (ih (Nat.div_lt_of_lt_mul (by omega)))

theorem append_of_digits : ∀ {bytes ds rest : List UInt8}, digits bytes = some (ds, rest) →
    bytes = ds ++ rest := by
  intro bytes
  induction bytes with
  | nil =>
    intro ds rest h; cases h
  | cons byte bytes ih =>
    intro ds rest h
    simp only [digits] at h
    split at h
    · cases h; rfl
    · obtain ⟨⟨_, _⟩, hdigs, heq⟩ := map_eq_some_iff.1 h
      cases heq; rw [ih hdigs]; rfl

theorem digits_append : ∀ {bytes ds rest : List UInt8}, digits bytes = some (ds, rest) →
    ∀ rest', digits (ds ++ rest') = some (ds, rest') := by
  intro bytes
  induction bytes with
  | nil =>
    intro ds rest h; cases h
  | cons byte bytes ih =>
    intro ds rest h rest'
    simp only [digits] at h
    split at h
    · rename_i hlast; cases h; rw [singleton_append, digits, if_pos hlast]
    · rename_i hmore
      obtain ⟨⟨_, _⟩, hdigs, heq⟩ := map_eq_some_iff.1 h
      cases heq; rw [cons_append, digits, if_neg hmore, ih hdigs rest']; rfl

theorem digits_ne_nil {bytes ds rest : List UInt8} (h : digits bytes = some (ds, rest)) :
    ds ≠ [] := by
  cases bytes with
  | nil => cases h
  | cons byte bytes =>
    simp only [digits] at h
    split at h
    · cases h; exact cons_ne_nil _ _
    · obtain ⟨⟨_, _⟩, -, heq⟩ := map_eq_some_iff.1 h; cases heq; exact cons_ne_nil _ _

theorem number_pos : ∀ {bytes ds rest : List UInt8}, digits bytes = some (ds, rest) →
    ds.getLast? ≠ some 0 → 0 < number ds := by
  intro bytes
  induction bytes with
  | nil =>
    intro ds rest h; cases h
  | cons byte bytes ih =>
    intro ds rest h hlast
    simp only [digits] at h
    split at h
    · rename_i hbyte
      cases h
      have hne : byte.toNat ≠ 0 := by
        intro hzero; exact hlast (congrArg some (UInt8.toNat_inj.1 hzero))
      simp only [number]; omega
    · obtain ⟨⟨_, _⟩, hdigs, heq⟩ := map_eq_some_iff.1 h
      cases heq
      rw [getLast?_cons_of_ne_nil (digits_ne_nil hdigs)] at hlast
      have := ih hdigs hlast; simp only [number]; omega

theorem varint_number : ∀ {bytes ds rest : List UInt8}, digits bytes = some (ds, rest) →
    Shortest ds → varint (number ds) = ds := by
  intro bytes
  induction bytes with
  | nil =>
    intro ds rest h; cases h
  | cons byte bytes ih =>
    intro ds rest h hshortest
    simp only [digits] at h
    split at h
    · rename_i hlast
      cases h
      have hnum : number [byte] = byte.toNat := by
        simp only [number]; omega
      rw [hnum, varint_of_lt hlast, UInt8.ofNat_toNat]
    · rename_i hbyte
      obtain ⟨⟨ds', _⟩, hdigs, heq⟩ := map_eq_some_iff.1 h
      cases heq
      have hne := digits_ne_nil hdigs
      have hlast : ds'.getLast? ≠ some 0 := by
        rcases hshortest with hone | hlast
        · exact absurd (length_eq_zero_iff.1 (Nat.succ.inj hone)) hne
        · rwa [getLast?_cons_of_ne_nil hne] at hlast
      have hpos := number_pos hdigs hlast
      have hlow : number (byte :: ds') % 128 + 128 = byte.toNat := by
        have := byte.toNat_lt
        simp only [number]; omega
      have hhigh : number (byte :: ds') / 128 = number ds' := by
        simp only [number]; omega
      rw [varint_of_le (by simp only [number]; omega), hlow, hhigh, ih hdigs (.inr hlast),
        UInt8.ofNat_toNat]

end Library.Postcard
