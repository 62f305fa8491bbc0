import Leani.Library.BigEndian
import Mathlib.Data.List.Infix
import Mathlib.Data.Nat.Log

/-!
# RLP strings

A single byte below 128 stands for itself. Any other string follows a header: its length, or from 56
bytes on the length of its length and its length.
-/

namespace Library.Rlp

open List BigEndian UInt8

def header (length : Nat) : List UInt8 :=
  if length < 56 then [UInt8.ofNat (0x80 + length)]
  else
    let width := Nat.log 256 length + 1
    UInt8.ofNat (0xb7 + width) :: BigEndian.bytes width length

def string : List UInt8 → List UInt8
  | [byte] => if byte.toNat < 0x80 then [byte] else [0x81, byte]
  | payload => header payload.length ++ payload

theorem toNat_ofNat_of_lt {n : Nat} (h : n < 256) : (ofNat n).toNat = n := by
  rw [toNat_ofNat']; omega

theorem string_cases (pay : List UInt8) :
    (∃ byte : UInt8, byte.toNat < 0x80 ∧ pay = [byte] ∧ string pay = [byte]) ∨
      (∀ byte : UInt8, pay = [byte] → 0x80 ≤ byte.toNat) ∧ string pay = header pay.length ++ pay := by
  match pay with
  | [] => exact .inr ⟨nofun, rfl⟩
  | [byte] =>
    by_cases h : byte.toNat < 0x80
    · exact .inl ⟨byte, h, rfl, if_pos h⟩
    · refine .inr ⟨fun _ hother => ?_, if_neg h⟩
      cases hother; exact Nat.not_lt.1 h
  | _ :: _ :: _ => exact .inr ⟨nofun, rfl⟩

variable {length : Nat}

theorem width_le (h : length < 2 ^ 64) : Nat.log 256 length + 1 ≤ 8 := by
  by_cases hzero : length = 0
  · simp [hzero]
  · have : Nat.log 256 length < 8 := Nat.log_lt_of_lt_pow hzero (by simpa using h); omega

theorem header_cases (h : length < 2 ^ 64) : ∃ first rest, header length = first :: rest ∧
    (length < 56 ∧ first.toNat = 0x80 + length ∧ rest = [] ∨ 56 ≤ length ∧ 0xb8 ≤ first.toNat ∧
    rest = bytes (first.toNat - 0xb7) length ∧ length < 256 ^ (first.toNat - 0xb7)) := by
  have hwidth := width_le h
  by_cases hshort : length < 56
  · refine ⟨_, _, if_pos hshort, .inl ⟨hshort, ?_, rfl⟩⟩
    exact toNat_ofNat_of_lt (by omega)
  · have hfst : (ofNat (0xb7 + (Nat.log 256 length + 1))).toNat =
        0xb7 + (Nat.log 256 length + 1) := toNat_ofNat_of_lt (by omega)
    refine ⟨_, _, if_neg hshort, .inr ⟨by omega, by omega, ?_, ?_⟩⟩
    · rw [hfst, Nat.add_sub_cancel_left]
    · rw [hfst, Nat.add_sub_cancel_left]; exact Nat.lt_pow_succ_log_self (by decide) _

theorem string_append_inj {p q rest rest' : List UInt8} (hp : p.length < 2 ^ 64)
    (hq : q.length < 2 ^ 64) (h : string p ++ rest = string q ++ rest') : p = q := by
  rcases string_cases p with ⟨_, ha, hpa, hsp⟩ | ⟨-, hsp⟩ <;>
    rcases string_cases q with ⟨_, hb, hqb, hsq⟩ | ⟨-, hsq⟩ <;> rw [hsp, hsq] at h
  · rw [hpa, hqb, (cons.inj h).1]
  · obtain ⟨first, tail, hhdr, hfirst⟩ := header_cases hq
    rw [hhdr] at h; rw [(cons.inj h).1] at ha; omega
  · obtain ⟨first, tail, hhdr, hfirst⟩ := header_cases hp
    rw [hhdr] at h; rw [← (cons.inj h).1] at hb; omega
  · obtain ⟨first, tail, hhdr, hfirst⟩ := header_cases hp
    obtain ⟨_, tail', hhdr', hfirst'⟩ := header_cases hq
    rw [hhdr, hhdr'] at h
    have hrest : tail ++ p ++ rest = tail' ++ q ++ rest' := (cons.inj h).2
    rw [← (cons.inj h).1] at hfirst'
    rcases hfirst with ⟨_, hfirst, htail⟩ | ⟨-, _, htail, hlt⟩ <;>
      rcases hfirst' with ⟨_, hfirst', htail'⟩ | ⟨-, _, htail', hlt'⟩ <;>
        rw [htail, htail'] at hrest
    · have hlen : p.length = q.length := by omega
      rw [nil_append, nil_append] at hrest; exact (append_inj hrest hlen).1
    · omega
    · omega
    · rw [append_assoc, append_assoc] at hrest
      obtain ⟨hbytes, hrest⟩ := append_inj hrest (by rw [length_bytes, length_bytes])
      have hlen : p.length = q.length := by
        rw [← number_bytes hlt, hbytes, number_bytes hlt']
      exact (append_inj hrest hlen).1

/-- `decode` reads the string at the start of some bytes. -/
def Decodes (decode : List UInt8 → Option (List UInt8)) : Prop :=
  ∀ bytes payload, decode bytes = some payload ↔ payload.length < 2 ^ 64 ∧ string payload <+: bytes

def decodeFirst (bytes : List UInt8) : Option (List UInt8) :=
  (bytes.tails.flatMap List.inits).find? fun payload =>
    payload.length < 2 ^ 64 && (string payload).isPrefixOf bytes

theorem suffix_string (pay : List UInt8) : pay <:+ string pay := by
  rcases string_cases pay with ⟨_, -, rfl, h⟩ | ⟨-, h⟩ <;> rw [h]
  · exact suffix_append _ _

theorem decodes_decodeFirst : Decodes decodeFirst := by
  intro bytes pay
  have hholds : ∀ {p}, decodeFirst bytes = some p → p.length < 2 ^ 64 ∧ string p <+: bytes := by
    intro p h
    have := find?_some h; rwa [Bool.and_eq_true, decide_eq_true_iff, isPrefixOf_iff_prefix] at this
  refine ⟨hholds, fun ⟨hlt, hstarts⟩ => ?_⟩
  cases hfound : decodeFirst bytes with
  | some other =>
    obtain ⟨hlt', _, hrest'⟩ := hholds hfound
    obtain ⟨rest, hrest⟩ := hstarts; rw [string_append_inj hlt hlt' (hrest.trans hrest'.symm)]
  | none =>
    have hpart : pay ∈ bytes.tails.flatMap inits := by
      obtain ⟨bef, hbef⟩ := suffix_string pay
      obtain ⟨rest, hrest⟩ := hstarts
      refine mem_flatMap.2 ⟨pay ++ rest, (mem_tails _ _).2 ⟨bef, ?_⟩,
        (mem_inits _ _).2 (prefix_append _ _)⟩
      rw [← append_assoc, hbef, hrest]
    have := find?_eq_none.1 hfound pay hpart
    rw [Bool.and_eq_true, decide_eq_true_iff, isPrefixOf_iff_prefix] at this
    exact absurd ⟨hlt, hstarts⟩ this

end Library.Rlp
