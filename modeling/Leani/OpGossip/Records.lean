import Leani.Library.Postcard
import Leani.Library.Rlp
import Leani.Primitives
import Mathlib.Data.Nat.Bitwise

/-!
# Discovery records

A consensus peer names its chain by the `opstack` entry of its record: the chain id and a version, as
varints. Some versions of the record library give the entry's value back RLP-encoded and others as the
bare string; the reader tells them apart by decoding, so it takes some bare entries for RLP strings.
-/

namespace Leani.OpGossip

open Library List Option Postcard Rlp UInt8

/-- The loop of `enr_op_stack_chain` over the bytes of the entry. -/
def chainLoop : List UInt8 → Nat → Nat → Option Nat
  | [], _, _ => none
  | byte :: bytes, index, chainId =>
    let chainId := chainId ||| (byte.toNat &&& 0x7f) <<< (7 * index) % 2 ^ 64
    if byte.toNat &&& 0x80 = 0 then some chainId else chainLoop bytes (index + 1) chainId

section Read

variable (decodeBytes : List UInt8 → Option (List UInt8))

def taken (raw : List UInt8) : List UInt8 := (decodeBytes raw).getD raw

/-- `enr_op_stack_chain`, of what the record has under `opstack`. -/
def enrOpStackChain (raw : Option (List UInt8)) : Option Nat := do
  let raw ← raw
  chainLoop ((taken decodeBytes raw).take 10) 0 0

end Read

def varintLoop (value : Nat) : List UInt8 :=
  let byte := UInt8.ofNat (value &&& 0x7f)
  if value >>> 7 = 0 then [byte] else (byte ||| 0x80) :: varintLoop (value >>> 7)
termination_by value
decreasing_by
  rename_i h
  rw [Nat.shiftRight_eq_div_pow] at h ⊢
  omega

def opstackEntry (chainId : Nat) : List UInt8 := [chainId, 0].flatMap varintLoop

def namedChain (entry : List UInt8) : Option Nat :=
  match Postcard.digits entry with
  | some (digits, _) =>
    if digits.length ≤ 10 ∧ Postcard.number digits < 2 ^ 64 then some (Postcard.number digits)
    else none
  | none => none

def Ends (entry : List UInt8) : Prop := ∃ byte ∈ entry.take 10, byte.toNat < 128

def Mistaken (chainId : Nat) : Prop :=
  128 ≤ chainId ∧ chainId % 128 ≤ (Postcard.varint chainId).length ∧
    ¬ (chainId % 128 = 1 ∧ chainId < 2 ^ 14)

instance (chainId : Nat) : Decidable (Mistaken chainId) := inferInstanceAs (Decidable (_ ∧ _))

theorem varintLoop_eq (value : Nat) : varintLoop value = varint value := by
  induction value using Nat.strongRecOn with
  | ind value ih =>
    have hlow := Nat.and_two_pow_sub_one_eq_mod value 7
    have hshift := Nat.shiftRight_eq_div_pow value 7
    rw [varintLoop, hlow, hshift]
    by_cases h : value < 128
    · rw [if_pos (Nat.div_eq_of_lt h), varint_of_lt h, Nat.mod_eq_of_lt h]
    · have hor : UInt8.ofNat (value % 128) ||| 0x80 = UInt8.ofNat (value % 128 + 128) := by
        rw [← UInt8.toNat_inj, UInt8.toNat_or, Postcard.toNat_ofNat_of_lt (by omega),
          Postcard.toNat_ofNat_of_lt (by omega), Nat.or_comm]
        exact (Nat.two_pow_add_eq_or_of_lt (i := 7) (Nat.mod_lt value (by decide)) 1).symm.trans
          (Nat.add_comm _ _)
      rw [if_neg (by omega), varint_of_le (by omega), hor, ih _ (by omega)]

theorem opstackEntry_eq (cid : Nat) : opstackEntry cid = varint cid ++ [0] := by
  simp [opstackEntry, varintLoop_eq, varint_of_lt]

variable {chainId : Nat}

theorem or_shifted {index : Nat} (h : chainId < 2 ^ (7 * index)) (hidx : index < 10) (low : Nat) :
    chainId ||| (low <<< (7 * index)) % 2 ^ 64 = (chainId + low * 2 ^ (7 * index)) % 2 ^ 64 := by
  have hsplit : 2 ^ 64 = 2 ^ (7 * index) * 2 ^ (64 - 7 * index) := by
    rw [← Nat.pow_add]
    congr 1
    omega
  have hshifted : low <<< (7 * index) % 2 ^ 64 = (low % 2 ^ (64 - 7 * index)) <<< (7 * index) := by
    rw [Nat.shiftLeft_eq, Nat.shiftLeft_eq, hsplit, Nat.mul_comm low, Nat.mul_mod_mul_left,
      Nat.mul_comm]
  rw [hshifted, Nat.or_comm, ← Nat.shiftLeft_add_eq_or_of_lt h, Nat.shiftLeft_eq, hsplit,
    Nat.mul_comm low, Nat.mod_mul, Nat.add_mul_mod_self_left, Nat.mod_eq_of_lt h,
    Nat.add_mul_div_left _ _ (Nat.pow_pos (by decide)), Nat.div_eq_of_lt h, Nat.zero_add,
    Nat.mul_comm, Nat.add_comm]

theorem chainLoop_eq : ∀ {bytes : List UInt8} {index chainId : Nat}, chainId < 2 ^ (7 * index) →
    index + bytes.length ≤ 10 → chainLoop bytes index chainId = (digits bytes).map fun digits =>
        (chainId + number digits.1 * 2 ^ (7 * index)) % 2 ^ 64 := by
  intro bytes
  induction bytes with
  | nil => intros; rfl
  | cons byte bytes ih =>
    intro index chainId hlt hlen
    rw [length_cons] at hlen
    have hbyte := byte.toNat_lt
    have hlow : byte.toNat &&& 0x7f = byte.toNat % 128 := Nat.and_two_pow_sub_one_eq_mod _ 7
    have htop : byte.toNat &&& 0x80 = 0 ↔ byte.toNat < 128 := by
      rw [Nat.and_comm, show (0x80 : Nat) = 2 ^ 7 from rfl, Nat.two_pow_and, Nat.testBit_eq_decide_div_mod_eq]
      by_cases h : byte.toNat < 128 <;> simp <;> omega
    rw [chainLoop, hlow, or_shifted hlt (by omega), digits]
    by_cases h : byte.toNat < 128
    · rw [if_pos (htop.2 h), if_pos h]; simp [number]
    · rw [if_neg (mt htop.1 h), if_neg h, Option.map_map]
      cases bytes with
      | nil => rfl
      | cons next bytes =>
        rw [length_cons] at hlen
        have hpow : 2 ^ (7 * (index + 1)) = 128 * 2 ^ (7 * index) := by
          rw [Nat.mul_succ, Nat.pow_add, Nat.mul_comm]
        have hsum : chainId + byte.toNat % 128 * 2 ^ (7 * index) < 2 ^ (7 * (index + 1)) := by
          have hlow : byte.toNat % 128 * 2 ^ (7 * index) ≤ 127 * 2 ^ (7 * index) :=
            Nat.mul_le_mul_right _ (by omega)
          rw [hpow]
          generalize 2 ^ (7 * index) = unit at hlt hlow ⊢; omega
        have hword : chainId + byte.toNat % 128 * 2 ^ (7 * index) < 2 ^ 64 :=
          hsum.trans_le (Nat.pow_le_pow_right (by decide) (by omega))
        rw [Nat.mod_eq_of_lt hword, ih hsum (by rw [length_cons]; omega)]
        congr 1
        funext digits
        simp only [Function.comp_apply, number, hpow]
        congr 1
        ring

theorem isSome_digits {bytes : List UInt8} :
    (digits bytes).isSome ↔ ∃ byte ∈ bytes, byte.toNat < 128 := by
  induction bytes with
  | nil => simp [digits]
  | cons byte bytes ih =>
    rw [digits]
    by_cases h : byte.toNat < 128 <;> simp [h, ih]

theorem prefix_entry (hchain : 128 ≤ chainId) (hfit : chainId < 2 ^ 64) {pay : List UInt8}
    (hlen : pay.length < 2 ^ 64) : string pay <+: opstackEntry chainId ↔ pay.length = chainId % 128 ∧
    pay <+: varint (chainId / 128) ++ [0] ∧ ∀ byte, pay = [byte] → 0x80 ≤ byte.toNat := by
  have hten : (varint chainId).length ≤ 10 :=
    length_varint_le (hfit.trans_le (by decide))
  have hfst : (UInt8.ofNat (chainId % 128 + 128)).toNat = chainId % 128 + 128 :=
    Postcard.toNat_ofNat_of_lt (by omega)
  rw [opstackEntry_eq]
  rw [varint_of_le hchain, length_cons] at hten
  rw [varint_of_le hchain, cons_append]
  constructor
  · intro hstarts
    rcases string_cases pay with ⟨byte, hbyte, -, hstring⟩ | ⟨hsingle, hstring⟩
    · rw [hstring, cons_prefix_cons] at hstarts; rw [hstarts.1, hfst] at hbyte; omega
    · obtain ⟨_, _, hhdr, hsays⟩ := header_cases hlen
      have hbound := hstarts.length_le
      rw [hstring, hhdr, cons_append, cons_prefix_cons] at hstarts
      rcases hsays with ⟨-, hsays, hrest⟩ | ⟨_, -⟩
      · rw [hrest] at hstarts; rw [hstarts.1, hfst] at hsays; exact ⟨by omega, hstarts.2, hsingle⟩
      · rw [hstring, length_append, length_cons, length_append, length_singleton] at hbound; omega
  · rintro ⟨hlow, hstarts, hsingle⟩
    have hbound := hstarts.length_le
    rw [length_append, length_singleton] at hbound
    rcases string_cases pay with ⟨byte, hbyte, heq, -⟩ | ⟨-, hstring⟩
    · have := hsingle byte heq
      omega
    · rw [hstring, header, if_pos (by omega), cons_append, nil_append, hlow, Nat.add_comm]
      exact cons_prefix_cons.2 ⟨rfl, hstarts⟩

theorem head_varint {n : Nat} : ∃ first rest, varint n = first :: rest ∧
    (0x80 ≤ first.toNat ↔ 128 ≤ n) := by
  by_cases h : n < 128
  · refine ⟨_, _, Postcard.varint_of_lt h, ?_⟩
    rw [Postcard.toNat_ofNat_of_lt (by omega)]
  · refine ⟨_, _, Postcard.varint_of_le (by omega), ?_⟩
    rw [Postcard.toNat_ofNat_of_lt (by omega)]; omega

theorem exists_prefix_iff (hchain : 128 ≤ chainId) (hfit : chainId < 2 ^ 64) : (∃ pay : List UInt8,
    pay.length < 2 ^ 64 ∧ string pay <+: opstackEntry chainId) ↔ Mistaken chainId := by
  have hlen : (varint chainId).length = (varint (chainId / 128)).length + 1 := by
    rw [varint_of_le hchain, length_cons]
  obtain ⟨_, _, hvarint, hfirst⟩ := @head_varint (chainId / 128)
  constructor
  · rintro ⟨pay, hpay, hstarts⟩
    obtain ⟨hlow, hstarts, hsingle⟩ := (prefix_entry hchain hfit hpay).1 hstarts
    have hbound := hstarts.length_le
    rw [length_append, length_singleton] at hbound
    refine ⟨hchain, by omega, fun ⟨hone, _⟩ => ?_⟩
    obtain ⟨byte, rfl⟩ := length_eq_one_iff.1 (hlow.trans hone)
    rw [hvarint, cons_append, cons_prefix_cons] at hstarts
    have := hsingle byte rfl
    rw [hstarts.1, hfirst] at this; omega
  · rintro ⟨-, _, _⟩
    have hten : (varint chainId).length ≤ 10 :=
      length_varint_le (hfit.trans_le (by decide))
    have hpay : ((varint (chainId / 128) ++ [0]).take (chainId % 128)).length = chainId % 128 := by
      rw [length_take, length_append, length_singleton]; omega
    refine ⟨_, by omega, (prefix_entry hchain hfit (by omega)).2
      ⟨hpay, take_prefix _ _, fun byte hbyte => ?_⟩⟩
    rw [hbyte, length_singleton] at hpay
    rw [← hpay, hvarint, cons_append, take_succ_cons, take_zero] at hbyte
    rw [← (cons.inj hbyte).1, hfirst]; omega

section Decoded

variable {decodeBytes : List UInt8 → Option (List UInt8)}

theorem enrOpStackChain_eq (raw : List UInt8) : enrOpStackChain decodeBytes (some raw) =
      (digits ((taken decodeBytes raw).take 10)).map fun digits => number digits.1 % 2 ^ 64 := by
  have hloop : enrOpStackChain decodeBytes (some raw) =
      chainLoop ((taken decodeBytes raw).take 10) 0 0 := rfl
  rw [hloop, chainLoop_eq (by decide) (by rw [length_take]; omega)]; simp

variable {raw : List UInt8}

theorem enrOpStackChain_eq_none :
    enrOpStackChain decodeBytes (some raw) = none ↔ ¬ Ends (taken decodeBytes raw) := by
  rw [enrOpStackChain_eq, map_eq_none_iff, ← not_isSome_iff_eq_none, isSome_digits]; rfl

variable {chainId : Nat}

theorem enrOpStackChain_of_taken (hchain : chainId < 2 ^ 64) (h : taken decodeBytes raw =
    opstackEntry chainId) : enrOpStackChain decodeBytes (some raw) = some chainId := by
  have hlen : (varint chainId).length ≤ 10 :=
    length_varint_le (hchain.trans_le (by decide))
  rw [enrOpStackChain_eq, h, opstackEntry_eq, take_append, take_of_length_le hlen,
    digits_varint, map_some, number_varint, Nat.mod_eq_of_lt hchain]

variable (hdecodes : Rlp.Decodes decodeBytes)

include hdecodes

theorem taken_string {pay : List UInt8} (h : pay.length < 2 ^ 64) :
    taken decodeBytes (string pay) = pay := by
  rw [taken, (hdecodes _ _).2 ⟨h, prefix_rfl⟩, getD_some]

theorem taken_eq_self (h : ¬ ∃ payload : List UInt8,
    payload.length < 2 ^ 64 ∧ string payload <+: raw) : taken decodeBytes raw = raw := by
  cases hdec : decodeBytes raw with
  | none => rw [taken, hdec, getD_none]
  | some payload => exact absurd ⟨payload, (hdecodes _ _).1 hdec⟩ h

theorem enrOpStackChain_small (h : chainId < 128) :
    enrOpStackChain decodeBytes (some (opstackEntry chainId)) = some chainId := by
  have hbyte : (UInt8.ofNat chainId).toNat < 128 := by
    rwa [Postcard.toNat_ofNat_of_lt (by omega)]
  have hstring : Rlp.string [UInt8.ofNat chainId] = [UInt8.ofNat chainId] := by
    rw [string, if_pos hbyte]
  have hdec : decodeBytes (opstackEntry chainId) = some [ofNat chainId] := by
    refine (hdecodes _ _).2 ⟨by rw [length_singleton]; decide, ?_⟩
    rw [hstring, opstackEntry_eq, varint_of_lt h]; exact prefix_append _ _
  have hdigs : digits [ofNat chainId] = some ([ofNat chainId], []) := by
    rw [digits, if_pos hbyte]
  have hnum : number [ofNat chainId] = chainId := by
    rw [← varint_of_lt h, number_varint]
  rw [enrOpStackChain_eq, taken, hdec, getD_some, take_of_length_le (by simp),
    hdigs, map_some, hnum, Nat.mod_eq_of_lt (h.trans (by decide))]

theorem Mistaken.misread (h : Mistaken chainId) (hfit : chainId < 2 ^ 64) :
    enrOpStackChain decodeBytes (some (opstackEntry chainId)) ≠ some chainId := by
  obtain ⟨pay, hlen, hstarts⟩ := (exists_prefix_iff h.1 hfit).2 h
  have htaken : taken decodeBytes (opstackEntry chainId) = pay := by
    rw [taken, (hdecodes _ _).2 ⟨hlen, hstarts⟩, getD_some]
  obtain ⟨-, ⟨after, hafter⟩, -⟩ := (prefix_entry h.1 hfit hlen).1 hstarts
  rw [enrOpStackChain_eq, htaken]
  cases hdigs : digits (pay.take 10) with
  | none => exact nofun
  | some read =>
    obtain ⟨digits, rest⟩ := read
    have hwhole : varint (chainId / 128) ++ [0] = digits ++ (rest ++ (pay.drop 10 ++ after)) := by
      rw [← append_assoc digits, ← append_of_digits hdigs, ← append_assoc, take_append_drop, hafter]
    have hsame := digits_varint (chainId / 128) [0]
    rw [hwhole, digits_append hdigs, some.injEq, Prod.mk.injEq] at hsame
    intro heq
    rw [map_some, hsame.1, number_varint, some.injEq] at heq
    have := h.1
    have := Nat.mod_le (chainId / 128) (2 ^ 64); omega

theorem enrOpStackChain_iff (hfit : chainId < 2 ^ 64) :
    enrOpStackChain decodeBytes (some (opstackEntry chainId)) = some chainId ↔ ¬ Mistaken chainId := by
  refine ⟨fun h hmistaken => hmistaken.misread hdecodes hfit h, fun h => ?_⟩
  by_cases hsmall : chainId < 128
  · exact enrOpStackChain_small hdecodes hsmall
  · refine enrOpStackChain_of_taken hfit (taken_eq_self hdecodes ?_)
    rwa [exists_prefix_iff (by omega) hfit]

end Decoded

end Leani.OpGossip
