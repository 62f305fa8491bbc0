import Leani.EvmEvents.Work
import Std.Data.String.ToInt

/-!
# Values of events

What the parameters of an event stand for: addresses, numbers, bytes and texts, in the range of their
types, with the words that encode them and the texts that render them.
-/

namespace Leani.EvmEvents

open Library Library.ContractAbi Std List BigEndian

inductive Value where
  | address (bytes : List UInt8)
  | uint (n : Nat)
  | int (z : Int)
  | bool (b : Bool)
  | fixedBytes (bytes : List UInt8)
  | bytes (bytes : List UInt8)
  | string (bytes : List UInt8)
  | array (items : List Value)
  | fixedArray (items : List Value)
  | tuple (items : List Value)

def AbiKind.Valid : AbiKind → Prop
  | uint bits | int bits => 0 < bits ∧ bits ≤ 256 ∧ bits % 8 = 0
  | fixedBytes size => 0 < size ∧ size ≤ 32
  | address | bool => True

def AbiKind.Fits : AbiKind → Value → Prop
  | address, .address bs => bs.length = 20
  | uint bits, .uint n => n < 2 ^ bits
  | int bits, .int z => -2 ^ (bits - 1) ≤ z ∧ z < 2 ^ (bits - 1)
  | bool, .bool _ => True
  | fixedBytes size, .fixedBytes bs => bs.length = size
  | _, _ => False

def Value.word : Value → List UInt8
  | address bs => List.replicate 12 0 ++ bs
  | uint n => ContractAbi.word n
  | int z => ContractAbi.word (z % 2 ^ 256).toNat
  | bool b => ContractAbi.word (if b then 1 else 0)
  | fixedBytes bs => bs ++ List.replicate (32 - bs.length) 0
  | _ => []

def Value.text : Value → String
  | address bs | fixedBytes bs | bytes bs => hexText bs
  | uint n => n.repr
  | int z => z.repr
  | bool b => if b then "true" else "false"
  | string bs => String.ofList (Utf8.lossy bs)
  | array _ | fixedArray _ | tuple _ => ""

variable {w : List UInt8}

theorem signed_range (hw : w.length = 32) :
    -2 ^ 255 ≤ signed w ∧ signed w < 2 ^ 255 ∧ signed w % 2 ^ 256 = number w := by
  have hlt := number_lt w
  rw [hw] at hlt
  unfold signed
  simp only
  split <;> omega

theorem signed_word {z : Int} (hlow : -2 ^ 255 ≤ z) (hhigh : z < 2 ^ 255) :
    signed (ContractAbi.word (z % 2 ^ 256).toNat) = z := by
  have hnum : number (ContractAbi.word (z % 2 ^ 256).toNat) = (z % 2 ^ 256).toNat :=
    number_bytes (by omega)
  unfold signed
  simp only [hnum]
  split <;> omega

theorem sign_extended_iff {m : Nat} (hw : w.length = 32) (hm : m < 32) :
    (∀ byte ∈ w.take (31 - m), byte = (if 128 ≤ (w.getD (31 - m) 0).toNat then 0xff else 0 : UInt8)) ↔
      -(128 * 256 ^ m : Nat) ≤ signed w ∧ signed w < (128 * 256 ^ m : Nat) := by
  obtain ⟨p, b, r, rfl, hp, hr⟩ : ∃ p b r, w = p ++ b :: r ∧ p.length = 31 - m ∧ r.length = m := by
    have hlt : 31 - m < w.length := by omega
    refine ⟨w.take (31 - m), w[31 - m], w.drop (31 - m + 1), ?_, ?_, ?_⟩
    · rw [← drop_eq_getElem_cons hlt, take_append_drop]
    · rw [length_take]; omega
    · rw [length_drop]; omega
  have htake : (p ++ b :: r).take (31 - m) = p := by
    rw [← hp, take_left]
  have hget : (p ++ b :: r).getD (31 - m) 0 = b := by
    rw [← hp, getD_eq_getElem?_getD, getElem?_append_right le_rfl, Nat.sub_self]; rfl
  rw [htake, hget]
  -- The number is `P * 256 ^ (m + 1) + R`, and the sign is the highest bit of `R`.
  have hnum : number (p ++ b :: r) = number p * (256 * 256 ^ m) + (b.toNat * 256 ^ m + number r) := by
    rw [number_append, number, length_cons, hr, pow_succ']
  have hlow := number_lt r
  have hhigh := number_lt p
  have hb := b.toNat_lt
  rw [hr] at hlow
  rw [hp] at hhigh
  have hpow : 256 ^ (31 - m) * (256 * 256 ^ m) = 2 ^ 256 := by
    rw [← pow_succ', ← pow_add, show 31 - m + (m + 1) = 32 by omega]
    rfl
  have hzero : (∀ byte ∈ p, byte = 0) ↔ number p = 0 := by
    constructor
    · intro hall; rw [eq_replicate_of_mem hall, number_replicate_zero]
    · intro hnum byte hbyte
      have hp' : p = replicate p.length 0 := by
        apply number_injective
        · rw [length_replicate]
        · rw [hnum, number_replicate_zero]
      rw [hp'] at hbyte; exact eq_of_mem_replicate hbyte
  have hmax : (∀ byte ∈ p, byte = 0xff) ↔ number p + 1 = 256 ^ (31 - m) := by
    constructor
    · intro hall; rw [eq_replicate_of_mem hall, number_replicate_max, hp]
    · intro hnum byte hbyte
      have hp' : p = replicate p.length 0xff := by
        apply number_injective
        · rw [length_replicate]
        · have := number_replicate_max p.length; rw [hp] at this ⊢; omega
      rw [hp'] at hbyte; exact eq_of_mem_replicate hbyte
  unfold signed
  simp only [hnum]
  generalize number p = P at *
  generalize number r = R at *
  generalize 256 ^ (31 - m) = K at *
  generalize 256 ^ m = M at *
  have hleast : 1 ≤ P → 256 * M ≤ P * (256 * M) := fun h => Nat.le_mul_of_pos_left _ h
  have hbelow : P + 2 ≤ K → (P + 2) * (256 * M) ≤ K * (256 * M) := fun h => Nat.mul_le_mul_right _ h
  have hlast : P + 1 = K → (P + 1) * (256 * M) = K * (256 * M) := fun h => by rw [h]
  have hnone : P = 0 → P * (256 * M) = 0 := fun h => by rw [h, Nat.zero_mul]
  have hsign : 128 ≤ b.toNat → 128 * M ≤ b.toNat * M := fun h => Nat.mul_le_mul_right _ h
  have hplus : b.toNat ≤ 127 → b.toNat * M ≤ 127 * M := fun h => Nat.mul_le_mul_right _ h
  have htop : b.toNat * M ≤ 255 * M := Nat.mul_le_mul_right _ (by omega)
  rw [Nat.add_mul, hpow] at hbelow hlast
  generalize P * (256 * M) = Q at *
  generalize b.toNat * M = T at *
  by_cases hnegative : 128 ≤ b.toNat
  · rw [if_pos hnegative, hmax]
    split <;> omega
  · rw [if_neg hnegative, hzero]
    split <;> omega

variable {kind : AbiKind}

theorem decodeWord_eq_ok (hkind : kind.Valid) (hw : w.length = 32) {text : String} :
    decodeWord kind w = .ok text ↔ ∃ v : Value, kind.Fits v ∧ v.word = w ∧ v.text = text := by
  cases kind with
  | address =>
    simp only [decodeWord, eq_ok, all_eq_true, decide_eq_true_eq]
    constructor
    · rintro ⟨_, hzero, rfl⟩
      have htake : w.take 12 = replicate 12 0 := by
        rw [eq_replicate_of_mem hzero, length_take, hw]; rfl
      refine ⟨.address (w.drop 12), ?_, ?_, rfl⟩
      · rw [AbiKind.Fits, length_drop, hw]
      · rw [Value.word, ← htake, take_append_drop]
    · rintro ⟨v, hfits, rfl, rfl⟩
      cases v with
      | address bs =>
        refine ⟨(), ?_, rfl⟩
        intro byte hbyte
        exact eq_of_mem_replicate (n := 12) hbyte
      | _ => exact hfits.elim
  | uint bits =>
    obtain ⟨hpos, hle, hmod⟩ := hkind
    have hwidth : 256 ^ (w.length - (256 - bits) / 8) = 2 ^ bits := by
      rw [hw, show (256 : Nat) = 2 ^ 8 from rfl, ← pow_mul,
        show 8 * (32 - (2 ^ 8 - bits) / 8) = bits by omega]
    simp only [decodeWord, eq_ok, all_eq_true, decide_eq_true_eq, forall_take_zero_iff (show (256 -
      bits) / 8 ≤ w.length by omega), hwidth]
    constructor
    · rintro ⟨_, hlt, rfl⟩
      refine ⟨.uint (number w), hlt, ?_, rfl⟩
      have := bytes_number w
      rwa [hw] at this
    · rintro ⟨v, hfits, rfl, rfl⟩
      cases v with
      | uint n =>
        have hnum : number (ContractAbi.word n) = n :=
          number_bytes (Nat.lt_of_lt_of_le hfits (Nat.pow_le_pow_right (by omega) hle))
        rw [Value.word, hnum]; exact ⟨(), hfits, rfl⟩
      | _ => exact hfits.elim
  | int bits =>
    obtain ⟨hpos, hle, hmod⟩ := hkind
    have hpadding : (256 - bits) / 8 = 31 - (bits / 8 - 1) := by omega
    have hbound : 128 * 256 ^ (bits / 8 - 1) = 2 ^ (bits - 1) := by
      rw [show (256 : Nat) = 2 ^ 8 from rfl, show (128 : Nat) = 2 ^ 7 from rfl, ← pow_mul, ← pow_add,
        show 7 + 8 * (bits / 8 - 1) = bits - 1 by omega]
    have hbelow : (2 : Int) ^ (bits - 1) ≤ 2 ^ 255 := by
      exact_mod_cast Nat.pow_le_pow_right (by omega) (show bits - 1 ≤ 255 by omega)
    simp only [decodeWord, eq_ok, all_eq_true, decide_eq_true_eq, hpadding, sign_extended_iff hw
      (show bits / 8 - 1 < 32 by omega), hbound]
    constructor
    · rintro ⟨_, hrng, rfl⟩
      refine ⟨.int (signed w), ?_, ?_, rfl⟩
      · rw [AbiKind.Fits]
        exact_mod_cast hrng
      · have hbytes := bytes_number w
        rw [hw] at hbytes; rw [Value.word, (signed_range hw).2.2, Int.toNat_natCast]; exact hbytes
    · rintro ⟨v, hfits, rfl, rfl⟩
      cases v with
      | int z =>
        have hrng : -2 ^ (bits - 1) ≤ z ∧ z < 2 ^ (bits - 1) := hfits
        have hsign := @signed_word z (by omega) (by omega)
        rw [Value.word, hsign]
        refine ⟨(), ?_, rfl⟩
        exact_mod_cast hrng
      | _ => exact hfits.elim
  | bool =>
    have hbytes := bytes_number w
    rw [hw] at hbytes
    rw [decodeWord]
    constructor
    · intro h
      split at h
      · rename_i hzero
        rw [hzero] at hbytes; exact ⟨.bool false, trivial, hbytes, pure_eq_ok.1 h⟩
      · split at h
        · rename_i hone
          rw [hone] at hbytes; exact ⟨.bool true, trivial, hbytes, pure_eq_ok.1 h⟩
        · cases h
    · rintro ⟨v, hfits, rfl, rfl⟩
      cases v with
      | bool b =>
        have hnum : number (Value.bool b).word = if b then 1 else 0 :=
          number_bytes (by cases b <;> decide)
        rw [hnum]
        cases b <;> rfl
      | _ => exact hfits.elim
  | fixedBytes size =>
    simp only [decodeWord, eq_ok, all_eq_true, decide_eq_true_eq]
    constructor
    · rintro ⟨_, hzero, rfl⟩
      have hlen : (w.take size).length = size := by
        rw [length_take, hw]; exact Nat.min_eq_left hkind.2
      have hdrop : w.drop size = replicate (32 - size) 0 := by
        rw [eq_replicate_of_mem hzero, length_drop, hw]
      refine ⟨.fixedBytes (w.take size), hlen, ?_, rfl⟩
      rw [Value.word, hlen, ← hdrop, take_append_drop]
    · rintro ⟨v, hfits, rfl, rfl⟩
      cases v with
      | fixedBytes bs =>
        have hlen := hfits
        rw [Value.word, ← hlen, take_left, drop_left]
        exact ⟨(), fun byte hbyte => eq_of_mem_replicate hbyte, rfl⟩
      | _ => exact hfits.elim

theorem length_word_of_fits (hkind : kind.Valid) {v : Value} (h : kind.Fits v) :
    v.word.length = 32 := by
  cases kind <;> cases v <;> first | exact h.elim | skip
  case address.address bs =>
    rw [Value.word, length_append, length_replicate, show bs.length = 20 from h]
  case fixedBytes.fixedBytes size bs =>
    have hlen : bs.length = size := h
    have hle := hkind.2; rw [Value.word, length_append, length_replicate]; omega
  all_goals exact length_word _

mutual

def AbiType.InRange : AbiType → Value → Prop
  | .word kind, v => kind.Fits v
  | .bytes, .bytes _ | .string, .string _ => True
  | .array element none, .array items => ∀ item ∈ items, element.InRange item
  | .array element (some size), .fixedArray items =>
    items.length = size ∧ ∀ item ∈ items, element.InRange item
  | .tuple components, .tuple items => InRanges components items
  | _, _ => False

def InRanges : List (String × AbiType) → List Value → Prop
  | [], [] => True
  | (_, ty) :: components, item :: items => ty.InRange item ∧ InRanges components items
  | _, _ => False

end

mutual

def Value.dyn : Value → DynSolValue
  | .address bs => .word (Value.address bs).word
  | .uint n => .word (Value.uint n).word
  | .int z => .word (Value.int z).word
  | .bool b => .word (Value.bool b).word
  | .fixedBytes bs => .word (Value.fixedBytes bs).word
  | .bytes bs | .string bs => .bytes bs
  | .array items => .array (dyns items)
  | .fixedArray items => .fixedArray (dyns items)
  | .tuple items => .tuple (dyns items)

def dyns : List Value → List DynSolValue
  | [] => []
  | item :: items => item.dyn :: dyns items

end

theorem dyns_eq_map (items : List Value) : dyns items = items.map Value.dyn := by
  induction items with
  | nil => rfl
  | cons item items ih => rw [dyns, ih, map_cons]

theorem dyn_of_fits {v : Value} (h : kind.Fits v) : v.dyn = .word v.word := by
  cases kind <;> cases v <;> first | exact h.elim | rfl

mutual

def AbiType.json : AbiType → Value → List Char
  | .array element _, .array items | .array element _, .fixedArray items =>
    '[' :: ([','].intercalate (items.map element.json) ++ [']'])
  | .tuple components, .tuple items =>
    '\x7b' :: ([','].intercalate (memberJsons components items) ++ ['\x7d'])
  | .word _, v | .bytes, v | .string, v => Json.quote v.text.toList
  | _, _ => []

def memberJsons : List (String × AbiType) → List Value → List (List Char)
  | (component, ty) :: components, item :: items =>
    (Json.quote component.toList ++ ':' :: ty.json item) :: memberJsons components items
  | _, _ => []

end

mutual

def AbiType.entries (name : String) : AbiType → Value → List (String × String)
  | .tuple components, .tuple items => componentEntries name components items
  | .array element size, v => [(name, String.ofList ((AbiType.array element size).json v))]
  | .word _, v | .bytes, v | .string, v => [(name, v.text)]
  | _, _ => []

def componentEntries (name : String) : List (String × AbiType) → List Value → List (String × String)
  | (component, ty) :: components, item :: items =>
    ty.entries (name ++ "." ++ component) item ++ componentEntries name components items
  | _, _ => []

end

mutual

def AbiType.Valid : AbiType → Prop
  | .word kind => kind.Valid
  | .bytes | .string => True
  | .array element _ => element.Valid
  | .tuple components => AllValid components

def AllValid : List (String × AbiType) → Prop
  | [] => True
  | (_, ty) :: components => ty.Valid ∧ AllValid components

end

theorem hasType_word {d : DynSolValue} :
    HasType (AbiType.word kind).decodeType d ↔ ∃ w, d = .word w ∧ w.length = 32 := by
  constructor
  · intro h
    cases kind <;> cases d <;> first | exact ⟨_, rfl, h⟩ | exact h.elim
  · rintro ⟨w, rfl, hw⟩
    cases kind <;> exact hw

mutual

theorem hasType_dyn : ∀ {ty : AbiType} {v : Value}, ty.Valid → ty.InRange v →
    HasType ty.decodeType v.dyn
  | .word kind, v, hvalid, h => by
    rw [dyn_of_fits h, hasType_word]
    exact ⟨_, rfl, length_word_of_fits hvalid h⟩
  | .bytes, .bytes _, _, _ | .string, .string _, _, _ => trivial
  | .array element none, .array items, hvalid, h => by
    rw [AbiType.InRange] at h
    rw [AbiType.decodeType, Value.dyn, HasType, dyns_eq_map]
    intro d hd
    obtain ⟨item, hitem, rfl⟩ := mem_map.1 hd
    exact hasType_dyn hvalid (h item hitem)
  | .array element (some size), .fixedArray items, hvalid, h => by
    rw [AbiType.InRange] at h
    rw [AbiType.decodeType, Value.dyn, HasType, dyns_eq_map, length_map]
    refine ⟨h.1, fun d hd => ?_⟩
    obtain ⟨item, hitem, rfl⟩ := mem_map.1 hd; exact hasType_dyn hvalid (h.2 item hitem)
  | .tuple components, .tuple items, hvalid, h => by
    rw [AbiType.InRange] at h
    rw [AbiType.decodeType, Value.dyn, HasType]; exact haveTypes_dyns hvalid h

theorem haveTypes_dyns : ∀ {comps : List (String × AbiType)} {items : List Value},
    AllValid comps → InRanges comps items → HaveTypes (decodeTypes comps) (dyns items)
  | [], [], _, _ => trivial
  | (_, _) :: _, _ :: _, hvalid, h => ⟨hasType_dyn hvalid.1 h.1, haveTypes_dyns hvalid.2 h.2⟩

end

end Leani.EvmEvents
