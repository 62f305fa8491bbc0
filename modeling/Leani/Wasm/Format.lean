import Mathlib.Data.Nat.Prime.Basic
import Mathlib.Tactic.Positivity
import Mathlib.Tactic.Ring
import Leani.Library.Postcard
import Leani.Wasm.Text

/-!
# The binary format of an AssemblyScript guest

`Reader` and `Writer` of the AssemblyScript SDK. Lengths and offsets are its 32-bit integers, and
an array holds less than a GiB.
-/

namespace Leani.Wasm.AssemblyScript

open Library List Postcard UInt64

def i32 (n : Int) : Int := n.bmod 4294967296

def blockMaxSize : Nat := 1073741820

def referencesMax : Nat := 268435455

structure Uint8Array where
  bytes : List UInt8
  fits : bytes.length ≤ blockMaxSize

/-- `slice`: negative bounds count from the end, and bounds stay within the array. -/
def Uint8Array.slice (array : Uint8Array) (start stop : Int) : List UInt8 :=
  let length : Int := array.bytes.length
  let start := if start < 0 then max (start + length) 0 else min start length
  let stop := if stop < 0 then max (stop + length) 0 else min stop length
  (array.bytes.drop start.toNat).take (stop - start).toNat

structure U256 where
  bytes : List UInt8
  exact32 : bytes.length = 32
  deriving DecidableEq

theorem toNat_shiftRight_seven (value : UInt64) : (value >>> 7).toNat = value.toNat / 128 := by
  rw [UInt64.toNat_shiftRight, Nat.shiftRight_eq_div_pow]; rfl

theorem toNat_and_seven (value : UInt64) : (value &&& 0x7f).toNat = value.toNat % 128 := by
  rw [UInt64.toNat_and]; exact Nat.and_two_pow_sub_one_eq_mod value.toNat 7

theorem byte_and_seven (byte : UInt8) : (byte &&& 0x7f).toNat = byte.toNat % 128 := by
  rw [UInt8.toNat_and]; exact Nat.and_two_pow_sub_one_eq_mod byte.toNat 7

theorem byte_or_eighty {byte : UInt8} (h : byte.toNat < 128) :
    (byte ||| 0x80).toNat = byte.toNat + 128 := by
  rw [UInt8.toNat_or, Nat.or_comm]
  have := Nat.two_pow_add_eq_or_of_lt (i := 7) h 1; rw [Nat.add_comm]; exact this.symm

theorem byte_and_eighty (byte : UInt8) : byte &&& 0x80 = 0 ↔ byte.toNat < 128 := by
  have hall : ∀ n : Fin 256, UInt8.ofNat n.val &&& 0x80 = 0 ↔ n.val < 128 := by decide +kernel
  have := hall ⟨byte.toNat, byte.toNat_lt⟩
  rwa [UInt8.ofNat_toNat] at this

theorem toNat_or_shiftLeft {value : UInt64} {byte : UInt8} {shift : Nat} (hshift : shift < 64)
    (hval : value.toNat < 2 ^ shift) :
    (value ||| ((byte &&& 0x7f).toUInt64 <<< UInt64.ofNat shift)).toNat =
      (value.toNat + byte.toNat % 128 * 2 ^ shift) % 2 ^ 64 := by
  have hpow : (2 : Nat) ^ 64 = 2 ^ shift * 2 ^ (64 - shift) := by
    rw [← Nat.pow_add]
    congr 1
    omega
  have hshifted : (ofNat shift).toNat = shift := by
    rw [toNat_ofNat']; omega
  -- The bits that stay are a multiple of `2 ^ shift`.
  have hmod : byte.toNat % 128 * 2 ^ shift % 2 ^ 64 =
      2 ^ shift * (byte.toNat % 128 % 2 ^ (64 - shift)) := by
    rw [Nat.mul_comm, hpow, Nat.mul_mod_mul_left]
  have hlt : 2 ^ shift * (byte.toNat % 128 % 2 ^ (64 - shift)) + 2 ^ shift ≤ 2 ^ 64 := by
    have : byte.toNat % 128 % 2 ^ (64 - shift) + 1 ≤ 2 ^ (64 - shift) :=
      Nat.mod_lt _ (Nat.two_pow_pos _)
    calc 2 ^ shift * (byte.toNat % 128 % 2 ^ (64 - shift)) + 2 ^ shift
        = 2 ^ shift * (byte.toNat % 128 % 2 ^ (64 - shift) + 1) := (Nat.mul_succ _ _).symm
      _ ≤ 2 ^ shift * 2 ^ (64 - shift) := Nat.mul_le_mul_left _ this
      _ = 2 ^ 64 := hpow.symm
  have hsum : (value.toNat + byte.toNat % 128 * 2 ^ shift) % 2 ^ 64 =
      value.toNat + 2 ^ shift * (byte.toNat % 128 % 2 ^ (64 - shift)) := by
    rw [Nat.add_mod, hmod, Nat.mod_eq_of_lt value.toNat_lt, Nat.mod_eq_of_lt (by omega)]
  rw [hsum, UInt64.toNat_or, UInt64.toNat_shiftLeft, UInt8.toNat_toUInt64, byte_and_seven, hshifted,
    Nat.mod_eq_of_lt hshift, Nat.shiftLeft_eq, hmod, Nat.or_comm,
    ← Nat.two_pow_add_eq_or_of_lt hval, Nat.add_comm]

structure Reader where
  input : Uint8Array
  offset : Int

abbrev Reading (α : Type) := StateT Reader (Except String) α

def Reader.done (reader : Reader) : Prop := reader.input.bytes.length ≤ reader.offset

instance (reader : Reader) : Decidable reader.done := inferInstanceAs (Decidable (_ ≤ _))

namespace Reading

def byte : Reading UInt8 := fun reader =>
  if reader.done then .error "the input ends early"
  else if reader.offset < 0 then .error "Index out of range"
  else
    match reader.input.bytes[reader.offset.toNat]? with
    | some byte => .ok (byte, { reader with offset := reader.offset + 1 })
    | none => .error "Index out of range"

/-- The loop of `uint`, with `left` bytes still allowed. -/
def uintLoop : Nat → UInt64 → UInt64 → Reading UInt64
  | 0, _, _ => throw "a varint is too long"
  | left + 1, value, shift => do
    let byte ← byte
    let value := value ||| ((byte &&& 0x7f).toUInt64 <<< shift)
    if byte &&& 0x80 = 0 then return value
    uintLoop left value (shift + 7)

def uint : Reading UInt64 := uintLoop 10 0 0

def flag : Reading Bool := do
  let byte ← byte
  if byte > 1 then throw (toString byte.toNat ++ " is not a bool")
  return byte == 1

def raw (length : Int) : Reading (List UInt8) := fun reader =>
  if length < 0 ∨ reader.input.bytes.length < i32 (reader.offset + length) then
    .error "the input ends early"
  else
    .ok (reader.input.slice reader.offset (i32 (reader.offset + length)),
      { reader with offset := i32 (reader.offset + length) })

def bytes : Reading (List UInt8) := do
  let length ← uint
  raw (i32 length.toNat)

def text : Reading (List UInt16) := do
  let bytes ← bytes
  return Wasm.text bytes

def u256 : Reading U256 := do
  let bytes ← raw 32
  if h : bytes.length = 32 then return ⟨bytes, h⟩
  throw ("a U256 is 32 bytes, not " ++ toString bytes.length)

end Reading

def doubled (size needed : Nat) : Nat :=
  if 0 < size ∧ size < needed then doubled (size * 2) needed else size
termination_by needed - size

variable {size needed : Nat}

theorem le_doubled (h : 0 < size) : needed ≤ doubled size needed := by
  induction size using doubled.induct needed with
  | case1 size hsize ih =>
    rw [doubled, if_pos hsize]; exact ih (by omega)
  | case2 size hsize =>
    rw [doubled, if_neg hsize]; omega

/-- The room for `needed` bytes in a buffer. An array beyond the limit is refused; when the size
leaves the 32-bit integers instead, the source's loop does not end. -/
def reserve (capacity needed : Nat) : Except String Nat :=
  if needed ≤ capacity then .ok capacity
  else if doubled (capacity * 2) needed ≤ blockMaxSize then .ok (doubled (capacity * 2) needed)
  else .error "Invalid length"

theorem dvd_of_lt (h : size ∣ 2 ^ 29) (hlt : size < 2 ^ 29) : size * 2 ∣ 2 ^ 29 := by
  obtain ⟨k, _, rfl⟩ := (Nat.dvd_prime_pow Nat.prime_two).1 h
  rw [← Nat.pow_succ]
  refine Nat.pow_dvd_pow 2 ?_
  have : k ≠ 29 := by
    rintro rfl; exact Nat.lt_irrefl _ hlt
  omega

theorem doubled_dvd (h : size ∣ 2 ^ 29) (hneeded : needed ≤ 2 ^ 29) :
    doubled size needed ∣ 2 ^ 29 := by
  induction size using doubled.induct needed with
  | case1 size hsize ih =>
    rw [doubled, if_pos hsize]; exact ih (dvd_of_lt h (Nat.lt_of_lt_of_le hsize.2 hneeded))
  | case2 size hsize =>
    rw [doubled, if_neg hsize]; exact h

variable {capacity : Nat}

theorem reserve_of_le (h : capacity ∣ 2 ^ 29) (hneeded : needed ≤ 2 ^ 29) :
    ∃ size, reserve capacity needed = .ok size ∧ needed ≤ size ∧ size ∣ 2 ^ 29 := by
  have hpos := Nat.pos_of_dvd_of_pos h (by decide)
  unfold reserve
  split
  · rename_i hfits; exact ⟨capacity, rfl, hfits, h⟩
  · rename_i hfits
    have hdouble := dvd_of_lt h (by omega)
    have hdvd := doubled_dvd hdouble hneeded
    have hle := Nat.le_of_dvd (by decide) hdvd
    rw [if_pos (Nat.le_trans hle (by decide))]; exact ⟨_, rfl, le_doubled (by omega), hdvd⟩

theorem pow_of_doubled {size needed : Nat} (h : ∃ k, size = 2 ^ k) :
    ∃ k, doubled size needed = 2 ^ k := by
  induction size using doubled.induct needed with
  | case1 size hsize ih =>
    rw [doubled, if_pos hsize]
    obtain ⟨k, rfl⟩ := h; exact ih ⟨k + 1, (Nat.pow_succ ..).symm⟩
  | case2 size hsize =>
    rw [doubled, if_neg hsize]; exact h

theorem reserve_of_lt (h : capacity ∣ 2 ^ 29) (hneeded : 2 ^ 29 < needed) :
    reserve capacity needed = .error "Invalid length" := by
  obtain ⟨k, hk, rfl⟩ := (Nat.dvd_prime_pow Nat.prime_two).1 h
  have hle : 2 ^ k ≤ 2 ^ 29 := Nat.pow_le_pow_right (by decide) hk
  rw [reserve, if_neg (by omega), if_neg]
  intro hsize
  have hneed : needed ≤ doubled (2 ^ k * 2) needed := le_doubled (by positivity)
  obtain ⟨j, hj⟩ := @pow_of_doubled (2 ^ k * 2) needed ⟨k + 1, (Nat.pow_succ ..).symm⟩
  rw [hj] at hneed hsize
  have hlow := (Nat.pow_lt_pow_iff_right (by decide)).1 (Nat.lt_of_lt_of_le hneeded hneed)
  have hhigh : 2 ^ 30 ≤ 2 ^ j := Nat.pow_le_pow_right (by decide) hlow
  exact absurd (Nat.le_trans hhigh hsize) (by decide)

theorem reserve_eq_ok (h : capacity ∣ 2 ^ 29)
    (hsize : reserve capacity needed = .ok size) : needed ≤ size ∧ size ∣ 2 ^ 29 := by
  by_cases hneeded : needed ≤ 2 ^ 29
  · obtain ⟨_, heq, hle, hdvd⟩ := reserve_of_le h hneeded
    rw [heq] at hsize; cases hsize; exact ⟨hle, hdvd⟩
  · rw [reserve_of_lt h (by omega)] at hsize; cases hsize

/-- A writer, by what is in its buffer up to `length` and the size of the buffer. The rest of the
buffer is never read. -/
structure Writer where
  written : List UInt8
  capacity : Nat
  fits : written.length ≤ capacity
  power : capacity ∣ 2 ^ 29

namespace Writer

def new : Writer where
  written := []
  capacity := 256
  fits := Nat.zero_le _
  power := by decide

def raw (value : List UInt8) (writer : Writer) : Except String Writer :=
  match h : reserve writer.capacity (writer.written.length + value.length) with
  | .error e => .error e
  | .ok capacity =>
    .ok
      { written := writer.written ++ value
        capacity := capacity
        fits := by
          rw [List.length_append]
          exact (reserve_eq_ok writer.power h).1
        power := (reserve_eq_ok writer.power h).2 }

def byte (value : UInt8) (writer : Writer) : Except String Writer := writer.raw [value]

def uint (value : UInt64) (writer : Writer) : Except String Writer :=
  if 0x80 ≤ value then do
    let writer ← writer.byte ((value &&& 0x7f).toUInt8 ||| 0x80)
    uint (value >>> 7) writer
  else writer.byte value.toUInt8
termination_by value.toNat
decreasing_by
  rename_i h
  have hle : 128 ≤ value.toNat := UInt64.le_iff_toNat_le.mp h
  rw [toNat_shiftRight_seven]
  omega

def flag (value : Bool) : Writer → Except String Writer := byte (if value then 1 else 0)

def bytes (value : List UInt8) (writer : Writer) : Except String Writer := do
  let writer ← writer.uint (UInt64.ofNat value.length)
  writer.raw value

def text (value : List UInt16) : Writer → Except String Writer := bytes (utf8 value)

def u256 (value : U256) : Writer → Except String Writer := raw value.bytes

def finish (writer : Writer) : Uint8Array where
  bytes := writer.written
  fits := Nat.le_trans writer.fits (Nat.le_trans (Nat.le_of_dvd (by decide) writer.power) (by decide))

end Writer

def Reader.after (reader : Reader) (n : Nat) : Reader := { reader with offset := reader.offset + n }

/-- The reader stands after `before`, with `rest` to read. -/
structure Reader.At (reader : Reader) (before rest : List UInt8) : Prop where
  input : reader.input.bytes = before ++ rest
  offset : reader.offset = before.length

section Positions

variable {reader : Reader} {before rest : List UInt8}

theorem Reader.after_zero (reader : Reader) : reader.after 0 = reader := by
  simp [Reader.after]

theorem Reader.after_after (reader : Reader) (m n : Nat) :
    (reader.after m).after n = reader.after (m + n) := by
  simp only [Reader.after, Reader.mk.injEq, true_and]; omega

theorem Reader.At.after {read : List UInt8} (h : reader.At before (read ++ rest)) :
    (reader.after read.length).At (before ++ read) rest where
  input := by rw [append_assoc, ← h.input]; rfl
  offset := by simp only [Reader.after, h.offset, length_append]; omega

theorem Reader.At.done_iff (h : reader.At before rest) : reader.done ↔ rest = [] := by
  rw [Reader.done, h.input, h.offset, length_append, ← length_eq_zero_iff]; omega

theorem i32_of_lt {n : Int} (hlow : -2147483648 ≤ n) (hhigh : n < 2147483648) : i32 n = n := by
  simp only [i32, Int.bmod]
  split <;> omega

theorem Reader.At.length_le (h : reader.At before rest) :
    before.length + rest.length ≤ blockMaxSize := by
  have := reader.input.fits; rwa [h.input, length_append] at this

theorem slice_of_at {value : List UInt8} (h : reader.At before (value ++ rest)) :
    reader.input.slice reader.offset (reader.offset + value.length) = value := by
  have hlen := congrArg length h.input
  simp only [length_append] at hlen
  simp only [Uint8Array.slice, h.offset, hlen]
  rw [if_neg (by omega), if_neg (by omega), h.input, min_eq_left (by omega), min_eq_left (by omega)]
  have hstart : ((before.length : Int)).toNat = before.length := Int.toNat_natCast _
  have hcnt : ((before.length : Int) + value.length - before.length).toNat = value.length := by
    omega
  rw [hstart, hcnt, drop_left, take_left]

namespace Reading

theorem byte_eq_ok (h : reader.At before rest) {out : UInt8 × Reader} :
    byte reader = .ok out ↔ ∃ rest', rest = out.1 :: rest' ∧ out.2 = reader.after 1 := by
  cases rest with
  | nil =>
    rw [byte, if_pos (h.done_iff.2 rfl)]; simp
  | cons b rest =>
    have hoff := h.offset
    have hget : reader.input.bytes[reader.offset.toNat]? = some b := by
      rw [h.input, h.offset, Int.toNat_natCast, getElem?_append_right le_rfl, Nat.sub_self]; rfl
    rw [byte, if_neg (by rw [h.done_iff]; exact cons_ne_nil _ _), if_neg (by omega), hget]
    obtain ⟨_, after⟩ := out
    constructor
    · intro heq; cases heq; exact ⟨rest, rfl, rfl⟩
    · rintro ⟨rest', hrest, rfl⟩; cases hrest; rfl

theorem byte_cons {b : UInt8} (h : reader.At before (b :: rest)) :
    byte reader = .ok (b, reader.after 1) :=
  (byte_eq_ok h).2 ⟨rest, rfl, rfl⟩

theorem uintLoop_eq_ok : ∀ {left : Nat} {value : UInt64} {shift : Nat} {reader : Reader}
    {bef rest : List UInt8} {out : UInt64 × Reader}, shift + 7 * left = 70 → (left ≠ 0 →
    value.toNat < 2 ^ shift) → reader.At bef rest → (uintLoop left value (ofNat shift) reader =
    .ok out ↔ ∃ ds rest', digits rest = some (ds, rest') ∧ ds.length ≤ left ∧
    out = (ofNat (value.toNat + number ds * 2 ^ shift), reader.after ds.length)) := by
  intro left
  induction left with
  | zero =>
    intro value shift reader bef rest out _ _ _
    constructor
    · intro h; cases h
    · rintro ⟨ds, rest', hdigs, hlen, -⟩
      exact absurd (length_eq_zero_iff.1 (Nat.le_zero.1 hlen)) (digits_ne_nil hdigs)
  | succ left ih =>
    intro value shift reader bef rest out _ hval hat
    have hstep : uintLoop (left + 1) value (ofNat shift) reader = (byte reader).bind fun out =>
          if out.1 &&& 0x80 = 0 then
            .ok (value ||| ((out.1 &&& 0x7f).toUInt64 <<< ofNat shift), out.2)
          else uintLoop left (value ||| ((out.1 &&& 0x7f).toUInt64 <<< ofNat shift))
            (ofNat shift + 7) out.2 := by
      simp only [uintLoop, bind, StateT.bind]
      congr 1
      funext out
      split <;> rfl
    cases rest with
    | nil =>
      rw [hstep, byte, if_pos (hat.done_iff.2 rfl)]
      constructor
      · intro h; cases h
      · rintro ⟨ds, rest', hdigs, -⟩; cases hdigs
    | cons b rest =>
      rw [hstep, byte_cons hat]
      simp only [Except.bind, byte_and_eighty, digits]
      have hor := @toNat_or_shiftLeft value b shift (by omega) (hval (Nat.succ_ne_zero _))
      have hval' : value ||| ((b &&& 0x7f).toUInt64 <<< ofNat shift) =
          UInt64.ofNat (value.toNat + b.toNat % 128 * 2 ^ shift) := by
        rw [← UInt64.toNat_inj, hor, UInt64.toNat_ofNat']
      split
      · have hnum : number [b] = b.toNat % 128 := by
          simp only [number]; omega
        rw [hval']
        constructor
        · intro h; cases h; exact ⟨[b], rest, rfl, by simp, by rw [hnum]; rfl⟩
        · rintro ⟨ds, rest', hdigs, -, rfl⟩
          cases hdigs; rw [hnum]; rfl
      · have hnext : ofNat shift + 7 = ofNat (shift + 7) := by
          rw [ofNat_add]; rfl
        have hsmall : left ≠ 0 →
            (value ||| ((b &&& 0x7f).toUInt64 <<< ofNat shift)).toNat < 2 ^ (shift + 7) := by
          intro _
          have hlt := hval (Nat.succ_ne_zero _)
          have hlow : b.toNat % 128 * 2 ^ shift ≤ 127 * 2 ^ shift :=
            Nat.mul_le_mul_right _ (by omega)
          rw [hor, Nat.pow_add]; exact Nat.lt_of_le_of_lt (Nat.mod_le _ _) (by omega)
        have hat' : (reader.after 1).At (bef ++ [b]) rest := @Reader.At.after _ _ _ [b] hat
        have hsum : ∀ ds, ofNat ((value ||| ((b &&& 0x7f).toUInt64 <<< ofNat shift)).toNat +
              number ds * 2 ^ (shift + 7)) =
            ofNat (value.toNat + number (b :: ds) * 2 ^ shift) := by
          intro ds
          have hmul : number (b :: ds) * 2 ^ shift =
              b.toNat % 128 * 2 ^ shift + number ds * 2 ^ (shift + 7) := by
            simp only [number, Nat.pow_add]
            ring
          rw [← UInt64.toNat_inj, hor, UInt64.toNat_ofNat', UInt64.toNat_ofNat', Nat.mod_add_mod,
            hmul, Nat.add_assoc]
        rw [hnext, ih (by omega) hsmall hat']
        constructor
        · rintro ⟨ds, rest', hdigs, hlen, rfl⟩
          refine ⟨b :: ds, rest', by rw [hdigs]; rfl, Nat.succ_le_succ hlen, ?_⟩
          rw [hsum, Reader.after_after, length_cons, Nat.add_comm 1]
        · rintro ⟨ds, rest', hdigs, hlen, rfl⟩
          obtain ⟨⟨ds', rest''⟩, hdigs', heq⟩ := Option.map_eq_some_iff.1 hdigs
          cases heq
          refine ⟨ds', rest'', hdigs', Nat.le_of_succ_le_succ hlen, ?_⟩
          rw [hsum, Reader.after_after, length_cons, Nat.add_comm 1]

theorem uint_eq_ok (h : reader.At before rest) {out : UInt64 × Reader} :
    uint reader = .ok out ↔ ∃ ds rest', digits rest = some (ds, rest') ∧ ds.length ≤ 10 ∧
      out = (ofNat (number ds), reader.after ds.length) := by
  have hloop := @uintLoop_eq_ok 10 0 0 reader before rest out rfl (fun _ => by decide) h
  simp only [UInt64.toNat_zero, Nat.zero_add, Nat.pow_zero, Nat.mul_one] at hloop; exact hloop

theorem raw_eq_ok (h : reader.At before rest) {length : Int}
    (hfits : before.length + length < 2147483648) {out : List UInt8 × Reader} :
    raw length reader = .ok out ↔ ∃ rest', rest = out.1 ++ rest' ∧ length = out.1.length ∧
      out.2 = reader.after out.1.length := by
  obtain ⟨value, after⟩ := out
  have hinput := congrArg List.length h.input
  have hmax := h.length_le
  have hoff := h.offset
  rw [length_append] at hinput
  unfold raw blockMaxSize at *
  by_cases hnegative : length < 0
  · rw [if_pos (.inl hnegative)]
    constructor
    · intro heq; cases heq
    · rintro ⟨rest', -, hlen, -⟩; omega
  · rw [hoff, i32_of_lt (by omega) hfits]
    by_cases hends : (reader.input.bytes.length : Int) < before.length + length
    · rw [if_pos (.inr hends)]
      constructor
      · intro heq; cases heq
      · rintro ⟨rest', hrest, hlen, -⟩
        have := congrArg List.length hrest; simp only [List.length_append] at this hlen; omega
    · -- The bytes that `slice` takes are the first `length` of the rest.
      have hrest : rest = rest.take length.toNat ++ rest.drop length.toNat :=
        (take_append_drop _ _).symm
      have htake : ((rest.take length.toNat).length : Int) = length := by
        rw [length_take]; omega
      have hslice := slice_of_at (hrest ▸ h)
      rw [htake, hoff] at hslice
      rw [if_neg (by omega), hslice]
      constructor
      · intro heq
        cases heq
        refine ⟨rest.drop length.toNat, hrest, htake.symm, ?_⟩
        simp only [Reader.after, htake, hoff]
      · rintro ⟨rest', hrest', hlen, hafter⟩
        simp only at hrest' hlen hafter
        have hval : rest.take length.toNat = value := by
          rw [hrest', hlen, Int.toNat_natCast, take_left]
        rw [hval, hafter, Reader.after, hoff, hlen]

end Reading

end Positions

end Leani.Wasm.AssemblyScript
