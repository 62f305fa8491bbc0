import Mathlib.Algebra.Ring.Nat
import Mathlib.Tactic.Common

/-!
# Text of a guest

A string of an AssemblyScript guest is UTF-16; the bytes it writes and reads are UTF-8. Bytes that
are not UTF-8 read as replacement characters.
-/

namespace Leani.Wasm

open List

def unitsOf (point : Nat) : List UInt16 :=
  if 0x10000 ≤ point then
    [UInt16.ofNat (0xd800 + (point - 0x10000) / 1024),
      UInt16.ofNat (0xdc00 + (point - 0x10000) % 1024)]
  else [UInt16.ofNat point]

def utf16 (chars : List Char) : List UInt16 :=
  chars.flatMap fun char => unitsOf char.toNat

def bytesOf (point : Nat) : List UInt8 :=
  if point < 128 then [UInt8.ofNat point]
  else if point < 2048 then
    [UInt8.ofNat (192 + point / 64), UInt8.ofNat (128 + point % 64)]
  else if point < 0x10000 then
    [UInt8.ofNat (224 + point / 4096), UInt8.ofNat (128 + point / 64 % 64),
      UInt8.ofNat (128 + point % 64)]
  else
    [UInt8.ofNat (240 + point / 262144), UInt8.ofNat (128 + point / 4096 % 64),
      UInt8.ofNat (128 + point / 64 % 64), UInt8.ofNat (128 + point % 64)]

/-- `String.UTF8.encode`. A lone surrogate is written as any other unit. -/
def utf8 : List UInt16 → List UInt8
  | [] => []
  | unit :: rest =>
    if unit.toNat / 1024 = 54 then
      match rest with
      | trail :: rest' =>
        if trail.toNat / 1024 = 55 then
          bytesOf (0x10000 + unit.toNat % 1024 * 1024 + trail.toNat % 1024) ++ utf8 rest'
        else bytesOf unit.toNat ++ utf8 (trail :: rest')
      | [] => bytesOf unit.toNat
    else bytesOf unit.toNat ++ utf8 rest

def sequence (lead : Nat) : Option (Nat × Nat × Nat) :=
  if 0xc2 ≤ lead ∧ lead ≤ 0xdf then some (2, 0x80, 0xbf)
  else if 0xe0 ≤ lead ∧ lead ≤ 0xef then
    some (3, if lead = 0xe0 then 0xa0 else 0x80, if lead = 0xed then 0x9f else 0xbf)
  else if 0xf0 ≤ lead ∧ lead ≤ 0xf4 then
    some (4, if lead = 0xf0 then 0x90 else 0x80, if lead = 0xf4 then 0x8f else 0xbf)
  else none

/-- Continue a code point with up to `missing` bytes: how many are still missing, the code point and
the bytes that follow. -/
def continuation : Nat → Nat → Nat → Nat → List UInt8 → Nat × Nat × List UInt8
  | 0, _, _, point, rest => (0, point, rest)
  | missing + 1, _, _, point, [] => (missing + 1, point, [])
  | missing + 1, low, high, point, next :: rest =>
    if next.toNat < low ∨ high < next.toNat then (missing + 1, point, next :: rest)
    else continuation missing 0x80 0xbf (point * 64 + next.toNat % 64) rest

theorem length_continuation : ∀ {missing low high point : Nat} {rest : List UInt8},
    (continuation missing low high point rest).2.2.length ≤ rest.length := by
  intro missing
  induction missing with
  | zero =>
    intro low high point rest; exact le_rfl
  | succ missing ih =>
    intro low high point rest
    cases rest with
    | nil => exact le_rfl
    | cons next rest =>
      simp only [continuation]
      split
      · exact le_rfl
      · have := @ih 0x80 0xbf (point * 64 + next.toNat % 64) rest; simp only [length_cons]; omega

/-- `text`. Each ill-formed sequence reads as one replacement character. -/
def text : List UInt8 → List UInt16
  | [] => []
  | lead :: rest =>
    if lead.toNat < 0x80 then UInt16.ofNat lead.toNat :: text rest
    else
      match sequence lead.toNat with
      | none => 0xfffd :: text rest
      | some (length, low, high) =>
        let out := continuation (length - 1) low high (lead.toNat % 2 ^ (7 - length)) rest
        (if out.1 = 0 then unitsOf out.2.1 else [0xfffd]) ++ text out.2.2
termination_by bytes => bytes.length
decreasing_by
  · exact Nat.lt_succ_self _
  · exact Nat.lt_succ_self _
  · exact Nat.lt_succ_of_le length_continuation

variable {n : Nat}

theorem toNat_ofNat8 (h : n < 256) : (UInt8.ofNat n).toNat = n := by
  rw [UInt8.toNat_ofNat']; omega

theorem toNat_ofNat16 (h : n < 65536) : (UInt16.ofNat n).toNat = n := by
  rw [UInt16.toNat_ofNat']; omega

def IsScalar (point : Nat) : Prop := point < 0xd800 ∨ 0xdfff < point ∧ point < 0x110000

theorem isScalar_toNat (char : Char) : IsScalar char.toNat := char.valid

theorem utf8_unitsOf {point : Nat} (h : IsScalar point) (rest : List UInt16) :
    utf8 (unitsOf point ++ rest) = bytesOf point ++ utf8 rest := by
  unfold IsScalar at h
  by_cases hlarge : 0x10000 ≤ point
  · have hpoint : 0x10000 + (0xd800 + (point - 0x10000) / 1024) % 1024 * 1024 +
        (0xdc00 + (point - 0x10000) % 1024) % 1024 = point := by omega
    rw [unitsOf, if_pos hlarge, cons_append, singleton_append, utf8, toNat_ofNat16 (by omega),
      toNat_ofNat16 (by omega), if_pos (by omega), if_pos (by omega), hpoint]
  · rw [unitsOf, if_neg hlarge, singleton_append, utf8.eq_def]
    simp only; rw [toNat_ofNat16 (by omega), if_neg (by omega)]

theorem text_ascii {byte : UInt8} (h : byte.toNat < 0x80) (rest : List UInt8) :
    text (byte :: rest) = UInt16.ofNat byte.toNat :: text rest := by
  rw [text, if_pos h]

theorem text_sequence {lead : UInt8} {rest : List UInt8} {length low high : Nat}
    (hlead : ¬ lead.toNat < 0x80) (h : sequence lead.toNat = some (length, low, high)) :
    text (lead :: rest) =
      (if (continuation (length - 1) low high (lead.toNat % 2 ^ (7 - length)) rest).1 = 0 then
        unitsOf (continuation (length - 1) low high (lead.toNat % 2 ^ (7 - length)) rest).2.1
      else [0xfffd]) ++
        text (continuation (length - 1) low high (lead.toNat % 2 ^ (7 - length)) rest).2.2 := by
  rw [text, if_neg hlead, h]

theorem continuation_cons {missing low high point : Nat} (hlow : low ≤ n) (hhigh : n ≤ high)
    (h : n < 256) (rest : List UInt8) :
    continuation (missing + 1) low high point (UInt8.ofNat n :: rest) =
      continuation missing 0x80 0xbf (point * 64 + n % 64) rest := by
  rw [continuation, toNat_ofNat8 h, if_neg (by omega)]

theorem text_bytesOf {point : Nat} (h : IsScalar point) (rest : List UInt8) :
    text (bytesOf point ++ rest) = unitsOf point ++ text rest := by
  unfold IsScalar at h
  unfold bytesOf
  split
  · rename_i hascii
    have hbyte : (UInt8.ofNat point).toNat = point := toNat_ofNat8 (by omega)
    rw [singleton_append, text_ascii (by omega), hbyte, unitsOf, if_neg (by omega)]; rfl
  · split
    · have hlead : (UInt8.ofNat (192 + point / 64)).toNat = 192 + point / 64 :=
        toNat_ofNat8 (by omega)
      have hseq : sequence (UInt8.ofNat (192 + point / 64)).toNat = some (2, 0x80, 0xbf) := by
        rw [hlead, sequence, if_pos (by omega)]
      rw [cons_append, text_sequence (by omega) hseq, singleton_append,
        continuation_cons (by omega) (by omega) (by omega), hlead]
      simp only [continuation, if_true]
      congr 2
      omega
    · split
      · have hlead : (UInt8.ofNat (224 + point / 4096)).toNat = 224 + point / 4096 :=
          toNat_ofNat8 (by omega)
        have hseq : sequence (UInt8.ofNat (224 + point / 4096)).toNat =
            some (3, if 224 + point / 4096 = 0xe0 then 0xa0 else 0x80,
              if 224 + point / 4096 = 0xed then 0x9f else 0xbf) := by
          rw [hlead, sequence, if_neg (by omega), if_pos (by omega)]
        -- The range of the second byte leaves out overlong forms and surrogates.
        rw [cons_append, text_sequence (by omega) hseq, cons_append,
          singleton_append, continuation_cons (by split <;> omega) (by split <;> omega)
            (by omega), continuation_cons (by omega) (by omega) (by omega), hlead]
        simp only [continuation, if_true]
        congr 2
        omega
      · have hlead : (UInt8.ofNat (240 + point / 262144)).toNat = 240 + point / 262144 :=
          toNat_ofNat8 (by omega)
        have hseq : sequence (UInt8.ofNat (240 + point / 262144)).toNat =
            some (4, if 240 + point / 262144 = 0xf0 then 0x90 else 0x80,
              if 240 + point / 262144 = 0xf4 then 0x8f else 0xbf) := by
          rw [hlead, sequence, if_neg (by omega), if_neg (by omega), if_pos (by omega)]
        rw [cons_append, text_sequence (by omega) hseq, cons_append, cons_append, singleton_append,
          continuation_cons (by split <;> omega) (by split <;> omega) (by omega),
          continuation_cons (by omega) (by omega) (by omega),
          continuation_cons (by omega) (by omega) (by omega), hlead]
        simp only [continuation, if_true]
        congr 2
        omega

theorem utf8_utf16 (chars : List Char) :
    utf8 (utf16 chars) = chars.flatMap fun char => bytesOf char.toNat := by
  induction chars with
  | nil => rfl
  | cons char rest ih =>
    rw [utf16, flatMap_cons, utf8_unitsOf (isScalar_toNat char), flatMap_cons]; exact congrArg _ ih

theorem text_utf8 (chars : List Char) : text (utf8 (utf16 chars)) = utf16 chars := by
  rw [utf8_utf16]
  induction chars with
  | nil => rw [flatMap_nil, text, utf16, flatMap_nil]
  | cons char rest ih =>
    rw [flatMap_cons, text_bytesOf (isScalar_toNat char), ih, utf16, utf16, flatMap_cons]

end Leani.Wasm
