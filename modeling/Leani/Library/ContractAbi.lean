import Leani.Library.BigEndian
import Mathlib.Data.List.Forall2
import Mathlib.Algebra.BigOperators.Group.List.Basic

/-!
# Contract ABI layout

How contract calls and events lay out typed data: static components sit in the head of their tuple
or array, dynamic ones in its tail, at the offset their head names. Words, and the padding of byte
strings, are left open here.
-/

namespace Library.ContractAbi

open List

inductive Shape where
  | word
  | bytes
  | array (element : Shape)
  | fixedArray (element : Shape) (size : Nat)
  | tuple (components : List Shape)

namespace Shape

mutual

def isDynamic : Shape → Bool
  | word => false
  | bytes => true
  | array _ => true
  | fixedArray element _ => element.isDynamic
  | tuple components => anyDynamic components

def anyDynamic : List Shape → Bool
  | [] => false
  | shape :: shapes => shape.isDynamic || anyDynamic shapes

end

mutual

def words : Shape → Nat
  | word => 1
  | bytes => 1
  | array _ => 1
  | fixedArray element size => size * element.words
  | tuple components => sumWords components

def sumWords : List Shape → Nat
  | [] => 0
  | shape :: shapes => shape.words + sumWords shapes

end

def headSize (shape : Shape) : Nat := if shape.isDynamic then 32 else 32 * shape.words

mutual

def Inhabited : Shape → Prop
  | word | bytes => True
  | array element => element.Inhabited
  | fixedArray element size => 0 < size ∧ element.Inhabited
  | tuple components => components ≠ [] ∧ AllInhabited components

def AllInhabited : List Shape → Prop
  | [] => True
  | shape :: shapes => shape.Inhabited ∧ AllInhabited shapes

end

theorem allInhabited_iff {shapes : List Shape} :
    AllInhabited shapes ↔ ∀ shape ∈ shapes, shape.Inhabited := by
  induction shapes with
  | nil => simp [AllInhabited]
  | cons shape shapes ih => rw [AllInhabited, ih, forall_mem_cons]

mutual

theorem words_pos : ∀ {shape : Shape}, shape.Inhabited → 0 < shape.words
  | word, _ => Nat.zero_lt_one
  | bytes, _ => Nat.zero_lt_one
  | array _, _ => Nat.zero_lt_one
  | fixedArray element size, h => by
    rw [words]
    exact Nat.mul_pos h.1 (words_pos h.2)
  | tuple components, h => by
    rw [words]
    exact sumWords_pos h.1 h.2

theorem sumWords_pos : ∀ {shapes : List Shape}, shapes ≠ [] → AllInhabited shapes →
    0 < sumWords shapes
  | [], hne, _ => absurd rfl hne
  | shape :: shapes, _, h => by
    rw [sumWords]
    exact Nat.add_pos_left (words_pos h.1) _

end

theorem le_headSize {shape : Shape} (h : shape.Inhabited) : 32 ≤ shape.headSize := by
  rw [headSize]
  split
  · exact le_rfl
  · have := words_pos h; omega

end Shape

def word (n : Nat) : List UInt8 := BigEndian.bytes 32 n

@[simp] theorem length_word (n : Nat) : (word n).length = 32 := BigEndian.length_bytes 32 n

structure Part where
  dynamic : Bool
  bytes : List UInt8

def Part.headLength (part : Part) : Nat := if part.dynamic then 32 else part.bytes.length

def heads (tail : Nat) : List Part → List UInt8
  | [] => []
  | part :: parts =>
    if part.dynamic then word tail ++ heads (tail + part.bytes.length) parts
    else part.bytes ++ heads tail parts

def tails : List Part → List UInt8
  | [] => []
  | part :: parts => if part.dynamic then part.bytes ++ tails parts else tails parts

def headLength (parts : List Part) : Nat := (parts.map Part.headLength).sum

def assemble (parts : List Part) : List UInt8 := heads (headLength parts) parts ++ tails parts

theorem length_heads (tail : Nat) (parts : List Part) :
    (heads tail parts).length = headLength parts := by
  induction parts generalizing tail with
  | nil => rfl
  | cons part parts ih =>
    rw [heads, headLength, map_cons, sum_cons, Part.headLength]
    split
    · rw [length_append, length_word, ih]; rfl
    · rw [length_append, ih]; rfl

theorem length_assemble (parts : List Part) :
    (assemble parts).length = headLength parts + (tails parts).length := by
  rw [assemble, length_append, length_heads]

def padding (length : Nat) : Nat := (length + 31) / 32 * 32 - length

mutual

def Encodes : Shape → List UInt8 → Prop
  | .word, e => e.length = 32
  | .bytes, e => ∃ content fill : List UInt8, fill.length = padding content.length ∧
    e = word content.length ++ (content ++ fill)
  | .array element, e => ∃ parts : List Part, (∀ part ∈ parts, part.dynamic =
    element.isDynamic ∧ Encodes element part.bytes) ∧ e = word parts.length ++ assemble parts
  | .fixedArray element size, e => ∃ parts : List Part, parts.length = size ∧ (∀ part ∈ parts,
    part.dynamic = element.isDynamic ∧ Encodes element part.bytes) ∧ e = assemble parts
  | .tuple components, e => ∃ parts : List Part, EncodesAll components parts ∧ e = assemble parts

def EncodesAll : List Shape → List Part → Prop
  | [], parts => parts = []
  | shape :: shapes, parts => ∃ part rest, parts = part :: rest ∧
    part.dynamic = shape.isDynamic ∧ Encodes shape part.bytes ∧ EncodesAll shapes rest

end

variable {parts : List Part}

theorem encodesAll_iff {shapes : List Shape} : EncodesAll shapes parts ↔ List.Forall₂
      (fun shape part => part.dynamic = shape.isDynamic ∧ Encodes shape part.bytes) shapes parts := by
  induction shapes generalizing parts with
  | nil => rw [EncodesAll, forall₂_nil_left_iff]
  | cons shape shapes ih =>
    rw [EncodesAll, forall₂_cons_left_iff]
    constructor
    · rintro ⟨part, rest, rfl, hdyn, henc, hrest⟩; exact ⟨part, rest, ⟨hdyn, henc⟩, ih.1 hrest, rfl⟩
    · rintro ⟨part, rest, ⟨hdyn, henc⟩, hrest, rfl⟩; exact ⟨part, rest, rfl, hdyn, henc, ih.2 hrest⟩

theorem forall₂_replicate_iff {element : Shape} {size : Nat} :
    List.Forall₂ (fun shape part => part.dynamic = shape.isDynamic ∧ Encodes shape part.bytes)
    (replicate size element) parts ↔ parts.length =
    size ∧ ∀ part ∈ parts, part.dynamic = element.isDynamic ∧ Encodes element part.bytes := by
  induction size generalizing parts with
  | zero =>
    rw [replicate_zero, forall₂_nil_left_iff, length_eq_zero_iff]
    constructor
    · rintro rfl; exact ⟨rfl, nofun⟩
    · exact And.left
  | succ size ih =>
    rw [replicate_succ, forall₂_cons_left_iff]
    constructor
    · rintro ⟨part, rest, hpart, hrest, rfl⟩
      obtain ⟨hlen, hall⟩ := ih.1 hrest
      exact ⟨congrArg Nat.succ hlen, forall_mem_cons.2 ⟨hpart, hall⟩⟩
    · rintro ⟨hlen, hall⟩
      cases parts with
      | nil => cases hlen
      | cons part rest =>
        obtain ⟨hpart, hrest⟩ := forall_mem_cons.1 hall
        exact ⟨part, rest, hpart, ih.2 ⟨Nat.succ.inj hlen, hrest⟩, rfl⟩

theorem assemble_static (h : ∀ part ∈ parts, part.dynamic = false) :
    assemble parts = parts.flatMap Part.bytes := by
  have hheads : ∀ tail, heads tail parts = parts.flatMap Part.bytes ∧ tails parts = [] := by
    intro tail
    induction parts with
    | nil => exact ⟨rfl, rfl⟩
    | cons part parts ih =>
      obtain ⟨hpart, hparts⟩ := forall_mem_cons.1 h
      obtain ⟨ihheads, ihtails⟩ := ih hparts
      rw [heads, tails, hpart, flatMap_cons, ihheads, ihtails]; exact ⟨rfl, rfl⟩
  rw [assemble, (hheads _).1, (hheads 0).2, append_nil]

mutual

theorem encodes_static : ∀ {shape : Shape} {e : List UInt8}, shape.isDynamic = false →
    (Encodes shape e ↔ e.length = 32 * shape.words)
  | .word, e, _ => by
    rw [Encodes, Shape.words]
  | .bytes, _, h => by cases h
  | .array _, _, h => by cases h
  | .fixedArray element size, e, h => by
    rw [Encodes, Shape.words]
    rw [Shape.isDynamic] at h
    constructor
    · rintro ⟨parts, hlen, hall, rfl⟩
      rw [assemble_static fun part hpart => (hall part hpart).1.trans h]
      have hsizes : ∀ part ∈ parts, part.bytes.length = 32 * element.words := fun part hpart =>
        (encodes_static h).1 (hall part hpart).2
      rw [length_flatMap, map_congr_left hsizes, map_const', sum_replicate_nat, hlen]
      ring
    · intro he
      induction size generalizing e with
      | zero =>
        rw [Nat.zero_mul, Nat.mul_zero, length_eq_zero_iff] at he; exact ⟨[], rfl, nofun, he⟩
      | succ size ih =>
        have hdrop : (e.drop (32 * element.words)).length = 32 * (size * element.words) := by
          have hsucc : (size + 1) * element.words = size * element.words + element.words :=
            Nat.succ_mul _ _
          rw [length_drop, he, hsucc]; omega
        obtain ⟨parts, hlen, hall, hassemble⟩ := ih _ hdrop
        have htake : (e.take (32 * element.words)).length = 32 * element.words := by
          rw [length_take, he, Nat.min_eq_left]
          exact Nat.mul_le_mul_left _ (Nat.le_mul_of_pos_left _ (Nat.succ_pos size))
        have hall' : ∀ part ∈ (⟨element.isDynamic, e.take (32 * element.words)⟩ :: parts : List Part),
            part.dynamic = element.isDynamic ∧ Encodes element part.bytes :=
          forall_mem_cons.2 ⟨⟨rfl, (encodes_static h).2 htake⟩, hall⟩
        refine ⟨_, ?_, hall', ?_⟩
        · rw [length_cons, hlen]
        · rw [assemble_static fun part hpart => (hall' part hpart).1.trans h, flatMap_cons,
            ← assemble_static fun part hpart => (hall part hpart).1.trans h, ← hassemble,
            take_append_drop]
  | .tuple components, e, h => by
    rw [Encodes, Shape.words]
    rw [Shape.isDynamic] at h
    constructor
    · rintro ⟨parts, hall, rfl⟩
      obtain ⟨hstatic, hlen⟩ := encodesAll_static h hall; rw [assemble_static hstatic, hlen]
    · intro he
      obtain ⟨parts, hall, hstatic, hbytes⟩ := exists_encodesAll h he
      refine ⟨parts, hall, ?_⟩
      rw [assemble_static hstatic, hbytes]

theorem encodesAll_static : ∀ {shapes : List Shape} {parts : List Part}, Shape.anyDynamic shapes =
    false → EncodesAll shapes parts → (∀ part ∈ parts, part.dynamic = false) ∧
    (parts.flatMap Part.bytes).length = 32 * Shape.sumWords shapes
  | [], parts, _, hall => by
    rw [EncodesAll] at hall
    rw [hall, Shape.sumWords]
    exact ⟨nofun, rfl⟩
  | shape :: shapes, parts, h, hall => by
    rw [Shape.anyDynamic, Bool.or_eq_false_iff] at h
    rw [EncodesAll] at hall
    obtain ⟨part, _, rfl, hdyn, henc, hrest⟩ := hall
    obtain ⟨hstatic, hlen⟩ := encodesAll_static h.2 hrest
    refine ⟨forall_mem_cons.2 ⟨hdyn.trans h.1, hstatic⟩, ?_⟩
    rw [flatMap_cons, length_append, hlen, (encodes_static h.1).1 henc, Shape.sumWords, Nat.mul_add]

theorem exists_encodesAll : ∀ {shapes : List Shape} {e : List UInt8},
    Shape.anyDynamic shapes = false → e.length = 32 * Shape.sumWords shapes → ∃ parts,
    EncodesAll shapes parts ∧ (∀ part ∈ parts, part.dynamic = false) ∧ parts.flatMap Part.bytes = e
  | [], e, _, he => by
    rw [Shape.sumWords, Nat.mul_zero, length_eq_zero_iff] at he
    refine ⟨[], ?_, nofun, he.symm⟩
    rw [EncodesAll]
  | shape :: shapes, e, h, he => by
    rw [Shape.anyDynamic, Bool.or_eq_false_iff] at h
    rw [Shape.sumWords, Nat.mul_add] at he
    have htake : (e.take (32 * shape.words)).length = 32 * shape.words := by
      rw [length_take]; omega
    have hdrop : (e.drop (32 * shape.words)).length = 32 * Shape.sumWords shapes := by
      rw [length_drop]; omega
    obtain ⟨parts, hall, hstatic, hbytes⟩ := exists_encodesAll h.2 hdrop
    refine ⟨⟨false, e.take (32 * shape.words)⟩ :: parts, ?_, forall_mem_cons.2 ⟨rfl, hstatic⟩, ?_⟩
    · rw [EncodesAll]; exact ⟨_, _, rfl, h.1.symm, (encodes_static h.1).2 htake, hall⟩
    · rw [flatMap_cons, hbytes, take_append_drop]

end

end Library.ContractAbi
