import Mathlib.Data.Countable.Basic
import Mathlib.Logic.Equiv.List

/-!
# Codecs

An encoding of values as bytes, with the decoder that reads them back.
-/

namespace Library

open List

structure Codec (α : Type) where
  encode : α → List UInt8
  decode : List UInt8 → Except String α
  decode_encode : ∀ a, decode (encode a) = .ok a

namespace Codec

variable {α : Type}

theorem encode_injective (codec : Codec α) : Function.Injective codec.encode := by
  intro a b h
  have hdec := codec.decode_encode a
  rw [h, codec.decode_encode b] at hdec; exact (Except.ok.inj hdec).symm

theorem nonempty_of_countable [Countable α] : Nonempty (Codec α) := by
  classical
  obtain ⟨num, hnum⟩ := Countable.exists_injective_nat α
  have hencode : Function.Injective fun a => replicate (num a) (0 : UInt8) := by
    intro a b h; exact hnum (by simpa using congrArg length h)
  refine ⟨⟨fun a => replicate (num a) 0, fun bytes =>
    if h : ∃ a, replicate (num a) 0 = bytes then .ok h.choose else .error "no value",
    fun a => ?_⟩⟩
  have hex : ∃ b, replicate (num b) (0 : UInt8) = replicate (num a) 0 := ⟨a, rfl⟩
  simp only [dif_pos hex]; exact congrArg Except.ok (hencode hex.choose_spec)

end Codec

end Library
