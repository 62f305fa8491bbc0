import Leani.Library.BigEndian
import Leani.Library.Fallible
import Leani.Library.Radix
import Leani.Wasm.Text
import Mathlib.Data.FinEnum

/-!
# 256-bit amounts

The amounts of a Rust and of an AssemblyScript guest, 32 big-endian bytes. Both compute the exact
sums, differences, comparisons and decimal texts. The totals of a loop stay far below the largest
value of the machine integer that holds them.
-/

namespace Leani.Wasm

open Library Library.BigEndian List Option Radix UInt8

structure U256 where
  bytes : List UInt8
  size : bytes.length = 32

namespace U256

def toNat (a : U256) : Nat := number a.bytes

def zero : U256 := ⟨List.replicate 32 0, List.length_replicate⟩

/-- The bytes of totals with carries, and the last carry. -/
def carry : List Nat → Nat → List UInt8 × Nat
  | [], first => ([], first)
  | term :: terms, first =>
    let out := carry terms first
    let total := term + out.2
    (UInt8.ofNat total :: out.1, total / 256)

def borrow : List (UInt8 × UInt8) → List UInt8 × Int
  | [] => ([], 0)
  | (a, b) :: pairs =>
    let out := borrow pairs
    let value : Int := a.toNat - b.toNat - out.2
    (UInt8.ofNat (if value < 0 then value + 256 else value).toNat :: out.1, if value < 0 then 1 else 0)

def compareBytes : List UInt8 → List UInt8 → Ordering
  | a :: as, b :: bs => if a ≠ b then if a < b then .lt else .gt else compareBytes as bs
  | _, _ => .eq

@[simp] theorem length_carry (terms : List Nat) (first : Nat) :
    (carry terms first).1.length = terms.length := by
  induction terms with
  | nil => rfl
  | cons term terms ih => exact congrArg (· + 1) ih

@[simp] theorem length_borrow (pairs : List (UInt8 × UInt8)) :
    (borrow pairs).1.length = pairs.length := by
  induction pairs with
  | nil => rfl
  | cons pair pairs ih => exact congrArg (· + 1) ih

def ofCarry (terms : List Nat) (first : Nat) (h : terms.length = 32) : Option U256 :=
  if (carry terms first).2 = 0 then some ⟨(carry terms first).1, (length_carry terms first).trans h⟩
  else none

/-- The first limbs of the bytes, each of some bytes. -/
def limbs (width : Nat) : Nat → List UInt8 → List (Fin (256 ^ width))
  | 0, _ => []
  | count + 1, bytes =>
    ⟨number (bytes.take width), (number_lt _).trans_le
      (Nat.pow_le_pow_right (by decide) (List.length_take_le width bytes))⟩ ::
        limbs width count (bytes.drop width)

variable (a b : U256)

def sum : Option U256 :=
  ofCarry (List.zipWith (fun x y => x.toNat + y.toNat) a.bytes b.bytes) 0 (by simp [a.size, b.size])

def scaled (factor addend : Nat) : Option U256 :=
  ofCarry (a.bytes.map fun byte => byte.toNat * factor) addend (by simp [a.size])

def difference : Option U256 :=
  if compareBytes a.bytes b.bytes = .lt then none
  else some ⟨(borrow (a.bytes.zip b.bytes)).1, by simp [a.size, b.size]⟩

inductive ParseError where
  | notDecimal | tooLarge

namespace Rust

def checkedAdd : Option U256 := sum a b

def cmp : Ordering := compareBytes a.bytes b.bytes

def checkedSub : Option U256 := difference a b

def shiftInDigit (digit : Nat) : Option U256 := scaled a 10 digit

def digit (d : Nat) : UInt8 := UInt8.ofNat (48 + d)

/-- `{chunk:019}`. -/
def padChunk (chunk : Nat) : List Nat :=
  List.replicate (19 - (Radix.decimal chunk).length) 0 ++ Radix.decimal chunk

/-- `Display`, from limbs of 64 bits in chunks of 19 digits. -/
def display : List UInt8 :=
  (Radix.chunkText padChunk
    ((Radix.chunks (by decide : 1 < 10 ^ 19) (limbs 8 4 a.bytes)).map Fin.val)).map digit

def fromStr (text : List UInt8) : Except ParseError U256 :=
  if text = [] ∨ ¬ ∀ byte ∈ text, 48 ≤ byte.toNat ∧ byte.toNat ≤ 57 then .error .notDecimal
  else
    text.foldlM (fun value byte => required (shiftInDigit value (byte.toNat - 48)) .tooLarge) zero

end Rust

namespace AssemblyScript

def checkedAdd : Option U256 := sum a b

def compare : Ordering := compareBytes a.bytes b.bytes

def checkedSub : Option U256 := difference a b

def mulAdd (factor addend : Nat) : Option U256 := scaled a factor addend

def digit (d : Nat) : UInt16 := UInt16.ofNat (48 + d)

/-- `toString`, from limbs of 32 bits in chunks of nine digits: `none` where 81 places are too few. -/
def toString : Option (List UInt16) :=
  let text := (Radix.chunkText (Radix.padded 9)
    ((Radix.chunks (by decide : 1 < 10 ^ 9) (limbs 4 8 a.bytes)).map Fin.val)).map digit
  if text.length ≤ 81 then some text else none

def parseDigit (value : U256) (unit : UInt16) : Except ParseError U256 :=
  if unit.toNat < 48 ∨ 57 < unit.toNat then .error .notDecimal
  else required (mulAdd value 10 (unit.toNat - 48)) .tooLarge

def parse (text : List UInt16) : Except ParseError U256 :=
  if text = [] then .error .notDecimal else text.foldlM parseDigit zero

end AssemblyScript

variable {a b}

theorem toNat_lt (a : U256) : a.toNat < 2 ^ 256 := by
  have := number_lt a.bytes; rwa [a.size] at this

theorem toNat_injective (h : a.toNat = b.toNat) : a = b := by
  obtain ⟨_, size⟩ := a
  obtain ⟨_, size'⟩ := b
  obtain rfl := number_injective (size.trans size'.symm) h; rfl

theorem exists_toNat {n : Nat} (h : n < 2 ^ 256) : ∃ a : U256, a.toNat = n :=
  ⟨⟨BigEndian.bytes 32 n, length_bytes 32 n⟩, @number_bytes 32 n h⟩

theorem number_carry (terms : List Nat) (first : Nat) :
    number (carry terms first).1 + (carry terms first).2 * 256 ^ terms.length =
      value 256 terms + first := by
  induction terms with
  | nil => simp [carry, number]
  | cons term terms ih =>
    have htotal := Nat.mod_add_div (term + (carry terms first).2) 256
    rw [carry]
    rw [number, value_cons, toNat_ofNat', length_carry, length_cons, pow_succ]
    calc (term + (carry terms first).2) % 256 * 256 ^ terms.length + number (carry terms first).1 +
            (term + (carry terms first).2) / 256 * (256 ^ terms.length * 256)
      _ = ((term + (carry terms first).2) % 256 + 256 * ((term + (carry terms first).2) / 256)) *
            256 ^ terms.length + number (carry terms first).1 := by ring
      _ = term * 256 ^ terms.length +
            (number (carry terms first).1 + (carry terms first).2 * 256 ^ terms.length) := by
          rw [htotal]
          ring
      _ = _ := by rw [ih, Nat.add_assoc]

/-- The value of the terms where it fits, and nothing where it does not. -/
theorem ofCarry_eq_some {terms : List Nat} {first : Nat} (h : terms.length = 32) (v : U256) :
    ofCarry terms first h = some v ↔ v.toNat = value 256 terms + first := by
  have hnum := number_carry terms first
  rw [h] at hnum
  rw [ofCarry]
  split
  · rename_i hzero
    rw [hzero, Nat.zero_mul, Nat.add_zero] at hnum
    rw [some.injEq, ← hnum]; exact ⟨fun h => h ▸ rfl, fun h => toNat_injective h.symm⟩
  · rename_i hcarry
    refine iff_of_false nofun fun hv => absurd v.toNat_lt (Nat.not_lt.2 ?_)
    rw [hv, ← hnum]
    exact (Nat.le_mul_of_pos_left _ (Nat.pos_of_ne_zero hcarry)).trans (Nat.le_add_left _ _)

theorem value_zipWith : ∀ {as bs : List UInt8}, as.length = bs.length →
    value 256 (zipWith (fun x y => x.toNat + y.toNat) as bs) = number as + number bs
  | [], [], _ => rfl
  | a :: as, b :: bs, h => by
    have hlen : as.length = bs.length := Nat.succ.inj h
    rw [zipWith_cons_cons, value_cons, value_zipWith hlen, length_zipWith, hlen,
      Nat.min_self, number, number, hlen]
    ring

theorem value_map (factor : Nat) (bytes : List UInt8) :
    value 256 (bytes.map fun byte => byte.toNat * factor) = number bytes * factor := by
  induction bytes with
  | nil => simp [number]
  | cons byte bytes ih =>
    rw [map_cons, value_cons, ih, length_map, number]
    ring

theorem sum_eq_some (v : U256) : sum a b = some v ↔ v.toNat = a.toNat + b.toNat := by
  rw [sum, ofCarry_eq_some, value_zipWith (a.size.trans b.size.symm)]; rfl

theorem sum_eq_none : sum a b = none ↔ 2 ^ 256 ≤ a.toNat + b.toNat := by
  rw [eq_none_iff_forall_ne_some]
  refine ⟨fun h => Nat.not_lt.1 fun hlt => ?_, fun h v hv => ?_⟩
  · obtain ⟨v, hv⟩ := exists_toNat hlt; exact h v ((sum_eq_some v).2 hv)
  · exact absurd v.toNat_lt (Nat.not_lt.2 ((sum_eq_some v).1 hv ▸ h))

theorem scaled_eq_some (factor addend : Nat) (v : U256) :
    scaled a factor addend = some v ↔ v.toNat = a.toNat * factor + addend := by
  rw [scaled, ofCarry_eq_some, value_map]; rfl

theorem number_borrow : ∀ {as bs : List UInt8}, as.length = bs.length →
    (number (borrow (as.zip bs)).1 : Int) + number bs =
        number as + (borrow (as.zip bs)).2 * 256 ^ as.length ∧
      ((borrow (as.zip bs)).2 = 0 ∨ (borrow (as.zip bs)).2 = 1)
  | [], [], _ => ⟨rfl, .inl rfl⟩
  | a :: as, b :: bs, h => by
    have hlen : as.length = bs.length := Nat.succ.inj h
    obtain ⟨hrest, _⟩ := number_borrow hlen
    have ha := a.toNat_lt
    have hb := b.toNat_lt
    rw [zip_cons_cons, borrow]
    generalize hvalue : (a.toNat : Int) - b.toNat - (borrow (as.zip bs)).2 = value
    have hbyte : ((ofNat (if value < 0 then value + 256 else value).toNat).toNat : Int) =
        value + (if value < 0 then 1 else 0) * 256 := by
      rw [toNat_ofNat']
      split <;> omega
    refine ⟨?_, by split <;> simp⟩
    rw [number, number, number, length_borrow, length_zip, ← hlen, Nat.min_self,
      length_cons, pow_succ]
    push_cast
    rw [hbyte, ← hvalue]
    generalize (if (a.toNat : Int) - b.toNat - (borrow (as.zip bs)).2 < 0 then 1 else 0 : Int) = bit
    calc _ = (a.toNat - (borrow (as.zip bs)).2 + bit * 256 : Int) * 256 ^ as.length +
          (number (borrow (as.zip bs)).1 + number bs) := by ring
      _ = _ := by
        rw [hrest]
        ring

theorem compareBytes_eq : ∀ {as bs : List UInt8}, as.length = bs.length →
    compareBytes as bs = Ord.compare (number as) (number bs)
  | [], [], _ => rfl
  | a :: as, b :: bs, h => by
    have hlen : as.length = bs.length := Nat.succ.inj h
    have has := number_lt as
    have hbs := number_lt bs
    rw [compareBytes, number, number, hlen]
    rw [hlen] at has
    -- A larger first byte is worth more than all the later ones.
    have hless : ∀ {x y : UInt8} {m n : Nat}, x.toNat < y.toNat → m < 256 ^ bs.length →
        x.toNat * 256 ^ bs.length + m < y.toNat * 256 ^ bs.length + n := by
      intro x y m n hxy _
      have := Nat.mul_le_mul_right (256 ^ bs.length) (Nat.succ_le_of_lt hxy)
      rw [Nat.succ_mul] at this; omega
    by_cases hne : a = b
    · rw [if_neg (not_not.2 hne), compareBytes_eq hlen, hne]
      simp only [Nat.compare_eq_ite_lt, Nat.add_lt_add_iff_left]
    · rw [if_pos hne]
      split
      · rename_i hlt; exact (Nat.compare_eq_lt.2 (hless (lt_iff_toNat_lt.1 hlt) has)).symm
      · rename_i hge
        have hlt : b.toNat < a.toNat := by
          rw [UInt8.lt_iff_toNat_lt] at hge
          have := mt UInt8.toNat_inj.1 hne; omega
        exact (Nat.compare_eq_gt.2 (hless hlt hbs)).symm

theorem compareBytes_lt : compareBytes a.bytes b.bytes = .lt ↔ a.toNat < b.toNat := by
  rw [compareBytes_eq (a.size.trans b.size.symm)]; exact Nat.compare_eq_lt

theorem difference_eq_some (v : U256) : difference a b = some v ↔ v.toNat + b.toNat = a.toNat := by
  obtain ⟨hval, hbit⟩ := number_borrow (a.size.trans b.size.symm)
  rw [difference]
  split
  · rename_i hlt
    have := compareBytes_lt.1 hlt; exact iff_of_false nofun (by omega)
  · rename_i hge
    rw [compareBytes_lt] at hge
    have hsize : (borrow (a.bytes.zip b.bytes)).1.length = 32 := by simp [a.size, b.size]
    have hlt := toNat_lt ⟨_, hsize⟩
    have hexact : toNat ⟨_, hsize⟩ + b.toNat = a.toNat := by
      rw [a.size] at hval
      simp only [toNat] at hge hlt ⊢
      rcases hbit with hbit | hbit
      · rw [hbit] at hval; omega
      · rw [hbit] at hval; omega
    rw [some.injEq, ← hexact, Nat.add_right_cancel_iff]
    exact ⟨fun h => h ▸ rfl, fun h => toNat_injective h.symm⟩

theorem difference_eq_none : difference a b = none ↔ a.toNat < b.toNat := by
  rw [difference, ← compareBytes_lt]
  split <;> simp_all

theorem length_limbs (width : Nat) : ∀ {count : Nat} {bytes : List UInt8},
    (limbs width count bytes).length = count
  | 0, _ => rfl
  | _ + 1, _ => congrArg (· + 1) (length_limbs width)

theorem value_limbs (width : Nat) : ∀ {count : Nat} {bytes : List UInt8}, bytes.length =
    count * width → value (256 ^ width) ((limbs width count bytes).map Fin.val) = number bytes
  | 0, bytes, h => by
    rw [Nat.zero_mul] at h
    rw [length_eq_zero_iff.1 h]
    rfl
  | count + 1, bytes, h => by
    rw [Nat.succ_mul] at h
    have hrest : (bytes.drop width).length = count * width := by
      rw [length_drop]; omega
    have hsplit := number_append (bytes.take width) (bytes.drop width)
    rw [take_append_drop, hrest, Nat.mul_comm, Nat.mul_comm count, pow_mul] at hsplit
    rw [limbs, map_cons, value_cons, value_limbs width hrest, length_map, length_limbs,
      hsplit, Nat.mul_comm]

theorem display_eq : Rust.display a = (decimal a.toNat).map Rust.digit := by
  have hpad : ∀ chunk < 10 ^ 19, Rust.padChunk chunk = padded 19 chunk := fun chunk h =>
    (padded_eq (by decide) h).symm
  have hval : value (256 ^ 8) ((limbs 8 4 a.bytes).map Fin.val) = a.toNat :=
    value_limbs 8 a.size
  rw [Rust.display, chunkText_chunks _ hpad, hval]

theorem toString_eq :
    AssemblyScript.toString a = some ((decimal a.toNat).map AssemblyScript.digit) := by
  have hlen : (decimal a.toNat).length ≤ 78 :=
    length_decimal_le (by decide) (a.toNat_lt.trans (by decide))
  have hval : value (256 ^ 4) ((limbs 4 8 a.bytes).map Fin.val) = a.toNat :=
    value_limbs 4 a.size
  rw [AssemblyScript.toString, chunkText_chunks _ fun _ _ => rfl, hval, if_pos]
  rw [length_map]; omega

section Texts

variable {unit ε : Type} {digit : Nat → unit} {code : unit → Nat} {text : List unit}

/-- Digits only, at least one, and the number they denote. -/
def Denotes (digit : Nat → unit) (text : List unit) (n : Nat) : Prop :=
  ∃ digits ≠ [], (∀ d ∈ digits, d < 10) ∧ text = digits.map digit ∧ Radix.value 10 digits = n

theorem denotes_iff (hcode : ∀ d < 10, code (digit d) = 48 + d) (hinj : Function.Injective code)
    {n : Nat} : Denotes digit text n ↔ text ≠ [] ∧ (∀ u ∈ text, 48 ≤ code u ∧ code u ≤ 57) ∧
      value 10 (text.map fun u => code u - 48) = n := by
  constructor
  · rintro ⟨_, hne, hdigs, rfl, hvalue⟩
    refine ⟨by simpa using hne, fun u hu => ?_, ?_⟩
    · obtain ⟨d, hd, rfl⟩ := mem_map.1 hu
      have := hdigs d hd; rw [hcode d this]; omega
    · rw [List.map_map, List.map_congr_left fun d hd => ?_, List.map_id, hvalue]
      rw [Function.comp_apply, hcode d (hdigs d hd), Nat.add_sub_cancel_left, id]
  · rintro ⟨hne, hdigs, hvalue⟩
    refine ⟨_, by simpa using hne, ?_, ?_, hvalue⟩
    · intro d hd
      obtain ⟨u, hu, rfl⟩ := mem_map.1 hd
      have := hdigs u hu; omega
    · rw [List.map_map, List.map_congr_left fun u hu => ?_, List.map_id]
      have := hdigs u hu
      rw [Function.comp_apply, id]; exact hinj (by rw [hcode _ (by omega)]; omega)

/-- Reading digit after digit succeeds exactly for what fits, whatever the digits before. -/
theorem foldlM_eq_ok {isDigit : unit → Prop} {step : U256 → unit → Except ε U256}
    (hstep : ∀ v u w, step v u = .ok w ↔ isDigit u ∧ w.toNat = v.toNat * 10 + (code u - 48)) :
    ∀ {v : U256}, text.foldlM step v = .ok a ↔ (∀ u ∈ text, isDigit u) ∧
      a.toNat = v.toNat * 10 ^ text.length + value 10 (text.map fun u => code u - 48) := by
  induction text with
  | nil =>
    intro v
    simp only [foldlM_nil, pure, Except.pure, Except.ok.injEq, map_nil, value_nil,
      length_nil, Nat.pow_zero, Nat.mul_one, Nat.add_zero]
    exact ⟨fun h => ⟨nofun, h ▸ rfl⟩, fun h => (toNat_injective h.2).symm⟩
  | cons u text ih =>
    intro v
    have hshift : v.toNat * 10 ^ (text.length + 1) +
        ((code u - 48) * 10 ^ text.length + value 10 (text.map fun u => code u - 48)) =
          (v.toNat * 10 + (code u - 48)) * 10 ^ text.length +
            value 10 (text.map fun u => code u - 48) := by ring
    rw [foldlM_cons, bind_eq_ok, map_cons, value_cons, length_map, length_cons,
      hshift, forall_mem_cons]
    constructor
    · rintro ⟨w, hw, hrest⟩
      obtain ⟨hdigit, hvalue⟩ := (hstep v u w).1 hw
      obtain ⟨hdigs, ha⟩ := ih.1 hrest; exact ⟨⟨hdigit, hdigs⟩, hvalue ▸ ha⟩
    · rintro ⟨⟨hdigit, hdigs⟩, ha⟩
      have hle := Nat.le_mul_of_pos_right (v.toNat * 10 + (code u - 48))
        (Nat.pow_pos (n := text.length) (by decide : 0 < 10))
      obtain ⟨w, hw⟩ := exists_toNat ((hle.trans ((Nat.le_add_right _ _).trans_eq ha.symm)).trans_lt
        a.toNat_lt)
      exact ⟨w, (hstep v u w).2 ⟨hdigit, hw⟩, ih.2 ⟨hdigs, by rw [hw, ha]⟩⟩

end Texts

theorem code_rust : ∀ d < 10, (Rust.digit d).toNat = 48 + d := fun d _ => toNat_ofNat8 (by omega)

theorem code_assemblyScript : ∀ d < 10, (AssemblyScript.digit d).toNat = 48 + d := fun d _ =>
  toNat_ofNat16 (by omega)

theorem toNat_zero : zero.toNat = 0 := number_replicate_zero 32

theorem fromStr_eq_ok {text : List UInt8} :
    Rust.fromStr text = .ok a ↔ Denotes Rust.digit text a.toNat := by
  rw [denotes_iff code_rust fun _ _ => UInt8.toNat_inj.1, Rust.fromStr]
  split
  · rename_i hbad
    refine iff_of_false nofun fun hgood => hbad.elim hgood.1 fun h => h hgood.2.1
  · rename_i hgood
    obtain ⟨hne, hdigs⟩ := not_or.1 hgood
    rw [@foldlM_eq_ok a _ _ UInt8.toNat _ (fun _ => True), toNat_zero, Nat.zero_mul, Nat.zero_add]
    · exact ⟨fun h => ⟨hne, not_not.1 hdigs, h.2.symm⟩, fun h => ⟨fun _ _ => ⟨⟩, h.2.2.symm⟩⟩
    · exact fun _ _ _ => by rw [required_eq_ok, Rust.shiftInDigit, scaled_eq_some, true_and]

theorem parseDigit_eq_ok (v : U256) (u : UInt16) (w : U256) : AssemblyScript.parseDigit v u = .ok w ↔
      (48 ≤ u.toNat ∧ u.toNat ≤ 57) ∧ w.toNat = v.toNat * 10 + (u.toNat - 48) := by
  rw [AssemblyScript.parseDigit]
  split
  · exact iff_of_false nofun fun _ => by omega
  · rw [required_eq_ok, AssemblyScript.mulAdd, scaled_eq_some]
    exact (and_iff_right (by omega)).symm

theorem parse_eq_ok {text : List UInt16} :
    AssemblyScript.parse text = .ok a ↔ Denotes AssemblyScript.digit text a.toNat := by
  rw [denotes_iff code_assemblyScript fun _ _ => UInt16.toNat_inj.1, AssemblyScript.parse]
  split
  · rename_i hempty; exact iff_of_false nofun fun h => h.1 hempty
  · rename_i hne
    rw [foldlM_eq_ok parseDigit_eq_ok, toNat_zero, Nat.zero_mul, Nat.zero_add]
    exact ⟨fun h => ⟨hne, h.1, h.2.symm⟩, fun h => ⟨h.2.1, h.2.2.symm⟩⟩

/-- What the operations of one implementation say of the numbers, texts being lists of units. -/
structure Exact {unit : Type} (digit : Nat → unit) (add sub : U256 → U256 → Option U256)
    (cmp : U256 → U256 → Ordering) (text : U256 → Option (List unit))
    (parse : List unit → Except ParseError U256) : Prop where
  sum : ∀ a b v, add a b = some v ↔ v.toNat = a.toNat + b.toNat
  noSum : ∀ a b, add a b = none ↔ 2 ^ 256 ≤ a.toNat + b.toNat
  difference : ∀ a b v, sub a b = some v ↔ v.toNat + b.toNat = a.toNat
  noDifference : ∀ a b, sub a b = none ↔ a.toNat < b.toNat
  order : ∀ a b, cmp a b = compare a.toNat b.toNat
  /-- No leading zero, and the text reads as the value. -/
  texts : ∀ a, ∃ digits, text a = some (digits.map digit) ∧ (digits.head? = some 0 → digits = [0]) ∧
    Denotes digit (digits.map digit) a.toNat ∧ parse (digits.map digit) = .ok a
  reads : ∀ units a, parse units = .ok a ↔ Denotes digit units a.toNat
  accepts : ∀ units, (∃ a, parse units = .ok a) ↔ ∃ n < 2 ^ 256, Denotes digit units n

theorem Exact.of_texts {unit : Type} {digit : Nat → unit} {text : U256 → Option (List unit)}
    {parse : List unit → Except ParseError U256}
    (htext : ∀ a, text a = some ((decimal a.toNat).map digit))
    (hparse : ∀ units a, parse units = .ok a ↔ Denotes digit units a.toNat) :
    Exact digit U256.sum U256.difference (fun a b => compareBytes a.bytes b.bytes) text parse where
  sum _ _ := sum_eq_some
  noSum _ _ := sum_eq_none
  difference _ _ := difference_eq_some
  noDifference _ _ := difference_eq_none
  order a b := compareBytes_eq (a.size.trans b.size.symm)
  texts a := by
    obtain ⟨hval, hdigs, hhead⟩ := decimal_digits a.toNat
    have hdenotes : Denotes digit ((decimal a.toNat).map digit) a.toNat :=
      ⟨_, decimal_ne_nil _, hdigs, rfl, hval⟩
    exact ⟨_, htext a, hhead, hdenotes, (hparse _ a).2 hdenotes⟩
  reads := hparse
  accepts units := by
    constructor
    · rintro ⟨a, ha⟩; exact ⟨_, a.toNat_lt, (hparse _ a).1 ha⟩
    · rintro ⟨_, hn, hdenotes⟩
      obtain ⟨a, rfl⟩ := exists_toNat hn; exact ⟨a, (hparse _ a).2 hdenotes⟩

theorem unitsOf_digit {d : Nat} (hd : d < 10) : unitsOf (48 + d) = [AssemblyScript.digit d] :=
  if_neg (by omega)

variable {digits : List Nat}

theorem utf8_digits (h : ∀ d ∈ digits, d < 10) :
    utf8 (digits.map AssemblyScript.digit) = digits.map Rust.digit := by
  induction digits with
  | nil => rfl
  | cons d digits ih =>
    obtain ⟨hd, hrest⟩ := forall_mem_cons.1 h
    have hunit := @utf8_unitsOf (48 + d) (.inl (by omega)) (digits.map AssemblyScript.digit)
    rw [unitsOf_digit hd, bytesOf, if_pos (by omega), ih hrest] at hunit
    exact hunit

theorem text_digits (h : ∀ d ∈ digits, d < 10) :
    text (digits.map Rust.digit) = digits.map AssemblyScript.digit := by
  induction digits with
  | nil => rw [map_nil, text, map_nil]
  | cons d digits ih =>
    obtain ⟨hd, hrest⟩ := forall_mem_cons.1 h
    have hcode := code_rust d hd; rw [map_cons, text_ascii (by omega), ih hrest, hcode]; rfl

theorem denotes_utf8_iff (chars : List Char) (n : Nat) :
    Denotes Rust.digit (utf8 (utf16 chars)) n ↔ Denotes AssemblyScript.digit (utf16 chars) n := by
  constructor
  · rintro ⟨digs, hne, hdigs, heq, hvalue⟩
    refine ⟨digs, hne, hdigs, ?_, hvalue⟩
    rw [← text_utf8, heq, text_digits hdigs]
  · rintro ⟨digs, hne, hdigs, heq, hvalue⟩
    refine ⟨digs, hne, hdigs, ?_, hvalue⟩
    rw [heq, utf8_digits hdigs]

/-- Both implementations are exact, and agree on amounts and on the texts of all characters. -/
theorem amounts_exact :
    Exact Rust.digit Rust.checkedAdd Rust.checkedSub Rust.cmp (fun a => some (Rust.display a))
        Rust.fromStr ∧
      Exact AssemblyScript.digit AssemblyScript.checkedAdd AssemblyScript.checkedSub
        AssemblyScript.compare AssemblyScript.toString AssemblyScript.parse ∧
      (∀ a b, Rust.checkedAdd a b = AssemblyScript.checkedAdd a b ∧
        Rust.checkedSub a b = AssemblyScript.checkedSub a b ∧
        Rust.cmp a b = AssemblyScript.compare a b) ∧
      (∀ a, (AssemblyScript.toString a).map utf8 = some (Rust.display a)) ∧
      ∀ (chars : List Char) a, Rust.fromStr (chars.flatMap fun char => bytesOf char.toNat) = .ok a ↔
        AssemblyScript.parse (utf16 chars) = .ok a := by
  refine ⟨.of_texts (fun a => congrArg some display_eq) fun _ _ => fromStr_eq_ok,
    .of_texts (fun _ => toString_eq) fun _ _ => parse_eq_ok, fun _ _ => ⟨rfl, rfl, rfl⟩, fun a => ?_,
    fun chars a => ?_⟩
  · rw [toString_eq, display_eq, map_some, utf8_digits (decimal_digits _).2.1]
  · rw [← utf8_utf16, fromStr_eq_ok, parse_eq_ok, denotes_utf8_iff]

end U256

end Leani.Wasm
