import Mathlib.Data.Nat.Digits.Lemmas

/-!
# Digits in a base

Lists of digits, most significant first, in any base: the number they denote, long division by a
small number, and the decimal digits of a number in chunks.
-/

namespace Library.Radix

open List

def value (base : Nat) (digits : List Nat) : Nat := Nat.ofDigits base digits.reverse

@[simp] theorem value_nil (base : Nat) : value base [] = 0 := rfl

theorem value_cons (base digit : Nat) (digs : List Nat) :
    value base (digit :: digs) = digit * base ^ digs.length + value base digs := by
  rw [value, reverse_cons, Nat.ofDigits_append, Nat.ofDigits_singleton, length_reverse,
    Nat.mul_comm, Nat.add_comm, value]

section Division

variable {base divisor : Nat}

theorem quotient_lt (rem : Fin divisor) (digit : Fin base) :
    (rem.val * base + digit.val) / divisor < base := by
  refine Nat.div_lt_of_lt_mul ?_
  have hle := Nat.mul_le_mul_right base (Nat.succ_le_of_lt rem.isLt)
  have := digit.isLt; rw [Nat.succ_mul] at hle; omega

/-- The quotient's digits and the remainder, after a remainder of the digits before. -/
def divide : List (Fin base) → Fin divisor → List (Fin base) × Fin divisor
  | [], remainder => ([], remainder)
  | digit :: digits, remainder =>
    let out := divide digits ⟨(remainder.val * base + digit.val) % divisor, Nat.mod_lt _ remainder.pos⟩
    (⟨(remainder.val * base + digit.val) / divisor, quotient_lt remainder digit⟩ :: out.1, out.2)

variable {digits : List (Fin base)}

theorem length_divide : ∀ {rem : Fin divisor}, (divide digits rem).1.length = digits.length := by
  induction digits with
  | nil => exact rfl
  | cons digit digits ih => exact congrArg (· + 1) ih

theorem divide_value {digs : List (Fin base)} : ∀ {rem : Fin divisor},
    rem.val * base ^ digs.length + value base (digs.map Fin.val) =
      divisor * value base ((divide digs rem).1.map Fin.val) + (divide digs rem).2.val := by
  induction digs with
  | nil => simp [divide]
  | cons digit digs ih =>
    intro rem
    have hcurr := Nat.div_add_mod (rem.val * base + digit.val) divisor
    simp only [divide, map_cons, value_cons, length_map, length_divide, length_cons]
    rw [Nat.mul_add, Nat.add_assoc, ← ih, ← Nat.mul_assoc]
    rw [← Nat.add_assoc, ← Nat.add_assoc, ← Nat.add_mul, hcurr, Nat.add_mul, Nat.pow_succ',
      Nat.mul_assoc]

theorem value_eq_zero (h : ∀ digit ∈ digits, digit.val = 0) :
    value base (digits.map Fin.val) = 0 := by
  induction digits with
  | nil => rfl
  | cons digit digits ih =>
    obtain ⟨hdigit, hrest⟩ := forall_mem_cons.1 h
    rw [map_cons, value_cons, hdigit, ih hrest, Nat.zero_mul]

theorem value_pos (h : ¬ ∀ digit ∈ digits, digit.val = 0) : 0 < value base (digits.map Fin.val) := by
  induction digits with
  | nil => exact absurd nofun h
  | cons digit digits ih =>
    rw [map_cons, value_cons]
    by_cases hzero : digit.val = 0
    · exact Nat.add_pos_right _ (ih fun hall => h (forall_mem_cons.2 ⟨hzero, hall⟩))
    · exact Nat.add_pos_left (Nat.mul_pos (Nat.pos_of_ne_zero hzero) (Nat.pow_pos digit.pos)) _

/-- The remainders of dividing by a number over and over, until nothing is left. -/
def chunks (hdivisor : 1 < divisor) (digits : List (Fin base)) : List (Fin divisor) :=
  let out := divide digits ⟨0, Nat.zero_lt_of_lt hdivisor⟩
  if _hzero : ∀ digit ∈ out.1, digit.val = 0 then [out.2] else out.2 :: chunks hdivisor out.1
termination_by value base (digits.map Fin.val)
decreasing_by
  have hvalue := @divide_value base divisor digits ⟨0, Nat.zero_lt_of_lt hdivisor⟩
  have hless := Nat.mul_lt_mul_of_pos_right hdivisor (value_pos _hzero)
  rw [Nat.zero_mul] at hvalue
  dsimp only [out] at hless ⊢
  omega

end Division

def decimal (n : Nat) : List Nat := if n < 10 then [n] else decimal (n / 10) ++ [n % 10]

/-- The last digits of a number, as many as asked for. -/
def padded : Nat → Nat → List Nat
  | 0, _ => []
  | width + 1, n => padded width (n / 10) ++ [n % 10]

theorem decimal_eq (n : Nat) : decimal n = if n = 0 then [0] else (Nat.digits 10 n).reverse := by
  fun_induction decimal n with
  | case1 n h =>
    split
    · rename_i hzero; rw [hzero]
    · rename_i hne; rw [Nat.digits_of_lt 10 n hne h]; rfl
  | case2 n h ih =>
    rw [ih, if_neg (by omega), if_neg (by omega),
      Nat.digits_def' (by decide) (by omega : 0 < n), reverse_cons]

theorem decimal_digits (n : Nat) : value 10 (decimal n) = n ∧ (∀ digit ∈ decimal n, digit < 10) ∧
    ((decimal n).head? = some 0 → decimal n = [0]) := by
  rw [decimal_eq]
  split
  · rename_i hzero; exact ⟨hzero ▸ rfl, by decide, fun _ => rfl⟩
  · rename_i hne
    refine ⟨by rw [value, reverse_reverse, Nat.ofDigits_digits], fun digit hdigit =>
      Nat.digits_lt_base (by decide) (mem_reverse.1 hdigit), fun hhead => ?_⟩
    rw [head?_reverse, getLast?_eq_some_getLast (Nat.digits_ne_nil_iff_ne_zero.2 hne)] at hhead
    exact absurd (Option.some.inj hhead) (Nat.getLast_digit_ne_zero 10 hne)

theorem decimal_ne_nil (n : Nat) : decimal n ≠ [] := by
  rw [decimal]
  split
  · exact cons_ne_nil _ _
  · exact append_ne_nil_of_right_ne_nil _ (cons_ne_nil _ _)

variable {width n : Nat}

theorem length_decimal_le (hwidth : 0 < width) (h : n < 10 ^ width) : (decimal n).length ≤ width := by
  rw [decimal_eq]
  split
  · exact hwidth
  · rw [length_reverse]; exact (Nat.digits_length_le_iff (by decide) n).2 h

theorem padded_eq (hwidth : 0 < width) (h : n < 10 ^ width) :
    padded width n = replicate (width - (decimal n).length) 0 ++ decimal n := by
  have hzero : ∀ width, padded width 0 = replicate width 0 := by
    intro width
    induction width with
    | zero => rfl
    | succ width ih => rw [padded, Nat.zero_div, ih, replicate_succ']
  induction width generalizing n with
  | zero => omega
  | succ width ih =>
    rw [padded, decimal]
    split
    · rename_i hsmall
      rw [Nat.div_eq_of_lt hsmall, Nat.mod_eq_of_lt hsmall, hzero, length_singleton,
        Nat.add_sub_cancel]
    · rename_i hlarge
      have hpos : 0 < width := by
        rcases Nat.eq_zero_or_pos width with rfl | hpos
        · omega
        · exact hpos
      rw [Nat.pow_succ'] at h
      rw [ih hpos (Nat.div_lt_of_lt_mul h), length_append, length_singleton,
        Nat.add_sub_add_right, append_assoc]

theorem decimal_split (h : 10 ^ width ≤ n) :
    decimal n = decimal (n / 10 ^ width) ++ padded width (n % 10 ^ width) := by
  induction width generalizing n with
  | zero => rw [Nat.pow_zero, Nat.div_one, padded, append_nil]
  | succ width ih =>
    rw [Nat.pow_succ'] at h ⊢
    have hlarge := (Nat.le_mul_of_pos_right 10 (Nat.pow_pos (by decide))).trans h
    rw [decimal, if_neg (Nat.not_lt.2 hlarge), ih ((Nat.le_div_iff_mul_le (by decide)).2 (by omega)),
      padded, Nat.div_div_eq_div_mul, Nat.mod_mul_right_div_self,
      Nat.mod_mod_of_dvd _ (Nat.dvd_mul_right _ _), append_assoc]

/-- The text of chunks, least significant first: the last in full, the others padded. -/
def chunkText (pad : Nat → List Nat) : List Nat → List Nat
  | [] => []
  | [chunk] => decimal chunk
  | chunk :: chunks => chunkText pad chunks ++ pad chunk

theorem chunks_ne_nil {base divisor : Nat} (hdivisor : 1 < divisor) (digs : List (Fin base)) :
    chunks hdivisor digs ≠ [] := by
  rw [chunks]
  split <;> exact cons_ne_nil _ _

theorem chunkText_chunks {base : Nat} (hdivisor : 1 < 10 ^ width) {pad : Nat → List Nat}
    (hpad : ∀ chunk < 10 ^ width, pad chunk = padded width chunk) (digs : List (Fin base)) :
    chunkText pad ((chunks hdivisor digs).map Fin.val) =
      decimal (value base (digs.map Fin.val)) := by
  fun_induction chunks hdivisor digs with
  | case1 digs out hzero =>
    have hvalue := @divide_value base (10 ^ width) digs ⟨0, Nat.zero_lt_of_lt hdivisor⟩
    rw [value_eq_zero hzero, Nat.zero_mul, Nat.zero_add, Nat.mul_zero, Nat.zero_add] at hvalue
    rw [hvalue]; rfl
  | case2 digs out hzero ih =>
    have hvalue := @divide_value base (10 ^ width) digs ⟨0, Nat.zero_lt_of_lt hdivisor⟩
    rw [Nat.zero_mul, Nat.zero_add] at hvalue
    have hlarge := Nat.le_mul_of_pos_right (10 ^ width) (value_pos hzero)
    rw [hvalue, decimal_split (hlarge.trans (Nat.le_add_right _ _)),
      Nat.mul_add_div (Nat.zero_lt_of_lt hdivisor), Nat.mul_add_mod, Nat.div_eq_of_lt (Fin.isLt _),
      Nat.mod_eq_of_lt (Fin.isLt _), Nat.add_zero, ← ih, ← hpad _ (Fin.isLt _)]
    cases hchunks : chunks hdivisor out.1 with
    | nil => exact absurd hchunks (chunks_ne_nil hdivisor _)
    | cons chunk chunks => rfl

end Library.Radix
