import Mathlib.Data.List.Iterate
import Mathlib.Data.List.Basic
import Mathlib.Tactic.Common

/-!
# Pieces of an interval

An interval cut into pieces that are worked off from its upper end down: the pieces follow each
other without a gap, and together they have every number once. A linked list of hashes read from
its newest one down is as many steps of the parent function.
-/

namespace Library.Tiling

open List

variable {ρ : Type} (first last : ρ → Nat)

def numbersDown (r : ρ) : List Nat := (List.range' (first r) (last r + 1 - first r)).reverse

/-- The pieces follow each other downwards, from below `top` to `bottom`. -/
def Down : Nat → List ρ → Nat → Prop
  | top, [], bottom => top = bottom
  | top, r :: rs, bottom => last r + 1 = top ∧ first r ≤ last r ∧ Down (first r) rs bottom

variable {first last} {top bottom : Nat} {r : ρ} {rs : List ρ}

theorem Down.le (h : Down first last top rs bottom) : bottom ≤ top := by
  induction rs generalizing top with
  | nil => exact h.ge
  | cons r rs ih =>
    obtain ⟨_, _, h⟩ := h
    have := ih h; omega

theorem Down.concat {bottom' : Nat} (h : Down first last top rs bottom) (hlast : last r + 1 = bottom)
    (hle : first r ≤ last r) (hfst : first r = bottom') :
    Down first last top (rs ++ [r]) bottom' := by
  induction rs generalizing top with
  | nil => exact ⟨hlast.trans (Eq.symm h), hle, hfst⟩
  | cons a rs ih => exact ⟨h.1, h.2.1, ih h.2.2⟩

theorem reverse_range'_split {a b c : Nat} (hab : a ≤ b) (hbc : b ≤ c) : (range' a (c - a)).reverse =
      (range' b (c - b)).reverse ++ (range' a (b - a)).reverse := by
  have hb : a + (b - a) = b := by omega
  rw [← reverse_append, show c - a = (b - a) + (c - b) by omega, ← range'_append_1, hb]

theorem Down.flatMap_numbersDown (h : Down first last top rs bottom) :
    rs.flatMap (numbersDown first last) = (range' bottom (top - bottom)).reverse := by
  induction rs generalizing top with
  | nil =>
    obtain rfl : top = bottom := h; simp
  | cons r rs ih =>
    obtain ⟨rfl, _, h⟩ := h
    rw [flatMap_cons, ih h, numbersDown, ← reverse_range'_split h.le (by omega)]

variable {a : ρ}

theorem Down.lt (h : Down first last top (r :: rs) bottom) (ha : a ∈ rs) : last a < first r := by
  obtain ⟨-, -, h⟩ := h
  induction rs generalizing r with
  | nil => cases ha
  | cons b rs ih =>
    obtain ⟨_, _, h⟩ := h
    rcases mem_cons.1 ha with rfl | ha
    · omega
    · have := ih ha h; omega

theorem Down.mem_bounds (h : Down first last top rs bottom) (ha : a ∈ rs) :
    bottom ≤ first a ∧ first a ≤ last a ∧ last a < top := by
  induction rs generalizing top with
  | nil => cases ha
  | cons b rs ih =>
    obtain ⟨_, _, h⟩ := h
    have hbottom := h.le
    rcases mem_cons.1 ha with rfl | ha
    · omega
    · have := ih h ha; omega

theorem Down.eq_of_last_eq (h : Down first last top rs bottom) {b : ρ} (ha : a ∈ rs) (hb : b ∈ rs)
    (hab : last a = last b) : a = b := by
  induction rs generalizing top with
  | nil => cases ha
  | cons r rs ih =>
    rcases mem_cons.1 ha with rfl | ha'
    · rcases mem_cons.1 hb with rfl | hb'
      · rfl
      · have := h.lt hb'
        have := h.2.1; omega
    · rcases mem_cons.1 hb with rfl | hb'
      · have := h.lt ha'
        have := h.2.1; omega
      · exact ih h.2.2 ha' hb'

theorem Down.nodup (h : Down first last top rs bottom) : rs.Nodup := by
  induction rs generalizing top with
  | nil => exact nodup_nil
  | cons r rs ih =>
    refine nodup_cons.2 ⟨fun hmem => ?_, ih h.2.2⟩
    have := h.lt hmem
    have := h.2.1; omega

variable {η : Type} {up : η → η}

theorem reverse_eq_iterate {parent newest : η} {hashes : List η}
    (h : (parent :: hashes).IsChain fun a b => up b = a) (hlast : hashes.getLast? = some newest) :
    hashes.reverse = iterate up newest hashes.length ∧ parent = up^[hashes.length] newest := by
  induction hashes generalizing parent with
  | nil => cases hlast
  | cons hash hashes ih =>
    rw [isChain_cons_cons] at h
    obtain ⟨hpar, h⟩ := h
    cases hashes with
    | nil =>
      obtain rfl : hash = newest := Option.some.inj hlast; exact ⟨rfl, hpar.symm⟩
    | cons next rest =>
      rw [getLast?_cons_cons] at hlast
      obtain ⟨hrest, hhash⟩ := ih h hlast
      constructor
      · rw [reverse_cons, hrest, @length_cons _ hash, iterate_add, ← hhash]; rfl
      · rw [← hpar, length_cons, Function.iterate_succ_apply', ← hhash]

section Up

variable {ρ : Type} (first last : ρ → Nat)

/-- The pieces follow each other upwards, from `bottom` to below `top`. -/
def Up : Nat → List ρ → Nat → Prop
  | bottom, [], top => bottom = top
  | bottom, r :: rs, top => first r = bottom ∧ first r ≤ last r ∧ Up (last r + 1) rs top

variable {first last} {top bottom : Nat} {r : ρ} {rs : List ρ}

section

variable (h : Up first last bottom rs top)

include h

theorem Up.le : bottom ≤ top := by
  induction rs generalizing bottom with
  | nil => exact h.le
  | cons r rs ih =>
    obtain ⟨_, _, h⟩ := h
    have := ih h; omega

theorem Up.mem_iff (n : Nat) : (∃ r ∈ rs, first r ≤ n ∧ n ≤ last r) ↔ bottom ≤ n ∧ n < top := by
  induction rs generalizing bottom with
  | nil =>
    obtain rfl : bottom = top := h; simp
  | cons r rs ih =>
    obtain ⟨_, _, h⟩ := h
    have htop := h.le; simp only [mem_cons, exists_eq_or_imp, ih h]; omega

theorem Up.bottom_le {r' : ρ} (hr : r' ∈ rs) : bottom ≤ first r' := by
  induction rs generalizing bottom with
  | nil => cases hr
  | cons r rs ih =>
    obtain ⟨hbottom, _, h⟩ := h
    rcases mem_cons.1 hr with rfl | hr
    · exact hbottom.ge
    · have := ih h hr; omega

theorem Up.pairwise : rs.Pairwise fun r r' => last r < first r' := by
  induction rs generalizing bottom with
  | nil => exact List.Pairwise.nil
  | cons r rs ih =>
    obtain ⟨-, -, h⟩ := h; exact pairwise_cons.2 ⟨fun r' hr' => h.bottom_le hr', ih h⟩

theorem Up.adjacent : rs.IsChain fun r r' => last r + 1 = first r' := by
  induction rs generalizing bottom with
  | nil => exact .nil
  | cons r rs ih =>
    obtain ⟨-, -, h⟩ := h
    cases rs with
    | nil => exact .singleton _
    | cons r' rs => exact isChain_cons_cons.2 ⟨h.1.symm, ih h⟩

end

end Up

end Library.Tiling
