import Leani.Deltas.Blobs
import Leani.Library.Taylor

/-!
# The blob base fee

`fake_exponential` in 256 bits against the expansion over unbounded numbers: as long as no
intermediate value leaves 256 bits the loop adds up its terms and ends at the first zero, and
otherwise it ends with an error.
-/

namespace Leani.Deltas

open Library Taylor

variable (factor numerator denominator : Nat)

/-- The values that the loop computes in iteration `k + 1`. -/
structure IterationFits (k : Nat) : Prop where
  output : total factor numerator denominator (k + 1) < 2 ^ 256
  divisor : denominator * (k + 1) < 2 ^ 256
  product : term factor numerator denominator k * numerator < 2 ^ 256
  iteration : k + 1 + 1 < 2 ^ 256

structure Fits : Prop where
  accumulator : factor * denominator < 2 ^ 256
  iterations : ∀ k, term factor numerator denominator k ≠ 0 →
    IterationFits factor numerator denominator k

variable {factor numerator denominator}

theorem expand_term {last k : Nat} (hlast : term factor numerator denominator last = 0) (hk : k ≤ last) :
    (∀ j, k ≤ j → term factor numerator denominator j ≠ 0 →
        IterationFits factor numerator denominator j) ∧
      expand numerator denominator (total factor numerator denominator k)
        (term factor numerator denominator k) (k + 1) = .ok (total factor numerator denominator last) ∨
    (∃ j, term factor numerator denominator j ≠ 0 ∧ ¬ IterationFits factor numerator denominator j) ∧
      expand numerator denominator (total factor numerator denominator k)
        (term factor numerator denominator k) (k + 1) = .error (.invariant "blob fee overflow") := by
  induction hrest : last - k generalizing k with
  | zero =>
    obtain rfl : k = last := by omega
    refine .inl ⟨fun j hj h => absurd (term_eq_zero hlast hj) h, ?_⟩
    rw [hlast, expand, if_pos rfl]
  | succ rest ih =>
    rw [expand]
    by_cases hzero : term factor numerator denominator k = 0
    · refine .inl ⟨fun j hj h => absurd (term_eq_zero hzero hj) h, ?_⟩
      rw [if_pos hzero]; exact congrArg _ (total_eq hzero hk)
    · rw [if_neg hzero]
      have htotal : total factor numerator denominator (k + 1) =
          total factor numerator denominator k + term factor numerator denominator k :=
        Finset.sum_range_succ ..
      by_cases hfits : IterationFits factor numerator denominator k
      · rw [if_pos ⟨hfits.iteration, htotal ▸ hfits.output, hfits.divisor, hfits.product⟩, ← htotal]
        refine (@ih (k + 1) (by omega) (by omega)).imp_left fun ⟨hall, h⟩ => ⟨fun j hj hterm => ?_, h⟩
        rcases hj.eq_or_lt with rfl | hj
        · exact hfits
        · exact hall j hj hterm
      · rw [if_neg fun h => hfits ⟨htotal ▸ h.2.1, h.2.2.1, h.2.2.2, h.1⟩]
        exact .inr ⟨⟨k, hzero, hfits⟩, rfl⟩

theorem getBlobBaseFee_cases {excess fraction : Nat}
    (hfrac : 0 < fraction) : Fits minBlobBaseFee excess fraction ∧ getBlobBaseFee excess fraction =
    .ok (expansion minBlobBaseFee excess hfrac) ∨ ¬ Fits minBlobBaseFee excess fraction ∧
    getBlobBaseFee excess fraction = .error (.invariant "blob fee overflow") := by
  obtain ⟨last, hlast⟩ := exists_term_eq_zero minBlobBaseFee excess hfrac
  rw [getBlobBaseFee, fakeExponential, ensure, if_pos hfrac.ne', checkedMul]
  by_cases hmul : minBlobBaseFee * fraction < 2 ^ 256
  · rw [ensure, if_pos hmul]
    rcases @expand_term _ _ _ last 0 hlast (Nat.zero_le _) with ⟨hall, h⟩ | ⟨⟨k, hterm, hnot⟩, h⟩
    · refine .inl ⟨⟨hmul, fun k => hall k (Nat.zero_le _)⟩, ?_⟩
      rw [expansion_eq hfrac hlast]; exact congrArg (· >>= fun out => pure (out / fraction)) h
    · refine .inr ⟨fun hfits => hnot (hfits.iterations k hterm), ?_⟩
      exact congrArg (· >>= fun out => pure (out / fraction)) h
  · rw [ensure, if_neg hmul]; exact .inr ⟨fun hfits => hmul hfits.accumulator, rfl⟩

/-- The fee is the expansion over unbounded numbers as long as its intermediate values fit, and an error
otherwise. It is at least 1, grows with the excess and falls with the update fraction. -/
theorem getBlobBaseFee_exact {fraction : Nat} (hfraction : 0 < fraction) (excess : Nat) :
    (∀ fee, getBlobBaseFee excess fraction = .ok fee ↔
      Fits minBlobBaseFee excess fraction ∧ fee = expansion minBlobBaseFee excess hfraction) ∧
    (getBlobBaseFee excess fraction = .error (.invariant "blob fee overflow") ↔
      ¬ Fits minBlobBaseFee excess fraction) ∧
    ∀ fee, getBlobBaseFee excess fraction = .ok fee →
      1 ≤ fee ∧
      (∀ excess' fee', excess ≤ excess' → getBlobBaseFee excess' fraction = .ok fee' → fee ≤ fee') ∧
      ∀ fraction' fee', fraction ≤ fraction' → getBlobBaseFee excess fraction' = .ok fee' →
        fee' ≤ fee := by
  have hok : ∀ {excess fraction fee : Nat} (h : 0 < fraction),
      getBlobBaseFee excess fraction = .ok fee → fee = expansion minBlobBaseFee excess h := by
    intro excess fraction fee h hfee
    rcases @getBlobBaseFee_cases excess fraction h with ⟨-, heq⟩ | ⟨-, heq⟩
    · exact Except.ok.inj (hfee.symm.trans heq)
    · exact nomatch hfee.symm.trans heq
  refine ⟨fun fee => ?_, ?_, fun fee hfee => ⟨?_, fun excess' fee' hle hfee' => ?_,
    fun fraction' fee' hle hfee' => ?_⟩⟩
  · rcases @getBlobBaseFee_cases excess fraction hfraction with ⟨hfits, h⟩ | ⟨hfits, h⟩
    · rw [h, and_iff_right hfits, Except.ok.injEq, eq_comm]
    · rw [h]; exact iff_of_false nofun fun h => hfits h.1
  · rcases @getBlobBaseFee_cases excess fraction hfraction with ⟨hfits, h⟩ | ⟨hfits, h⟩
    · rw [h]; exact iff_of_false nofun (not_not_intro hfits)
    · exact iff_of_true h hfits
  · rw [hok hfraction hfee]; exact le_expansion hfraction (Nat.le_refl _)
  · rw [hok hfraction hfee, hok hfraction hfee']; exact expansion_mono hfraction hle
  · rw [hok hfraction hfee, hok (hfraction.trans_le hle) hfee']
    exact expansion_antitone hfraction hle

theorem getBlobBaseFee_exact_two :
    Fits minBlobBaseFee 1 2 ∧ 1 = expansion minBlobBaseFee 1 Nat.two_pos :=
  ((getBlobBaseFee_exact Nat.two_pos 1).1 1).1 (by decide +kernel)

end Leani.Deltas
