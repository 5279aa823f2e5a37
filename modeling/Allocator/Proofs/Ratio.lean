import Mathlib
import Allocator.Decimal.Binary64

/-! The binary64 value nearest to a ratio below one is below one. A ratio `num / den` with
`num < den` has its leading binary digit at a negative weight, so the significand is rounded
at a weight of `2^-53` or less; when the denominator has at most 53 bits, `num / den` lies at
least one unit of that weight below one, and rounding to the nearest unit cannot reach one.
The values are read as exact rationals, `m * 2^q`. -/
namespace Allocator

namespace Decimal

/-- The exact value of a binary64 value. -/
def Binary.value (x : Binary) : ℚ := x.m * 2 ^ x.q

/-- Rounding `a / b` to the nearest natural never passes a natural bound of `a / b`. -/
theorem roundHalfEven_le {a b N : Nat} (hb : 0 < b) (ha : a ≤ N * b) : roundHalfEven a b ≤ N := by
  have hq : a / b ≤ N := (Nat.div_le_iff_le_mul_add_pred hb).mpr (by nlinarith)
  have hdiv := Nat.div_add_mod a b
  unfold roundHalfEven
  dsimp only
  rcases Nat.lt_or_eq_of_le hq with hlt | heq
  · split_ifs <;> omega
  · have hr : a % b = 0 := by
      rw [heq] at hdiv
      rw [Nat.mul_comm] at ha
      omega
    rw [hr, heq]
    split_ifs <;> omega

/-- Below one, the leading binary digit of a ratio has a negative weight: the estimate from
the binary lengths is at most zero, and zero is corrected down. -/
theorem lead_le_neg_one {num den : Nat} (hlt : num < den) :
    (if atLeastPow2 num den ((num.log2 : Int) - den.log2) then (num.log2 : Int) - den.log2
      else (num.log2 : Int) - den.log2 - 1) ≤ -1 := by
  have hle : num.log2 ≤ den.log2 := by
    rw [Nat.log2_eq_log_two, Nat.log2_eq_log_two]
    exact Nat.log_mono_right hlt.le
  split
  · rename_i hat
    by_contra hpos
    have he : (num.log2 : Int) - den.log2 = 0 := by omega
    have hone : Nat.pow 2 (0 : Int).toNat = 1 := rfl
    rw [he] at hat
    simp only [atLeastPow2, le_refl, if_true, hone, decide_eq_true_eq] at hat
    omega
  · omega

/-- Scaled to a weight of `2^-53` or less, a ratio below one with a denominator of at most 53
bits rounds to fewer units than make one. -/
theorem scaledRound_lt {num den : Nat} {q : Int} (hlt : num < den) (hden : den ≤ Nat.pow 2 53)
    (hq : q ≤ -53) : scaledRound num den q < Nat.pow 2 (-q).toNat := by
  have hneg : ¬ q ≥ 0 := by omega
  have hP : den ≤ Nat.pow 2 (-q).toNat :=
    hden.trans (Nat.pow_le_pow_right (by decide) (by omega))
  have hbound : num * Nat.pow 2 (-q).toNat ≤ (Nat.pow 2 (-q).toNat - 1) * den := by
    have h1 : (num + 1) * Nat.pow 2 (-q).toNat ≤ den * Nat.pow 2 (-q).toNat :=
      Nat.mul_le_mul_right _ hlt
    rw [Nat.sub_mul, Nat.one_mul, Nat.mul_comm (Nat.pow 2 (-q).toNat) den]
    rw [Nat.add_mul, Nat.one_mul] at h1
    omega
  have hpos : 0 < Nat.pow 2 (-q).toNat := Nat.two_pow_pos _
  unfold scaledRound
  rw [if_neg hneg]
  have := roundHalfEven_le (by omega) hbound
  omega

theorem value_lt_one {m : Nat} {q : Int} (hq : q < 0) (hm : m < Nat.pow 2 (-q).toNat) :
    (m : ℚ) * 2 ^ q < 1 := by
  have hk : q = -((-q).toNat : Int) := by omega
  have hpow : (0 : ℚ) < 2 ^ (-q).toNat := by positivity
  have hcast : (m : ℚ) < 2 ^ (-q).toNat := by exact_mod_cast hm
  rw [hk, zpow_neg, zpow_natCast, ← div_eq_mul_inv, div_lt_one hpow]
  exact hcast

/-- The binary64 value nearest to a ratio below one, with a denominator of at most 53 bits,
is below one. -/
theorem Binary.ofRatio_value_lt_one {num den : Nat} (hlt : num < den) (hden : den ≤ Nat.pow 2 53) :
    (Binary.ofRatio num den).value < 1 := by
  unfold Binary.ofRatio
  split
  · simp [Binary.value]
  have hlead := lead_le_neg_one hlt
  dsimp only
  generalize (if atLeastPow2 num den ((num.log2 : Int) - den.log2) then (num.log2 : Int) - den.log2
    else (num.log2 : Int) - den.log2 - 1) = t at hlead ⊢
  have hq : max (t - 52) minExponent ≤ -53 := by
    simp only [minExponent]
    omega
  generalize max (t - 52) minExponent = q at hq ⊢
  have hm := scaledRound_lt hlt hden hq
  generalize scaledRound num den q = m at hm ⊢
  split
  · rename_i hcarry
    have hk : (-(q + 1)).toNat + 1 = (-q).toNat := by omega
    have hm' : hiddenBit < Nat.pow 2 (-(q + 1)).toNat := by
      have hsucc : Nat.pow 2 ((-(q + 1)).toNat + 1) = Nat.pow 2 (-(q + 1)).toNat * 2 := rfl
      simp only [hiddenBit] at hcarry ⊢
      rw [← hk, hsucc] at hm
      omega
    show ((hiddenBit : Nat) : ℚ) * 2 ^ (q + 1) < 1
    exact value_lt_one (by omega) hm'
  · show (m : ℚ) * 2 ^ q < 1
    exact value_lt_one (by omega) hm

end Decimal

end Allocator
