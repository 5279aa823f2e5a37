/-! Binary64 values as exact numbers: a non-negative finite value is `m * 2^q` with a
53-bit significand `m`. The value nearest to a ratio of naturals is found in exact
arithmetic, ties going to the even significand, the rounding of the standard's default
mode. Values too large for the format are out of scope: a ratio here is at most a few
times `2^64`. -/
namespace Allocator

namespace Decimal

/-- A finite non-negative binary64 value, `m * 2^q`. -/
structure Binary where
  /-- The significand. -/
  m : Nat
  /-- The binary exponent. -/
  q : Int
  /-- The gap to the value below is half the gap to the value above: `m` is the smallest
  significand of a normal binade above the lowest one. -/
  narrowBelow : Bool
deriving Repr, DecidableEq

/-- The least exponent: subnormal values have it. -/
def minExponent : Int := -1074

/-- The smallest significand of a normal value. -/
def hiddenBit : Nat := Nat.pow 2 52

/-- `a / b` rounded to the nearest natural, a tie going to the even one. -/
def roundHalfEven (a b : Nat) : Nat :=
  let q := a / b
  let r := a % b
  if 2 * r > b then q + 1
  else if 2 * r < b then q
  else q + q % 2

/-- `num / den` scaled by `2^(-q)`, rounded to the nearest natural, ties to even. -/
def scaledRound (num den : Nat) (q : Int) : Nat :=
  if q ≥ 0 then roundHalfEven num (den * Nat.pow 2 q.toNat)
  else roundHalfEven (num * Nat.pow 2 (-q).toNat) den

/-- Whether `num / den ≥ 2^t`. -/
def atLeastPow2 (num den : Nat) (t : Int) : Bool :=
  if t ≥ 0 then num ≥ den * Nat.pow 2 t.toNat else num * Nat.pow 2 (-t).toNat ≥ den

/-- The binary64 value nearest to `num / den`, ties to even. A zero denominator reads as
zero. -/
def Binary.ofRatio (num den : Nat) : Binary :=
  if num = 0 ∨ den = 0 then ⟨0, minExponent, false⟩
  else
    -- The leading binary digit of `num / den` has weight `2^t`.
    let est : Int := (num.log2 : Int) - (den.log2 : Int)
    let t := if atLeastPow2 num den est then est else est - 1
    let q := max (t - 52) minExponent
    let m := scaledRound num den q
    let (m, q) := if m = 2 * hiddenBit then (hiddenBit, q + 1) else (m, q)
    ⟨m, q, m = hiddenBit ∧ q > minExponent⟩

end Decimal

end Allocator
