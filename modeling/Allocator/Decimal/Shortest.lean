import Allocator.Decimal.Binary64

/-! The shortest decimal that reads back as a given binary64 value, and its layout as
text. The reals that round to a value form an interval, from halfway to the neighbour
below to halfway to the neighbour above, with both ends included exactly when the
significand is even. For one, two, three, … significant digits the search tries the
value's two neighbours on that decimal grid; the first grid with a hit wins, of two hits
the closer one, and an exact tie goes as the layout's rule says. All comparisons are
cross-multiplications of naturals. -/
namespace Allocator

namespace Decimal

/-- `digits * 10^exp`. -/
structure Dec where
  /-- The significant digits as a natural. -/
  digits : Nat
  /-- The decimal exponent of the last digit. -/
  exp : Int
deriving Repr, DecidableEq

/-- How an exact tie between two candidates is broken. -/
inductive Tie where
  /-- Take the even candidate. -/
  | toEven
  /-- Take the larger candidate. -/
  | up
deriving Repr, DecidableEq

/-- Compare `a * 10^i` with `n * 2^j`, exactly. -/
def cmpScaled (a : Nat) (i : Int) (n : Nat) (j : Int) : Ordering :=
  compare (a * Nat.pow 10 i.toNat * Nat.pow 2 (-j).toNat) (n * Nat.pow 2 j.toNat * Nat.pow 10 (-i).toNat)

/-- Whether `d` lies among the reals that round to `x`. -/
def Binary.readsBack (x : Binary) (d : Dec) : Bool :=
  let lo := if x.narrowBelow then 4 * x.m - 1 else 4 * x.m - 2
  let hi := 4 * x.m + 2
  let incl := x.m % 2 == 0
  let cl := cmpScaled d.digits d.exp lo (x.q - 2)
  let ch := cmpScaled d.digits d.exp hi (x.q - 2)
  (cl == .gt || (incl && cl == .eq)) && (ch == .lt || (incl && ch == .eq))

/-- The least `k` with `x < 10^k`, for a non-zero `x`: estimated from the binary length,
then corrected by exact comparisons. -/
def Binary.scale (x : Binary) : Int :=
  -- 2^(log2 m + q) ≤ x < 2^(log2 m + q + 1), and log10 2 is just above 0.30103.
  let est : Int := ((x.m.log2 : Int) + x.q + 1) * 30103 / 100000
  let below (k : Int) : Bool := cmpScaled 1 k x.m x.q == .gt
  if below (est - 1) then est - 1
  else if below est then est
  else if below (est + 1) then est + 1
  else est + 2

/-- `⌊x / 10^g⌋`. -/
def Binary.floorGrid (x : Binary) (g : Int) : Nat :=
  (x.m * Nat.pow 2 x.q.toNat * Nat.pow 10 (-g).toNat) / (Nat.pow 2 (-x.q).toNat * Nat.pow 10 g.toNat)

/-- Move trailing zeros of the digits into the exponent. -/
def Dec.strip (d : Dec) : Dec :=
  go d.digits.log2.succ d
where
  /-- At most `fuel` zeros are moved. -/
  go : Nat → Dec → Dec
    | 0, d => d
    | fuel + 1, d =>
      if d.digits ≠ 0 ∧ d.digits % 10 = 0 then go fuel ⟨d.digits / 10, d.exp + 1⟩ else d

/-- Of two candidates on one grid, the one to take: the only one that reads back, or the
closer to `x`, or on an exact tie the one the rule names. -/
def Binary.choose (x : Binary) (tie : Tie) (g : Int) (c : Nat) : Option Dec :=
  let lower : Dec := ⟨c, g⟩
  let upper : Dec := ⟨c + 1, g⟩
  match x.readsBack lower, x.readsBack upper with
  | false, false => none
  | true, false => some lower
  | false, true => some upper
  | true, true =>
    -- Compare 2x with the sum of the two candidates.
    match cmpScaled (2 * c + 1) g (2 * x.m) x.q with
    | .lt => some upper
    | .gt => some lower
    | .eq => match tie with
      | .toEven => if c % 2 = 0 then some lower else some upper
      | .up => some upper

/-- The exact decimal value of `x`, for when no short decimal is found. -/
def Binary.exact (x : Binary) : Dec :=
  if x.q ≥ 0 then ⟨x.m * Nat.pow 2 x.q.toNat, 0⟩ else ⟨x.m * Nat.pow 5 (-x.q).toNat, x.q⟩

/-- The fewest significant digits that read back as `x`, the closest such decimal. Zero
is `0 * 10^0`. -/
def Binary.shortest (x : Binary) (tie : Tie) : Dec :=
  if x.m = 0 then ⟨0, 0⟩
  else
    let k := x.scale
    let found := (List.range 17).findSome? fun n =>
      let g := k - (n + 1 : Nat)
      x.choose tie g (x.floorGrid g)
    (found.getD x.exact).strip

/-- The layout of a decimal as text. Decimals whose leading digit has exponent `e` with
`plainFrom ≤ e < plainBelow` are written positionally, the rest with an exponent. -/
structure Layout where
  /-- The least exponent of the leading digit written positionally. -/
  plainFrom : Int
  /-- Exponents of the leading digit from here on take the exponent form. -/
  plainBelow : Int
  /-- The mark between digits and exponent. -/
  mark : String
  /-- How a tie between two shortest candidates is broken. -/
  tie : Tie

/-- `n` zeros. -/
def zeros (n : Nat) : String := String.ofList (List.replicate n '0')

/-- The text of a decimal: positionally with at least one digit after the point, or as
`d.ddd` followed by the mark and the exponent of the leading digit. -/
def Layout.render (l : Layout) (d : Dec) : String :=
  if d.digits = 0 then "0.0"
  else
    let s := toString d.digits
    let len := s.length
    -- The leading digit has exponent `lead`.
    let lead : Int := len + d.exp - 1
    if l.plainFrom ≤ lead ∧ lead < l.plainBelow then
      if d.exp ≥ 0 then s ++ zeros d.exp.toNat ++ ".0"
      else if lead ≥ 0 then
        let cut := lead.toNat + 1
        String.ofList (s.toList.take cut) ++ "." ++ String.ofList (s.toList.drop cut)
      else "0." ++ zeros (-lead - 1).toNat ++ s
    else
      let body := if len = 1 then s
        else String.ofList (s.toList.take 1) ++ "." ++ String.ofList (s.toList.drop 1)
      body ++ l.mark ++ toString lead

/-- The text of the binary64 value nearest to `num / den`. -/
def Layout.ratio (l : Layout) (num den : Nat) : String :=
  l.render ((Binary.ofRatio num den).shortest l.tie)

end Decimal

end Allocator
