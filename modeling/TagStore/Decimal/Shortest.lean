import TagStore.Decimal.Binary64

namespace TagStore

/-- The number `digits * 10 ^ exponent`. -/
structure Decimal where
  digits : Nat
  exponent : Int
deriving DecidableEq, Repr

namespace Decimal

/-- The decimals that read back as a number, in quarter units of its last place: they lie between
`low` and `high`, around `mid`, each over the common denominator `den`. -/
structure Interval where
  low : Nat
  mid : Nat
  high : Nat
  den : Nat
  closed : Bool

def interval (x : Binary64) : Interval :=
  let (p, q) := Binary64.fraction 1 (x.exponent - 2)
  let m := x.mantissa
  let below := if m = Nat.pow 2 52 ∧ x.exponent ≠ Binary64.leastExponent then 1 else 2
  ⟨(4 * m - below) * p, 4 * m * p, (4 * m + 2) * p, q, m % 2 = 0⟩

/-- The point of the grid of multiples of `10 ^ exponent` that reads back and is nearest. -/
def hit? (i : Interval) (exponent : Int) : Option Decimal :=
  let (unit, den) :=
    if 0 ≤ exponent then (Nat.pow 10 exponent.toNat, 1) else (1, Nat.pow 10 (-exponent).toNat)
  let step := unit * i.den
  let low := i.low * den
  let mid := i.mid * den
  let high := i.high * den
  let inside (n : Nat) : Bool :=
    let p := n * step
    0 < n && (if i.closed then low ≤ p && p ≤ high else low < p && p < high)
  let down := mid / step
  let rest := mid % step
  let nearer := if 2 * rest < step then down else if step < 2 * rest then down + 1
    else down + down % 2
  let other := if nearer = down then down + 1 else down
  if inside nearer then some ⟨nearer, exponent⟩
  else if inside other then some ⟨other, exponent⟩
  else none

/-- The first hit among `steps` grids, each ten times finer than the one before. -/
def search (i : Interval) : (steps : Nat) → (exponent : Int) → Option Decimal
  | 0, _ => none
  | steps + 1, exponent =>
    match hit? i exponent with
    | some d => some d
    | none => search i steps (exponent - 1)

/-- A power of ten above the number `n / den`. -/
def exponentAbove (n den : Nat) : Int :=
  (((n.log2 : Int) - den.log2 + 1) * 30103) / 100000 + 2

/-- The shortest decimal that reads back as a number's magnitude, which is to lie between the midpoints
to the number's two neighbours, or on them if the mantissa is even. The coarsest grid of a power of ten
with a point there wins; of two points the nearer, and of two as near the even one. Seventeen digits
always suffice. -/
def shortest (x : Binary64) : Decimal :=
  if x.mantissa = 0 then ⟨0, 0⟩
  else
    let i := interval x
    (search i 24 (exponentAbove i.mid i.den)).getD ⟨0, 0⟩

end Decimal

end TagStore
