namespace TagStore

/-- A finite number of 64 bits: `mantissa * 2 ^ exponent`, negated if `negative`. The mantissa is below
`2 ^ 53`, and at least `2 ^ 52` unless the exponent is the least one. -/
structure Binary64 where
  negative : Bool
  mantissa : Nat
  exponent : Int
deriving DecidableEq, Repr

namespace Binary64

def leastExponent : Int := -1074

def greatestExponent : Int := 971

def zero (negative : Bool) : Binary64 := ⟨negative, 0, leastExponent⟩

/-- `n * 2 ^ e` as a numerator and a denominator. -/
def fraction (n : Nat) (e : Int) : Nat × Nat :=
  if 0 ≤ e then (n * Nat.pow 2 e.toNat, 1) else (n, Nat.pow 2 (-e).toNat)

/-- The integer nearest to a fraction; of two, the even one. -/
def roundDiv (num den : Nat) : Nat :=
  let q := num / den
  let r := num % den
  if 2 * r < den then q else if den < 2 * r then q + 1 else q + q % 2

/-- The number nearest to a fraction, if it is not too large for one. -/
def ofRatio? (negative : Bool) (num den : Nat) : Option Binary64 :=
  if num = 0 then some (zero negative)
  else
    let estimate := max ((num.log2 : Int) - den.log2 - 53) leastExponent
    let scaled (e : Int) : Nat × Nat :=
      let (p, q) := fraction 1 (-e)
      (num * p, den * q)
    let (p, q) := scaled estimate
    let exponent := if p / q < Nat.pow 2 53 then estimate else estimate + 1
    let (p, q) := scaled exponent
    let mantissa := roundDiv p q
    let (mantissa, exponent) :=
      if mantissa = Nat.pow 2 53 then (Nat.pow 2 52, exponent + 1) else (mantissa, exponent)
    if greatestExponent < exponent then none else some ⟨negative, mantissa, exponent⟩

/-- The number nearest to `10 ^ k`, if there is one. -/
def tenTo? (k : Nat) : Option Binary64 := ofRatio? false (Nat.pow 10 k) 1

/-- The rounded product of two numbers. -/
def mul? (x y : Binary64) : Option Binary64 :=
  let (p, q) := fraction 1 (x.exponent + y.exponent)
  ofRatio? (x.negative != y.negative) (x.mantissa * y.mantissa * p) q

/-- The rounded quotient of a number and one that is not zero. -/
def div? (x y : Binary64) : Option Binary64 :=
  let (p, q) := fraction 1 (x.exponent - y.exponent)
  ofRatio? (x.negative != y.negative) (x.mantissa * p) (y.mantissa * q)

/-- The two zeros are the same number. -/
def same (x y : Binary64) : Bool := x = y || (x.mantissa = 0 && y.mantissa = 0)

end Binary64

end TagStore
