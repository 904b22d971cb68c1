import TagStore.Json.Basic

namespace TagStore

/-- The parts of a numeral; digits are values below ten. -/
structure Numeral where
  negative : Bool
  whole : List Nat
  fraction : List Nat
  exponent : Option Int
deriving DecidableEq, Repr

namespace Numeral

def digit? (b : UInt8) : Option Nat :=
  if 48 ≤ b.toNat && b.toNat ≤ 57 then some (b.toNat - 48) else none

/-- The leading digits, and what follows them. -/
def digits : List UInt8 → List Nat × List UInt8
  | [] => ([], [])
  | b :: rest =>
    match digit? b with
    | none => ([], b :: rest)
    | some d => let (ds, after) := digits rest; (d :: ds, after)

def valueOf (ds : List Nat) : Nat := ds.foldl (fun n d => 10 * n + d) 0

/-- One digit, or several that do not begin with zero. -/
def isWhole (ds : List Nat) : Bool :=
  match ds with
  | [] => false
  | d :: rest => d != 0 || rest.isEmpty

def readExponent? : List UInt8 → Option (Option Int)
  | [] => some none
  | mark :: rest =>
    if mark != 101 && mark != 69 then none
    else
      let (minus, rest) := match rest with
        | b :: after => if b = 45 then (true, after) else if b = 43 then (false, after)
          else (false, b :: after)
        | [] => (false, [])
      match digits rest with
      | (d :: ds, []) =>
        let n : Int := valueOf (d :: ds)
        some (some (if minus then -n else n))
      | _ => none

/-- Reads a numeral that is all of the input. -/
def read? (octets : List UInt8) : Option Numeral := do
  let (negative, octets) := match octets with
    | b :: rest => if b = 45 then (true, rest) else (false, b :: rest)
    | [] => (false, [])
  let (whole, octets) := digits octets
  guard (isWhole whole)
  match octets with
  | 46 :: rest =>
    let (fraction, octets) := digits rest
    guard (!fraction.isEmpty)
    let exponent ← readExponent? octets
    return ⟨negative, whole, fraction, exponent⟩
  | octets =>
    let exponent ← readExponent? octets
    return ⟨negative, whole, [], exponent⟩

/-- One past the greatest significand. -/
def significandLimit : Nat := Nat.pow 2 64

/-- Appends digits to a significand while it stays below the limit; how many did not fit. -/
def takeWhole (n : Nat) : List Nat → Nat × Nat
  | [] => (n, 0)
  | d :: ds =>
    if 10 * n + d < significandLimit then takeWhole (10 * n + d) ds else (n, ds.length + 1)

/-- Appends digits to a significand while it stays below the limit; how many did fit. -/
def takeFraction (n : Nat) : List Nat → Nat × Nat
  | [] => (n, 0)
  | d :: ds =>
    if 10 * n + d < significandLimit then
      let (n, taken) := takeFraction (10 * n + d) ds
      (n, taken + 1)
    else (n, 0)

/-- Divides by `10 ^ k` in steps of at most `10 ^ 308`; zero stays zero. -/
def scaleDown? (x : Binary64) (steps k : Nat) : Option Binary64 :=
  if k ≤ 308 then (do x.div? (← Binary64.tenTo? k))
  else match steps with
    | 0 => some x
    | steps + 1 =>
      if x.mantissa = 0 then some x
      else do scaleDown? (← x.div? (← Binary64.tenTo? 308)) steps (k - 308)

/-- The number `significand * 10 ^ exponent`, unless it is too large. -/
def scale? (negative : Bool) (significand : Nat) (exponent : Int) : Option Binary64 := do
  let x ← Binary64.ofRatio? negative significand 1
  if 0 ≤ exponent then
    if x.mantissa = 0 then some x
    else if 308 < exponent then none
    else do x.mul? (← Binary64.tenTo? exponent.toNat)
  else scaleDown? x (exponent.natAbs / 308) exponent.natAbs

/-- The greatest power of ten that a numeral's exponent may name. -/
def exponentLimit : Int := Nat.pow 2 31

/-- The number that a numeral denotes, unless it is too large. Without fraction and exponent it is an
integer if it fits in 64 bits, signed or unsigned, and is not `-0`. Of others as many leading digits as
fit in 64 bits are kept, the whole digits after them count as tens, and one rounded multiplication or
division by a power of ten follows. -/
def number? (n : Numeral) : Option Number :=
  let (significand, dropped) := takeWhole 0 n.whole
  let (significand, taken) := takeFraction significand n.fraction
  match n.exponent with
  | none =>
    if n.fraction.isEmpty && dropped = 0 then
      if !n.negative then some (.int significand)
      else if 0 < significand ∧ significand ≤ Nat.pow 2 63 then some (.int (-significand))
      else (Binary64.ofRatio? true significand 1).map .float
    else (scale? n.negative significand (dropped - taken : Int)).map .float
  | some e =>
    if exponentLimit ≤ e then
      if significand = 0 then some (.float (Binary64.zero n.negative)) else none
    else if e ≤ -exponentLimit then some (.float (Binary64.zero n.negative))
    else (scale? n.negative significand (dropped - taken + e)).map .float

end Numeral

end TagStore
