import TagStore.Time.Instant

namespace TagStore.Rfc3339

/-- A number's digits, filled up with zeros to a width. -/
def padded (width n : Nat) : String :=
  let ds := Nat.toDigits 10 n
  String.ofList (List.replicate (width - ds.length) '0' ++ ds)

/-- Years of four digits are written plainly, others with a sign and at least four digits. -/
def yearText (year : Int) : String :=
  if 0 ≤ year ∧ year ≤ 9999 then padded 4 year.toNat
  else (if year < 0 then "-" else "+") ++ padded 4 year.natAbs

def dateText (d : Date) : String := yearText d.year ++ "-" ++ padded 2 d.month ++ "-" ++ padded 2 d.day

/-- The instant in UTC with `places` digits of a second's fraction; further ones are dropped. -/
def write (places : Nat) (i : Instant) : String :=
  let t := i.clock
  let fraction := if places = 0 then "" else "." ++ padded places (t.nanos / Nat.pow 10 (9 - places))
  dateText t.date ++ "T" ++ padded 2 t.hour ++ ":" ++ padded 2 t.minute ++ ":" ++ padded 2 t.second ++
    fraction ++ "Z"

/-- The instant in UTC with the fewest of 0, 3, 6 and 9 digits that show it. -/
def writeShort (i : Instant) : String :=
  let nanos := i.nanos
  write (if nanos % 1000000000 = 0 then 0 else if nanos % 1000000 = 0 then 3
    else if nanos % 1000 = 0 then 6 else 9) i

end TagStore.Rfc3339
