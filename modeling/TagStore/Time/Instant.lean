import TagStore.Time.Date

namespace TagStore

/-- Seconds since 1970-01-01T00:00:00 UTC and nanoseconds. A leap second is the second before it with a
thousand million nanoseconds more. -/
structure Instant where
  seconds : Int
  nanos : Nat
deriving DecidableEq, Repr

/-- A time of day on a date, as clocks show it. -/
structure ClockTime where
  date : Date
  hour : Nat
  minute : Nat
  second : Nat
  nanos : Nat
deriving DecidableEq, Repr

namespace Instant

def secondsPerDay : Int := 86400

def nanosPerSecond : Nat := 1000000000

/-- The first year of the calendar. -/
def firstYear : Int := -262143

def lastYear : Int := 262142

def earliest : Int := Date.toDays ⟨firstYear, 1, 1⟩ * secondsPerDay

def latest : Int := (Date.toDays ⟨lastYear, 12, 31⟩ + 1) * secondsPerDay - 1

/-- The instant for a clock's reading; only the last second of a minute may be a leap second. -/
def ofReading? (seconds : Int) (nanos : Nat) : Option Instant :=
  if seconds < earliest ∨ latest < seconds then none
  else if nanos < nanosPerSecond then some ⟨seconds, nanos⟩
  else if nanos < 2 * nanosPerSecond ∧ seconds % 60 = 59 then some ⟨seconds, nanos⟩
  else none

/-- The instant at which clocks show `t`, where clocks are `offset` seconds ahead of UTC. Second 60
is a leap second. -/
def ofClock (t : ClockTime) (offset : Int) : Instant :=
  let (second, nanos) := if t.second = 60 then (59, t.nanos + nanosPerSecond) else (t.second, t.nanos)
  ⟨t.date.toDays * secondsPerDay + t.hour * 3600 + t.minute * 60 + second - offset, nanos⟩

/-- What a clock on UTC shows. -/
def clock (i : Instant) : ClockTime :=
  let inDay := (i.seconds % secondsPerDay).toNat
  let leap := nanosPerSecond ≤ i.nanos
  { date := Date.ofDays (i.seconds / secondsPerDay)
    hour := inDay / 3600
    minute := inDay / 60 % 60
    second := if leap then inDay % 60 + 1 else inDay % 60
    nanos := if leap then i.nanos - nanosPerSecond else i.nanos }

/-- The instant at full milliseconds, rounded down. -/
def toMillis (i : Instant) : Instant := { i with nanos := i.nanos / 1000000 * 1000000 }

def before (a b : Instant) : Bool :=
  a.seconds < b.seconds || (a.seconds = b.seconds && a.nanos < b.nanos)

end Instant

end TagStore
