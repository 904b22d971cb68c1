import TagStore.Text.Blank
import TagStore.Time.Rfc3339.Reader

namespace TagStore.Rfc3339

/-- A number of up to `n` digits, blanks before it allowed. -/
def lenientNumber? (n : Nat) (cs : List Char) : Option (Nat × List Char) :=
  match leadingDigits n (Text.trimStart cs) with
  | ([], _) => none
  | (ds, rest) => some (Digits.toNat ds, rest)

/-- A year of up to four digits, or of any number of digits with a sign. -/
def lenientYear? (cs : List Char) : Option (Int × List Char) :=
  match Text.trimStart cs with
  | '-' :: cs => signed true cs
  | '+' :: cs => signed false cs
  | cs => (lenientNumber? 4 cs).map fun (y, rest) => (y, rest)
where
  signed (minus : Bool) (cs : List Char) : Option (Int × List Char) :=
    match leadingDigits cs.length cs with
    | ([], _) => none
    | (ds, rest) => some (if minus then -(Digits.toNat ds : Int) else Digits.toNat ds, rest)

def lenientMark? (mark : Char) (cs : List Char) : Option (List Char) :=
  match Text.trimStart cs with
  | c :: cs => if c = mark then some cs else none
  | [] => none

def lenientOffset? (cs : List Char) : Option (Int × List Char) :=
  match cs with
  | u :: t :: c :: rest =>
    if u.toUpper = 'U' ∧ t.toUpper = 'T' ∧ c.toUpper = 'C' then some (0, rest)
    else (readOffset between cs).toOption
  | cs => (readOffset between cs).toOption
where
  between (cs : List Char) : Except Fault (List Char) :=
    .ok (cs.dropWhile fun c => c = ':' || Text.isBlank c)

/-- Reads a timestamp as `read` does, and also one with blanks between its parts, with fewer digits,
with a signed year of any length, or with `UTC` as its offset. -/
def readLenient? (text : String) : Option Instant := do
  let (year, cs) ← lenientYear? text.toList
  let cs ← lenientMark? '-' cs
  let (month, cs) ← lenientNumber? 2 cs
  let cs ← lenientMark? '-' cs
  let (day, cs) ← lenientNumber? 2 cs
  let date : Date := ⟨year, month, day⟩
  guard (date.isValid ∧ Instant.firstYear ≤ year ∧ year ≤ Instant.lastYear)
  let cs ← (readMark isDateMark cs).toOption
  let (hour, cs) ← lenientNumber? 2 cs
  let cs ← lenientMark? ':' cs
  let (minute, cs) ← lenientNumber? 2 cs
  let cs ← lenientMark? ':' cs
  let (second, cs) ← lenientNumber? 2 cs
  guard (hour ≤ 23 ∧ minute ≤ 59 ∧ second ≤ 60)
  let (nanos, cs) ← match cs with
    | '.' :: cs => (readNanos cs).toOption
    | cs => some (0, cs)
  let (offset, cs) ← lenientOffset? (Text.trimStart cs)
  guard (Text.trimStart cs).isEmpty
  guard (isOffset offset)
  let i := Instant.ofClock ⟨date, hour, minute, second, nanos⟩ offset
  guard (Instant.earliest ≤ i.seconds ∧ i.seconds ≤ Instant.latest)
  return i

end TagStore.Rfc3339
