import TagStore.Text.Digits
import TagStore.Time.Instant

namespace TagStore.Rfc3339

/-- What is wrong with a text; of several faults the reader tells the first that it meets. -/
inductive Fault where
  | invalid
  | outOfRange
  | tooShort
  | tooLong
deriving DecidableEq, Repr

def Fault.message : Fault → String
  | .invalid => "input contains invalid characters"
  | .outOfRange => "input is out of range"
  | .tooShort => "premature end of input"
  | .tooLong => "trailing input"

/-- Reads exactly `n` digits; `value` is that of the digits before. -/
def readDigits (value : Nat) : (n : Nat) → List Char → Except Fault (Nat × List Char)
  | 0, cs => .ok (value, cs)
  | _ + 1, [] => .error .tooShort
  | n + 1, c :: cs =>
    match Digits.value? c with
    | some d => readDigits (10 * value + d) n cs
    | none => .error .invalid

def readMark (isMark : Char → Bool) : List Char → Except Fault (List Char)
  | [] => .error .tooShort
  | c :: cs => if isMark c then .ok cs else .error .invalid

/-- Up to `n` digits. -/
def leadingDigits : (n : Nat) → List Char → List Nat × List Char
  | 0, cs => ([], cs)
  | _ + 1, [] => ([], [])
  | n + 1, c :: cs =>
    match Digits.value? c with
    | some d => let (ds, rest) := leadingDigits n cs; (d :: ds, rest)
    | none => ([], c :: cs)

/-- The digits of a fraction of a second, as nanoseconds; those after the ninth are dropped. -/
def readNanos (cs : List Char) : Except Fault (Nat × List Char) :=
  match leadingDigits 9 cs with
  | ([], []) => .error .tooShort
  | ([], _) => .error .invalid
  | (ds, rest) =>
    .ok (Digits.toNat ds * Nat.pow 10 (9 - ds.length), rest.dropWhile fun c => (Digits.value? c).isSome)

/-- Two digits of hours or minutes of an offset, the first below `limit`. -/
def readOffsetPart (limit : Nat) : List Char → Except Fault (Nat × List Char)
  | a :: b :: cs =>
    match Digits.value? a, Digits.value? b with
    | some x, some y => if x < limit then .ok (10 * x + y, cs) else .error .outOfRange
    | _, _ => .error .invalid
  | [c] => if c.utf8Size < 2 then .error .tooShort else .error .invalid
  | [] => .error .tooShort

/-- An offset from UTC in seconds: `Z`, or hours and minutes with a sign, which may be the
typographic minus. `between` reads what separates hours and minutes. -/
def readOffset (between : List Char → Except Fault (List Char)) :
    List Char → Except Fault (Int × List Char)
  | [] => .error .tooShort
  | c :: cs =>
    if c = 'Z' ∨ c = 'z' then .ok (0, cs)
    else if c = '+' ∨ c = '-' ∨ c = '−' then do
      let (hours, cs) ← readOffsetPart 10 cs
      let cs ← between cs
      let (minutes, cs) ← readOffsetPart 6 cs
      let seconds : Int := hours * 3600 + minutes * 60
      return (if c = '+' then seconds else -seconds, cs)
    else .error .invalid

/-- Offsets are less than a day. -/
def isOffset (seconds : Int) : Bool := -Instant.secondsPerDay < seconds && seconds < Instant.secondsPerDay

def isDateMark (c : Char) : Bool := c = 'T' || c = 't' || c = ' '

/-- The least number of octets of a date and a time of day to the second. -/
def leastSize : Nat := 19

/-- Reads a timestamp with a year of four digits. -/
def read (text : String) : Except Fault Instant := do
  if text.utf8ByteSize < leastSize then throw .tooShort
  let (year, cs) ← readDigits 0 4 text.toList
  let cs ← readMark (· = '-') cs
  let (month, cs) ← readDigits 0 2 cs
  let cs ← readMark (· = '-') cs
  let (day, cs) ← readDigits 0 2 cs
  let date : Date := ⟨year, month, day⟩
  if !date.isValid then throw .outOfRange
  let cs ← readMark isDateMark cs
  let (hour, cs) ← readDigits 0 2 cs
  let cs ← readMark (· = ':') cs
  let (minute, cs) ← readDigits 0 2 cs
  let cs ← readMark (· = ':') cs
  let (second, cs) ← readDigits 0 2 cs
  let (nanos, cs) ← match cs with
    | '.' :: cs => readNanos cs
    | cs => pure (0, cs)
  if 23 < hour ∨ 59 < minute ∨ 60 < second then throw .outOfRange
  let (offset, cs) ← readOffset (readMark (· = ':')) cs
  if !cs.isEmpty then throw .tooLong
  if !isOffset offset then throw .outOfRange
  return Instant.ofClock ⟨date, hour, minute, second, nanos⟩ offset

end TagStore.Rfc3339
