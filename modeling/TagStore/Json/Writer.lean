import TagStore.Decimal.Shortest
import TagStore.Json.Basic

namespace TagStore

namespace Decimal

def zeros (n : Nat) : String := String.ofList (List.replicate n '0')

/-- Positional between `10 ^ -5` and `10 ^ 16`, always with a point; else one digit before the
point, if more follow, and a signed exponent. -/
def text (d : Decimal) : String :=
  let ds := (Nat.toDigits 10 d.digits)
  let n : Int := ds.length
  let point := n + d.exponent
  if 0 ≤ d.exponent ∧ point ≤ 16 then String.ofList ds ++ zeros d.exponent.toNat ++ ".0"
  else if 0 < point ∧ point ≤ 16 then
    String.ofList (ds.take point.toNat) ++ "." ++ String.ofList (ds.drop point.toNat)
  else if -5 < point ∧ point ≤ 0 then "0." ++ zeros (-point).toNat ++ String.ofList ds
  else
    let lead := String.ofList (ds.take 1)
    let rest := ds.drop 1
    let fraction := if rest.isEmpty then "" else "." ++ String.ofList rest
    let power := point - 1
    let sign := if power < 0 then "-" else "+"
    lead ++ fraction ++ "e" ++ sign ++ toString power.natAbs

end Decimal

def Binary64.text (x : Binary64) : String :=
  (if x.negative then "-" else "") ++ (Decimal.shortest x).text

def Number.text : Number → String
  | .int n => toString n
  | .float x => x.text

namespace Json

def hexDigit (n : Nat) : Char := Char.ofNat (if n < 10 then 48 + n else 87 + n)

/-- What a character is written as inside quotation marks. -/
def quotedChar (c : Char) : List Char :=
  if c = '"' then ['\\', '"']
  else if c = '\\' then ['\\', '\\']
  else if 32 ≤ c.toNat then [c]
  else if c = '\n' then ['\\', 'n']
  else if c = '\r' then ['\\', 'r']
  else if c = '\t' then ['\\', 't']
  else if c.toNat = 8 then ['\\', 'b']
  else if c.toNat = 12 then ['\\', 'f']
  else ['\\', 'u', '0', '0', hexDigit (c.toNat / 16), hexDigit (c.toNat % 16)]

/-- Only quotation marks, backslashes and control characters are escaped. -/
def quoted (s : String) : String := String.ofList ('"' :: s.toList.flatMap quotedChar ++ ['"'])

mutual

def compact : Json → String
  | .null => "null"
  | .bool b => if b then "true" else "false"
  | .number n => n.text
  | .string s => quoted s
  | .array elements => "[" ++ String.intercalate "," (compactElements elements) ++ "]"
  | .object fields => "\x7b" ++ String.intercalate "," (compactFields fields) ++ "\x7d"

def compactElements : List Json → List String
  | [] => []
  | v :: vs => compact v :: compactElements vs

def compactFields : List (String × Json) → List String
  | [] => []
  | (k, v) :: fs => (quoted k ++ ":" ++ compact v) :: compactFields fs

end

def lineBreak (level : Nat) : String := "\n" ++ String.ofList (List.replicate (2 * level) ' ')

mutual

/-- The laid out form at a level of indentation. -/
def pretty (level : Nat) : Json → String
  | .null => "null"
  | .bool b => if b then "true" else "false"
  | .number n => n.text
  | .string s => quoted s
  | .array elements =>
    if elements.isEmpty then "[]"
    else
      let inner := lineBreak (level + 1)
      "[" ++ inner ++ String.intercalate ("," ++ inner) (prettyElements (level + 1) elements) ++
        lineBreak level ++ "]"
  | .object fields =>
    if fields.isEmpty then "\x7b\x7d"
    else
      let inner := lineBreak (level + 1)
      "\x7b" ++ inner ++ String.intercalate ("," ++ inner) (prettyFields (level + 1) fields) ++
        lineBreak level ++ "\x7d"

def prettyElements (level : Nat) : List Json → List String
  | [] => []
  | v :: vs => pretty level v :: prettyElements level vs

def prettyFields (level : Nat) : List (String × Json) → List String
  | [] => []
  | (k, v) :: fs => (quoted k ++ ": " ++ pretty level v) :: prettyFields level fs

end

end Json

end TagStore
