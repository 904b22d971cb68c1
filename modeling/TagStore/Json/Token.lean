import TagStore.Json.Numeral
import TagStore.Text.Percent

namespace TagStore.Json

/-- One piece of a written string: an octet that stands for itself or for which a short escape
stands, or a 16-bit unit in hexadecimal. -/
inductive Piece where
  | octet (value : UInt8)
  | unit (value : Nat)
deriving DecidableEq, Repr

/-- A string token keeps what was written, octet by octet and escape by escape: whether that is Unicode
text is asked only where the string is used. -/
inductive Token where
  | openArray
  | closeArray
  | openObject
  | closeObject
  | comma
  | colon
  | null
  | bool (value : Bool)
  | numeral (value : Numeral)
  | string (pieces : List Piece)
deriving DecidableEq, Repr

/-- Where the scan stands between two octets; what was read of an unfinished token is in reverse. -/
inductive Scan where
  | between
  | word (read : List UInt8)
  | string (read : List Piece)
  | escape (read : List Piece)
  | hex (digits value : Nat) (read : List Piece)

/-- Letters, digits, signs and points: what words and numerals are made of. -/
def isWordOctet (b : UInt8) : Bool :=
  let n := b.toNat
  (97 ≤ n && n ≤ 122) || (48 ≤ n && n ≤ 57) || n == 45 || n == 43 || n == 46 || n == 69

def isSpace (b : UInt8) : Bool := b == 32 || b == 10 || b == 13 || b == 9

def wordToken? (word : List UInt8) : Option Token :=
  if word = [110, 117, 108, 108] then some .null
  else if word = [116, 114, 117, 101] then some (.bool true)
  else if word = [102, 97, 108, 115, 101] then some (.bool false)
  else (Numeral.read? word).map .numeral

def markToken? (b : UInt8) : Option Token :=
  if b = 91 then some .openArray
  else if b = 93 then some .closeArray
  else if b = 123 then some .openObject
  else if b = 125 then some .closeObject
  else if b = 44 then some .comma
  else if b = 58 then some .colon
  else none

/-- The octet that a short escape stands for. -/
def escaped? (b : UInt8) : Option UInt8 :=
  if b = 34 ∨ b = 92 ∨ b = 47 then some b
  else if b = 98 then some 8
  else if b = 102 then some 12
  else if b = 110 then some 10
  else if b = 114 then some 13
  else if b = 116 then some 9
  else none

/-- The step from between two tokens. -/
def enter (b : UInt8) (out : List Token) : Option (Scan × List Token) :=
  if isSpace b then some (.between, out)
  else if b = 34 then some (.string [], out)
  else if isWordOctet b then some (.word [b], out)
  else (markToken? b).map fun t => (.between, t :: out)

def step (b : UInt8) (out : List Token) : Scan → Option (Scan × List Token)
  | .between => enter b out
  | .word read =>
    if isWordOctet b then some (.word (b :: read), out)
    else do
      let token ← wordToken? read.reverse
      enter b (token :: out)
  | .string read =>
    if b = 34 then some (.between, .string read.reverse :: out)
    else if b = 92 then some (.escape read, out)
    else if b < 32 then none
    else some (.string (.octet b :: read), out)
  | .escape read =>
    if b = 117 then some (.hex 0 0 read, out)
    else (escaped? b).map fun c => (.string (.octet c :: read), out)
  | .hex digits value read => do
    let d ← Percent.hexDigit? b.toNat
    let value := 16 * value + d
    if digits = 3 then some (.string (.unit value :: read), out)
    else some (.hex (digits + 1) value read, out)

/-- Scans the input; `out` holds the tokens so far in reverse. -/
def scan (state : Scan) (out : List Token) : List UInt8 → Option (List Token)
  | [] =>
    match state with
    | .between => some out.reverse
    | .word read => (wordToken? read.reverse).map fun t => (t :: out).reverse
    | _ => none
  | b :: rest =>
    match step b out state with
    | none => none
    | some (state, out) => scan state out rest

def tokens? (octets : List UInt8) : Option (List Token) := scan .between [] octets

def isHighSurrogate (n : Nat) : Bool := 0xD800 ≤ n && n ≤ 0xDBFF

def isLowSurrogate (n : Nat) : Bool := 0xDC00 ≤ n && n ≤ 0xDFFF

/-- The octets of a written string; surrogates must come in pairs. -/
def pieceOctets? : List Piece → Option (List UInt8)
  | [] => some []
  | .octet b :: rest => (pieceOctets? rest).map (b :: ·)
  | .unit high :: rest =>
    if isLowSurrogate high then none
    else if isHighSurrogate high then
      match rest with
      | .unit low :: rest' =>
        if isLowSurrogate low then
          let c := Char.ofNat (0x10000 + (high - 0xD800) * 0x400 + (low - 0xDC00))
          (pieceOctets? rest').map (String.utf8EncodeChar c ++ ·)
        else none
      | _ => none
    else (pieceOctets? rest).map (String.utf8EncodeChar (Char.ofNat high) ++ ·)

def pieceText? (pieces : List Piece) : Option String := do
  let octets ← pieceOctets? pieces
  (Utf8.decode octets).toOption

end TagStore.Json
