namespace TagStore.Utf8

/-- The first place at which octets stop being UTF-8: an octet that cannot continue a character is told
from an end of input in the middle of one. -/
inductive Fault where
  /-- The `length` octets from `index` on begin no character. -/
  | invalid (length index : Nat)
  /-- The input ends inside the character that begins at `index`. -/
  | incomplete (index : Nat)
deriving DecidableEq, Repr

def Fault.message : Fault → String
  | .invalid length index => s!"invalid utf-8 sequence of {length} bytes from index {index}"
  | .incomplete index => s!"incomplete utf-8 byte sequence from index {index}"

def encode (s : String) : List UInt8 := s.toList.flatMap String.utf8EncodeChar

def isTail (n : Nat) : Bool := 0x80 ≤ n && n ≤ 0xBF

/-- The second octets that may follow a first octet, where a character of three or four octets
neither has a shorter form nor is a surrogate nor lies above U+10FFFF. -/
def isSecond (first second : Nat) : Bool :=
  if first = 0xE0 then 0xA0 ≤ second && second ≤ 0xBF
  else if first = 0xED then 0x80 ≤ second && second ≤ 0x9F
  else if first = 0xF0 then 0x90 ≤ second && second ≤ 0xBF
  else if first = 0xF4 then 0x80 ≤ second && second ≤ 0x8F
  else isTail second

/-- How many octets a character has that begins with this one; 0 if none does. -/
def width (first : Nat) : Nat :=
  if first < 0x80 then 1
  else if first < 0xC2 then 0
  else if first < 0xE0 then 2
  else if first < 0xF0 then 3
  else if first < 0xF5 then 4
  else 0

def decodeFrom (index : Nat) : List UInt8 → Except Fault (List Char)
  | [] => .ok []
  | a :: rest =>
    let a := a.toNat
    match width a with
    | 1 => (decodeFrom (index + 1) rest).map (Char.ofNat a :: ·)
    | 2 =>
      match rest with
      | [] => .error (.incomplete index)
      | b :: rest =>
        let b := b.toNat
        if !isTail b then .error (.invalid 1 index)
        else (decodeFrom (index + 2) rest).map (Char.ofNat ((a % 32) * 64 + b % 64) :: ·)
    | 3 =>
      match rest with
      | [] => .error (.incomplete index)
      | b :: rest =>
        let b := b.toNat
        if !isSecond a b then .error (.invalid 1 index)
        else match rest with
          | [] => .error (.incomplete index)
          | c :: rest =>
            let c := c.toNat
            if !isTail c then .error (.invalid 2 index)
            else (decodeFrom (index + 3) rest).map
              (Char.ofNat ((a % 16) * 4096 + (b % 64) * 64 + c % 64) :: ·)
    | 4 =>
      match rest with
      | [] => .error (.incomplete index)
      | b :: rest =>
        let b := b.toNat
        if !isSecond a b then .error (.invalid 1 index)
        else match rest with
          | [] => .error (.incomplete index)
          | c :: rest =>
            let c := c.toNat
            if !isTail c then .error (.invalid 2 index)
            else match rest with
              | [] => .error (.incomplete index)
              | d :: rest =>
                let d := d.toNat
                if !isTail d then .error (.invalid 3 index)
                else (decodeFrom (index + 4) rest).map
                  (Char.ofNat ((a % 8) * 262144 + (b % 64) * 4096 + (c % 64) * 64 + d % 64) :: ·)
    | _ => .error (.invalid 1 index)

def decode (octets : List UInt8) : Except Fault String :=
  (decodeFrom 0 octets).map String.ofList

end TagStore.Utf8
