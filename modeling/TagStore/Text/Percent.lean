import TagStore.Text.Utf8

namespace TagStore.Percent

def hexDigit? (n : Nat) : Option Nat :=
  if 48 ≤ n && n ≤ 57 then some (n - 48)
  else if 65 ≤ n && n ≤ 70 then some (n - 55)
  else if 97 ≤ n && n ≤ 102 then some (n - 87)
  else none

/-- The octet that two hexadecimal digits name. -/
def hexOctet? (high low : UInt8) : Option UInt8 := do
  let h ← hexDigit? high.toNat
  let l ← hexDigit? low.toNat
  return UInt8.ofNat (16 * h + l)

/-- A percent sign and two hexadecimal digits stand for an octet; any other percent sign stands for
itself. -/
def decodeOctets : List UInt8 → List UInt8
  | [] => []
  | a :: rest =>
    if a = 37 then
      match rest with
      | h :: l :: rest' =>
        match hexOctet? h l with
        | some b => b :: decodeOctets rest'
        | none => a :: decodeOctets (h :: l :: rest')
      | short => a :: short
    else a :: decodeOctets rest

def decode (s : String) : Except Utf8.Fault String :=
  Utf8.decode (decodeOctets (Utf8.encode s))

end TagStore.Percent
