import TagStore.Json.Tree

namespace TagStore.Json

def maxDepth : Nat := 127

namespace Tree

mutual

/-- The value of a tree with at most `room` levels of arrays and objects. -/
def value? (room : Nat) : Tree → Option Json
  | .null => some .null
  | .bool b => some (.bool b)
  | .numeral n => n.number?.map .number
  | .string s => (pieceText? s).map .string
  | .array ts => if room = 0 then none else (values? (room - 1) ts).map .array
  | .object fs =>
    if room = 0 then none else (fields? (room - 1) fs).map fun fs => .object (Entries.ofList fs)

def values? (room : Nat) : List Tree → Option (List Json)
  | [] => some []
  | t :: ts => do
    let v ← value? room t
    let vs ← values? room ts
    return v :: vs

def fields? (room : Nat) : List (List Piece × Tree) → Option (List (String × Json))
  | [] => some []
  | (k, t) :: fs => do
    let key ← pieceText? k
    let v ← value? room t
    let rest ← fields? room fs
    return (key, v) :: rest

end

end Tree

def readOctets? (octets : List UInt8) : Option Json := do
  let tree ← tree? octets
  tree.value? maxDepth

/-- Arrays and objects may be nested up to `maxDepth` deep; of several fields with one key the last
counts. -/
def read? (text : String) : Option Json := readOctets? (Utf8.encode text)

end TagStore.Json
