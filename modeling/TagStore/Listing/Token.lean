import TagStore.Error
import TagStore.Json.Reader
import TagStore.Read.Request
import TagStore.Text.Base64Url

namespace TagStore

namespace IndexPosition

def json (p : IndexPosition) : Json :=
  .object [("hash", .string p.hash), ("range", .string p.range)]

end IndexPosition

namespace StartKey

def json (s : StartKey) : Json :=
  .object ([("pk", .string s.partition), ("sk", .string s.sort)] ++
    (s.index.map fun p => ("index", p.json)).toList)

end StartKey

namespace Json.Tree

def text? : Tree → Option String
  | .string pieces => pieceText? pieces
  | _ => none

/-- The fields of an object with their names. -/
def named? : List (List Piece × Tree) → Option (List (String × Tree))
  | [] => some []
  | (k, t) :: fs => do
    let key ← pieceText? k
    let rest ← named? fs
    return (key, t) :: rest

/-- A field that may be missing but not repeated: `some none` if it is missing. -/
def single? (name : String) (fields : List (String × Tree)) : Option (Option Tree) :=
  match fields.filter fun f => f.1 = name with
  | [] => some none
  | [f] => some (some f.2)
  | _ => none

/-- The values of some fields, by their names in an object or by their places in an array. -/
def members? (names : List String) : Tree → Option (List (Option Tree))
  | .object fields => do
    let fields ← named? fields
    names.mapM fun name => single? name fields
  | .array elements =>
    if names.length < elements.length then none
    else some ((elements.map some) ++ List.replicate (names.length - elements.length) none)
  | _ => none

def indexPosition? (t : Tree) : Option IndexPosition := do
  match ← members? ["hash", "range"] t with
  | [some hash, some range] => return ⟨← hash.text?, ← range.text?⟩
  | _ => none

def startKey? (t : Tree) : Option StartKey := do
  match ← members? ["pk", "sk", "index"] t with
  | [some pk, some sk, index] =>
    let index ← match index with
      | none => some none
      | some .null => some none
      | some t => (indexPosition? t).map some
    return ⟨← pk.text?, ← sk.text?, index⟩
  | _ => none

end Json.Tree

namespace Listing

/-- A start key as a JSON document in base64. -/
def token (s : StartKey) : String :=
  String.ofList (Base64Url.encode (Utf8.encode s.json.compact))

/-- Fields that a start key does not have do not count, but none that it has may be given twice. -/
def readToken (token : String) : Except Refusal StartKey :=
  match (do Json.Tree.startKey? (← Json.tree? (← Base64Url.decode token.toList)) : Option StartKey) with
  | some s => .ok s
  | none => .error (.token token)

end Listing

end TagStore
