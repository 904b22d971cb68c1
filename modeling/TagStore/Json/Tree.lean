import TagStore.Json.Token

namespace TagStore.Json

/-- The syntax of a JSON text, before strings and numerals are given a meaning. An object keeps all
fields in the order written. -/
inductive Tree where
  | null
  | bool (value : Bool)
  | numeral (value : Numeral)
  | string (pieces : List Piece)
  | array (elements : List Tree)
  | object (fields : List (List Piece × Tree))
deriving Repr

/-- An array or object that is still open, with what it holds so far in reverse; an object waits for
the value of `key`. -/
inductive Open where
  | array (done : List Tree)
  | object (done : List (List Piece × Tree)) (key : List Piece)

/-- What may come next. -/
inductive Expect where
  | value
  /-- A value, or the end of the array just opened. -/
  | element
  | key (done : List (List Piece × Tree))
  /-- A key, or the end of the object just opened. -/
  | field
  | colon (done : List (List Piece × Tree)) (key : List Piece)
  /-- A comma or the end of what is open, after the value. -/
  | after (value : Tree)

/-- What to expect after a token, with the open arrays and objects, innermost first. -/
def advance (stack : List Open) : Expect → Token → Option (List Open × Expect)
  | .value, .null => some (stack, .after .null)
  | .value, .bool b => some (stack, .after (.bool b))
  | .value, .numeral n => some (stack, .after (.numeral n))
  | .value, .string s => some (stack, .after (.string s))
  | .value, .openArray => some (stack, .element)
  | .value, .openObject => some (stack, .field)
  | .element, .closeArray => some (stack, .after (.array []))
  | .element, .null => some (.array [] :: stack, .after .null)
  | .element, .bool b => some (.array [] :: stack, .after (.bool b))
  | .element, .numeral n => some (.array [] :: stack, .after (.numeral n))
  | .element, .string s => some (.array [] :: stack, .after (.string s))
  | .element, .openArray => some (.array [] :: stack, .element)
  | .element, .openObject => some (.array [] :: stack, .field)
  | .key done, .string k => some (stack, .colon done k)
  | .field, .string k => some (stack, .colon [] k)
  | .field, .closeObject => some (stack, .after (.object []))
  | .colon done k, .colon => some (.object done k :: stack, .value)
  | .after v, .comma =>
    match stack with
    | .array done :: rest => some (.array (v :: done) :: rest, .value)
    | .object done k :: rest => some (rest, .key ((k, v) :: done))
    | [] => none
  | .after v, .closeArray =>
    match stack with
    | .array done :: rest => some (rest, .after (.array (v :: done).reverse))
    | _ => none
  | .after v, .closeObject =>
    match stack with
    | .object done k :: rest => some (rest, .after (.object ((k, v) :: done).reverse))
    | _ => none
  | _, _ => none

/-- One pass over the tokens, with the arrays and objects that are open on a stack. -/
def build (stack : List Open) (expect : Expect) : List Token → Option Tree
  | [] =>
    match stack, expect with
    | [], .after v => some v
    | _, _ => none
  | t :: ts =>
    match advance stack expect t with
    | none => none
    | some (stack, expect) => build stack expect ts

/-- The syntax tree of a whole text. -/
def tree? (octets : List UInt8) : Option Tree := do
  let ts ← tokens? octets
  build [] .value ts

end TagStore.Json
