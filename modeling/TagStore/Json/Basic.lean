import TagStore.Decimal.Binary64
import TagStore.SortedMap

namespace TagStore

/-- Integers and floating-point numbers are different even where they denote the same number. -/
inductive Number where
  | int (value : Int)
  | float (value : Binary64)
deriving DecidableEq, Repr

/-- The fields of an object that was read are in ascending key order, each key once; an object that is
only to be written keeps the order it was given. -/
inductive Json where
  | null
  | bool (value : Bool)
  | number (value : Number)
  | string (value : String)
  | array (elements : List Json)
  | object (fields : List (String × Json))
deriving Inhabited, Repr

namespace Number

/-- The two floating-point zeros are the same number; an integer is never a floating-point one. -/
def same : Number → Number → Bool
  | .int m, .int n => m = n
  | .float x, .float y => x.same y
  | _, _ => false

end Number

namespace Json

def string? : Json → Option String
  | .string s => some s
  | _ => none

def isNull : Json → Bool
  | .null => true
  | _ => false

def strings (texts : List String) : Json := .array (texts.map .string)

def ofOption (f : α → Json) : Option α → Json
  | none => .null
  | some a => f a

def ofMap (m : SortedMap String Json) : Json := .object m.entries

mutual

def same : Json → Json → Bool
  | .null, .null => true
  | .bool a, .bool b => a == b
  | .number a, .number b => a.same b
  | .string a, .string b => a == b
  | .array as, .array bs => sameElements as bs
  | .object as, .object bs => sameFields as bs
  | _, _ => false

def sameElements : List Json → List Json → Bool
  | [], [] => true
  | a :: as, b :: bs => same a b && sameElements as bs
  | _, _ => false

def sameFields : List (String × Json) → List (String × Json) → Bool
  | [], [] => true
  | (k, a) :: as, (l, b) :: bs => k == l && same a b && sameFields as bs
  | _, _ => false

end

end Json

end TagStore
