import TagStore.Item.Basic

namespace TagStore

inductive Reason.Code where
  /-- Another operation is to blame. -/
  | none
  | conditionFailed
  | conflict
deriving DecidableEq, Repr

structure Reason where
  code : Reason.Code
  key : ItemKey
  message : Option String
deriving DecidableEq, Repr

namespace Reason

def Code.text : Code → String
  | .none => "None"
  | .conditionFailed => "ConditionalCheckFailed"
  | .conflict => "TransactionConflict"

def fine (key : ItemKey) : Reason := ⟨.none, key, none⟩

def conditionFailed (key : ItemKey) : Reason :=
  ⟨.conditionFailed, key, some "The conditional request failed"⟩

def conflict (message : String) (key : ItemKey) : Reason := ⟨.conflict, key, some message⟩

def isFailure (r : Reason) : Bool := r.code != .none

def text (r : Reason) : String :=
  let head := r.code.text ++ " " ++ r.key.text
  match r.message with
  | some message => head ++ ": " ++ message
  | none => head

/-- The texts of some reasons as one list. -/
def listText (reasons : List Reason) : String :=
  "[" ++ String.intercalate ", " (reasons.map text) ++ "]"

end Reason

end TagStore
