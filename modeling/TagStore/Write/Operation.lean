import TagStore.Store.Error

namespace TagStore

inductive Condition where
  | absent
  | present
  | equals (name : String) (value : Json)

namespace Condition

/-- Whether the condition holds of the item now stored. -/
def holds : Condition → Option Item → Bool
  | .absent, current => current.isNone
  | .present, current => current.isSome
  | .equals name value, current =>
    match current.bind (·.find? name) with
    | some found => found.same value
    | none => false

end Condition

def Item.key (item : Item) : Except Invalid ItemKey :=
  match item.text? Attribute.partition, item.text? Attribute.sort with
  | some partition, some sort => .ok ⟨partition, sort⟩
  | none, _ => .error (.missingKey Attribute.partition)
  | _, none => .error (.missingKey Attribute.sort)

inductive WriteOp where
  /-- Stores a whole item in place of the one with its key. -/
  | put (item : Item) (condition : Option Condition)
  | delete (key : ItemKey) (condition : Option Condition)

namespace WriteOp

def key : WriteOp → Except Invalid ItemKey
  | .put item _ => item.key
  | .delete key _ => .ok key

def condition : WriteOp → Option Condition
  | .put _ condition => condition
  | .delete _ condition => condition

def isDelete : WriteOp → Bool
  | .put .. => false
  | .delete .. => true

/-- Whether the operation may be applied where `current` is stored. -/
def allowed (op : WriteOp) (current : Option Item) : Bool :=
  match op.condition with
  | some condition => condition.holds current
  | none => true

/-- Each operation with its key, if no two keys are equal and none is among `seen`. -/
def keyedApart (seen : List ItemKey) : List WriteOp → Except Invalid (List (ItemKey × WriteOp))
  | [] => .ok []
  | op :: ops => do
    let key ← op.key
    if key ∈ seen then throw (.repeatedKey key)
    let rest ← keyedApart (key :: seen) ops
    return (key, op) :: rest

/-- Each operation of a batch with its key. A batch is valid if it is neither empty nor too large and
every operation has a key of its own. -/
def keyed (ops : List WriteOp) : Except Invalid (List (ItemKey × WriteOp)) :=
  if ops.isEmpty then .error .emptyBatch
  else if maxBatch < ops.length then .error (.batchTooLarge ops.length)
  else keyedApart [] ops

end WriteOp

end TagStore
