import TagStore.Read.Selection
import TagStore.Store.Basic

namespace TagStore

inductive Fault where
  /-- As if another writer held every item of the batch. -/
  | conflict
  | unavailable (message : String)
deriving DecidableEq, Repr

structure Memory where
  items : SortedMap ItemKey Item
  /-- Each batch that is valid takes one fault, if there is one, and fails with it. -/
  faults : List Fault
deriving Inhabited

namespace Memory

def empty : Memory := ⟨.empty, []⟩

def places : Selection.Places Item := fun index _ item => do
  let hash ← item.text? index.hash
  let range ← item.text? index.range
  return (hash, range)

/-- The first rows, as many as the limit allows. -/
def page (limit : Option Nat) (rows : List (StartKey × Item)) : Page :=
  match limit with
  | none => ⟨rows.map Prod.snd, none⟩
  | some n =>
    let taken := rows.take n
    ⟨taken.map Prod.snd, if n < rows.length then taken.getLast?.map Prod.fst else none⟩

def read (m : Memory) (r : Read) : Except StoreError Page := do
  r.checkLimit
  return page r.limit (Selection.select places m.items.entries r.start r.range)

def conflictMessage : String := "Transaction is ongoing for the item"

def reason (items : SortedMap ItemKey Item) : ItemKey × WriteOp → Reason
  | (key, op) => if op.allowed (items.find? key) then .fine key else .conditionFailed key

def apply (items : SortedMap ItemKey Item) : ItemKey × WriteOp → SortedMap ItemKey Item
  | (key, .put item _) => items.insert key item
  | (key, .delete _ _) => items.erase key

def transact (m : Memory) (ops : List WriteOp) : Except StoreError Unit × Memory :=
  match WriteOp.keyed ops with
  | .error cause => (.error (.invalid cause), m)
  | .ok keyed =>
    match m.faults with
    | .conflict :: faults =>
      (.error (.cancelled (keyed.map fun e => .conflict conflictMessage e.1)), { m with faults })
    | .unavailable message :: faults => (.error (.unavailable message), { m with faults })
    | [] =>
      let reasons := keyed.map (reason m.items)
      if reasons.any Reason.isFailure then (.error (.cancelled reasons), m)
      else (.ok (), { m with items := keyed.foldl apply m.items })

instance : Store Memory where
  name _ := "memory"
  get m key := .ok (m.items.find? key)
  read := read
  transact := transact
  size m := m.items.size

/-- Queues a fault for the next batch that has none yet. -/
def inject (m : Memory) (fault : Fault) : Memory := { m with faults := m.faults ++ [fault] }

def injectConflicts (m : Memory) (count : Nat) : Memory :=
  { m with faults := m.faults ++ List.replicate count .conflict }

end Memory

end TagStore
