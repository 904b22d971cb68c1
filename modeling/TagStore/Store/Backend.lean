import TagStore.Store.Database
import TagStore.Store.Memory

namespace TagStore

inductive Backend where
  | memory (store : Memory)
  | database (store : Database)

namespace Backend

def get : Backend → ItemKey → Except StoreError (Option Item)
  | .memory m, key => Store.get m key
  | .database d, key => Store.get d key

def read : Backend → Read → Except StoreError Page
  | .memory m, r => Store.read m r
  | .database d, r => Store.read d r

def transact : Backend → List WriteOp → Except StoreError Unit × Backend
  | .memory m, ops => let (answer, m) := Store.transact m ops; (answer, .memory m)
  | .database d, ops => let (answer, d) := Store.transact d ops; (answer, .database d)

instance : Store Backend where
  name
    | .memory m => Store.name m
    | .database d => Store.name d
  get := get
  read := read
  transact := transact
  size
    | .memory m => Store.size m
    | .database d => Store.size d

/-- All items in key order, those aside that cannot be read. -/
def items : Backend → List Item
  | .memory m => m.items.values
  | .database d => d.rows.values.filterMap Row.item?

end Backend

end TagStore
