import TagStore.Json.Writer
import TagStore.Store.Location
import TagStore.Store.TableName
import TagStore.Time.Rfc3339.Reader
import TagStore.Write.Reason

namespace TagStore

/-- Why a store refuses a request, or cannot make sense of an item. -/
inductive Invalid where
  | missingKey (name : String)
  | emptyBatch
  | batchTooLarge (count : Nat)
  | repeatedKey (key : ItemKey)
  | zeroLimit
  | indexAttribute (name : String) (value : Json)
  | pointerAttribute (key : ItemKey) (name : String)
  | childWithoutOrder (id : String)
  | canonicalWithoutId
  | notATimestamp (name : String) (fault : Rfc3339.Fault)
  | neverCreated (id : String)

/-- The most operations that one batch may have. -/
def maxBatch : Nat := 100

def Invalid.message : Invalid → String
  | .missingKey name => "item is missing string attribute '" ++ name ++ "'"
  | .emptyBatch => "transaction has no operations"
  | .batchTooLarge count =>
    "transaction has " ++ toString count ++ " operations, limit is " ++ toString maxBatch
  | .repeatedKey key => "transaction touches item " ++ key.text ++ " more than once"
  | .zeroLimit => "limit must be positive"
  | .indexAttribute name value =>
    "index attribute '" ++ name ++ "' must be a string, got " ++ value.compact
  | .pointerAttribute key name => "pointer item " ++ key.text ++ " is missing '" ++ name ++ "'"
  | .childWithoutOrder id => "child '" ++ id ++ "' has no ordering value"
  | .canonicalWithoutId => "canonical item has no 'id'"
  | .notATimestamp name fault =>
    "attribute '" ++ name ++ "' is not a timestamp: " ++ fault.message
  | .neverCreated id => "resource '" ++ id ++ "' has no createdAt"

inductive StoreError where
  | invalid (cause : Invalid)
  | conditionFailed (key : ItemKey)
  | cancelled (reasons : List Reason)
  | tableName (fault : TableName.Fault)
  | location (fault : Location.Fault)
  | unavailable (message : String)
  /-- The database refused a statement or gave back what cannot be read. -/
  | database
  | file
  /-- A stored document is not readable. -/
  | document

def StoreError.message : StoreError → String
  | .invalid cause => "Validation error: " ++ cause.message
  | .conditionFailed key => "Condition failed for item " ++ key.text
  | .cancelled reasons => "Transaction cancelled: " ++ Reason.listText reasons
  | .tableName fault => "Invalid table name: " ++ fault.message
  | .location fault => "Invalid store URL: " ++ fault.message
  | .unavailable message => "Store unavailable: " ++ message
  | .database => "Database error"
  | .file => "IO error"
  | .document => "Serialization error"

end TagStore
