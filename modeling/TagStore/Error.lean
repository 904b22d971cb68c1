import TagStore.Key
import TagStore.Store.Error
import TagStore.Text.Utf8

namespace TagStore

/-- Why a request can never succeed as it is put. -/
inductive Refusal where
  | pageSize
  | count
  | noFilter
  | token (text : String)
  | defaultPageSize
  | chunk
  | code (name : String)
  | internalCode (name : String)
  | searchableDelimiter (field type : String)
  | parentNotSearchable (field type : String)
  | orderedByParent (type : String)
  | unknownType (name : String)
  | emptyField
  | managedField (field : String)
  | emptyTag
  | tagDelimiter (name : String)
  | reservedTag (name : String)
  | missingField (field : String)
  | orderingNotText (value : Json)
  | orderingNotATime (text : String) (fault : Rfc3339.Fault)
  | fixedField (field : String)
  | noVersionedChildren (type : String)
  | notSearchable (type field : String)
  | notVersioned (type : String)
  | notAPair (text : String)
  | pairWithoutName (text : String)
  | encoding (text : String) (fault : Utf8.Fault)

def Refusal.message : Refusal → String
  | .pageSize => "page size must be positive"
  | .count => "count must be positive"
  | .noFilter => "at least one tag filter is required"
  | .token text => "invalid pagination token '" ++ text ++ "'"
  | .defaultPageSize => "default page size must be positive"
  | .chunk => "batch select chunk must be positive"
  | .code name => "resource type prefix '" ++ name ++ "' must be non-empty and alphanumeric"
  | .internalCode name => "resource type prefix '" ++ name ++ "' is reserved"
  | .searchableDelimiter field type =>
    "searchable field '" ++ field ++ "' of '" ++ type ++ "' contains ':'"
  | .parentNotSearchable field type =>
    "parent field '" ++ field ++ "' of '" ++ type ++ "' must be searchable"
  | .orderedByParent type =>
    "resource type '" ++ type ++ "' orders latest children by its parent field"
  | .unknownType name => "unknown resource type '" ++ name ++ "'"
  | .emptyField => "field names must not be empty"
  | .managedField field => "field '" ++ field ++ "' is managed by the store"
  | .emptyTag => "tag keys must not be empty"
  | .tagDelimiter name => "tag key '" ++ name ++ "' must not contain ':'"
  | .reservedTag name => "tag key '" ++ name ++ "' uses the reserved prefix"
  | .missingField field => "field '" ++ field ++ "' is required"
  | .orderingNotText value => "ordering value " ++ value.compact ++ " is not a string"
  | .orderingNotATime text fault =>
    "ordering value '" ++ text ++ "' is not an RFC 3339 timestamp: " ++ fault.message
  | .fixedField field => "field '" ++ field ++ "' cannot be changed"
  | .noVersionedChildren type => type ++ " has no versioned children"
  | .notSearchable type field => type ++ " cannot be filtered by '" ++ field ++ "'"
  | .notVersioned type => type ++ " has no latest version"
  | .notAPair text => "tag filter '" ++ text ++ "' is not key:value"
  | .pairWithoutName text => "tag filter '" ++ text ++ "' has an empty key"
  | .encoding text fault => "invalid tag encoding '" ++ text ++ "': " ++ fault.message

inductive Error where
  | notFound (type id : String)
  | refused (cause : Refusal)
  | hasChildren (type id childType : String)
  /-- The store cancelled every attempt; the reasons are those of the last one. -/
  | cancelled (reasons : List Reason)
  | store (cause : StoreError)

namespace Error

def message : Error → String
  | .notFound type id => type ++ " '" ++ id ++ "' not found"
  | .refused cause => "Invalid request: " ++ cause.message
  | .hasChildren type id childType =>
    "Invalid state: " ++ type ++ " '" ++ id ++ "' still has " ++ childType ++ " children"
  | .cancelled reasons =>
    "Database transaction failed: " ++ Reason.listText (reasons.filter Reason.isFailure)
  | .store cause => cause.message

def invalid (cause : Invalid) : Error := .store (.invalid cause)

end Error

end TagStore
