import TagStore.Resource.Basic
import TagStore.Resource.Checks
import TagStore.Version.Ordering

namespace TagStore.Resource

/-- The value of a field as the value of a tag. -/
def scalarText? : Json → Option String
  | .string s => if s.isEmpty then none else some s
  | .number n => some n.text
  | .bool b => some (if b then "true" else "false")
  | _ => none

def searchText? (fields : Item) (field : String) : Option String :=
  (fields.find? field).bind scalarText?

/-- Searchable fields are tags too, under reserved names. -/
def reservedTags (t : ResourceType) (fields : Item) : List (String × String) :=
  t.searchable.filterMap fun field =>
    (searchText? fields field).map fun value => (Key.reserved field, value)

/-- What a canonical item says of its resource's history. -/
structure Audit where
  createdAt : Instant
  createdBy : String
  updated : Option (Instant × String)

/-- Times are stored to the millisecond. -/
def storedTime (i : Instant) : String := Rfc3339.write 3 i

namespace Audit

def attributes (a : Audit) : List (String × Json) :=
  [(Attribute.createdAt, .string (storedTime a.createdAt)),
    (Attribute.createdBy, .string a.createdBy)] ++
  match a.updated with
  | some (instant, user) =>
    [(Attribute.updatedAt, .string (storedTime instant)), (Attribute.updatedBy, .string user)]
  | none => []

end Audit

/-- Where a resource stands: its parent's id and its place among that parent's children. -/
def standing (v : Versioning) (fields : Item) : Except Refusal (String × String) := do
  let parentId ← Checks.requiredText fields v.parentField
  match fields.find? v.orderField with
  | none => throw (.missingField v.orderField)
  | some value => return (parentId, ← Version.orderingText value)

def placement (t : ResourceType) (fields : Item) : Except Refusal (List (String × String)) :=
  match t.versioning with
  | none => .ok []
  | some v => do
    let (parentId, ordering) ← standing v fields
    return Version.placement t.code v parentId ordering

/-- The item that holds the fields; its sort key is its partition. -/
def canonicalItem (t : ResourceType) (id : String) (fields : Item) (audit : Audit) :
    Except Refusal Item := do
  let key := Key.resource t.code id
  let place ← placement t fields
  return fields.insertAll (
    [(Attribute.partition, .string key), (Attribute.sort, .string key),
      (Attribute.kind, .string t.code), (Attribute.id, .string id)] ++
    audit.attributes ++ place.map fun (name, value) => (name, .string value))

def isCanonical (t : ResourceType) (item : Item) : Bool :=
  item.text? Attribute.kind = some t.code &&
    (item.text? Attribute.partition).isSome &&
    item.text? Attribute.partition = item.text? Attribute.sort

/-- A time that an item holds, if it holds one. -/
def readTime (item : Item) (name : String) : Except Invalid (Option Instant) :=
  match item.text? name with
  | none => .ok none
  | some text =>
    match Rfc3339.read text with
    | .ok instant => .ok (some instant)
    | .error fault => .error (.notATimestamp name fault)

/-- The resource that a canonical item and some tags make up. -/
def ofCanonical (t : ResourceType) (canonical : Item) (tags : Tags) : Except Invalid Resource :=
  match canonical.text? Attribute.id with
  | none => .error .canonicalWithoutId
  | some id => do
    match ← readTime canonical Attribute.createdAt with
    | none => throw (.neverCreated id)
    | some createdAt =>
      return {
        id
        code := t.code
        fields := canonical.filter fun name _ => !Checks.isManaged name
        tags
        createdAt
        createdBy := (canonical.text? Attribute.createdBy).getD ""
        updatedAt := ← readTime canonical Attribute.updatedAt
        updatedBy := canonical.text? Attribute.updatedBy
        latest := [] }

/-- The resource that some items make up, if a canonical one is among them. -/
def ofItems (t : ResourceType) (items : List Item) : Except Invalid (Option Resource) :=
  match items.find? (isCanonical t) with
  | none => .ok none
  | some canonical => (ofCanonical t canonical (Tag.assemble items .empty)).map some

end TagStore.Resource
