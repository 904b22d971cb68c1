import TagStore.Error

namespace TagStore

structure ParentLink where
  /-- The parent's type. -/
  code : String
  /-- The field of the child that holds the parent's id. -/
  field : String
deriving DecidableEq, Repr

structure Versioning where
  parentCode : String
  /-- The field of the child that holds the parent's id. -/
  parentField : String
  /-- The field of the child that holds its time. -/
  orderField : String
deriving DecidableEq, Repr

structure ResourceType where
  code : String
  name : String
  searchable : List String := []
  parent : Option ParentLink := none
  versioning : Option Versioning := none
deriving DecidableEq, Repr

namespace ResourceType

/-- Codes that have a meaning of their own. -/
def internalCodes : List String := [Key.pointerCode, Key.tagCode, Key.tagMark]

def isCode (code : String) : Bool := !code.isEmpty && code.toList.all Char.isAlphanum

/-- The fields that hold ids of parents. -/
def parentFields (t : ResourceType) : List String :=
  (t.parent.map ParentLink.field).toList ++ (t.versioning.map Versioning.parentField).toList

/-- Whether the type can be registered. Fields that hold ids of parents have to be searchable, for
children are found by them. -/
def check (t : ResourceType) : Except Refusal Unit := do
  if !isCode t.code then throw (.code t.code)
  if t.code ∈ internalCodes then throw (.internalCode t.code)
  if let some field := t.searchable.find? Key.hasDelimiter then
    throw (.searchableDelimiter field t.name)
  if let some field := t.parentFields.find? fun f => f ∉ t.searchable then
    throw (.parentNotSearchable field t.name)
  if t.versioning.any fun v => v.parentField = v.orderField then throw (.orderedByParent t.name)

/-- The fields that stay as they were set. -/
def fixedFields (t : ResourceType) : List String :=
  (t.parent.map ParentLink.field).toList ++
    (t.versioning.map fun v => [v.parentField, v.orderField]).getD []

/-- The ways in which resources of this type are children of those with a code, by the fields that
hold the parent's id; no field counts twice. -/
def linksTo (t : ResourceType) (code : String) : List String :=
  let parent := ((t.parent.filter fun p => p.code = code).map ParentLink.field).toList
  let version :=
    ((t.versioning.filter fun v => v.parentCode = code).map Versioning.parentField).toList
  parent ++ version.filter fun f => f ∉ parent

end ResourceType

end TagStore
