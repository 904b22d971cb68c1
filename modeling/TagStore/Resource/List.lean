import TagStore.Resource.Find
import TagStore.Tag.Search

namespace TagStore

/-- What a listing is to hold. -/
structure ListQuery where
  tags : Tags := .empty
  /-- Values of searchable fields. -/
  fields : SortedMap String String := .empty
  /-- Only resources that are the newest child of their parent. -/
  latestOnly : Bool := false
  /-- With the newest children of each resource. -/
  withLatest : Bool := false
  count : Option Nat := none
  token : Option String := none

namespace Resource
variable {σ : Type} [Store σ]

/-- The reserved tags that stand for values of searchable fields. -/
def fieldTags (t : ResourceType) : List (String × String) →
    Except Refusal (List (String × String))
  | [] => .ok []
  | (field, value) :: rest => do
    if field ∉ t.searchable then throw (.notSearchable t.name field)
    return (Key.reserved field, value) :: (← fieldTags t rest)

/-- The types whose newest children go with each resource. -/
def attachedTypes (setup : Setup) (t : ResourceType) (q : ListQuery) :
    Except Refusal (List ResourceType) :=
  if q.withLatest then
    match setup.catalog.versionedChildren t.code with
    | [] => .error (.noVersionedChildren t.name)
    | types => .ok types
  else .ok []

/-- The tags that a query asks for. -/
def queryTags (t : ResourceType) (q : ListQuery) : Except Refusal Tags := do
  let tags := q.tags.insertAll (← fieldTags t q.fields.entries)
  if q.latestOnly then
    if t.versioning.isNone then throw (.notVersioned t.name)
    return tags.insert Key.latestTag Key.latestValue
  return tags

/-- A page of ids that carry some tags; all of a type's if there are none. -/
def pageOfIds (s : σ) (code : String) (count : Nat) (tags : Tags) (token : Option String) :
    Except Error (List String × Option String) := do
  if tags.isEmpty then Listing.page s code count token
  else
    let found ← Tag.searchAll s code count tags token
    return (found.ids, found.next)

/-- A resource with its newest children of some types. -/
def attach (setup : Setup) (s : σ) (r : Resource) : List ResourceType → Except Error Resource
  | [] => .ok r
  | t :: ts => do
    match ← latestChild setup s t.code r.id with
    | none => attach setup s r ts
    | some child => attach setup s { r with latest := r.latest ++ [(t.code, child)] } ts

/-- The resources that groups of items make up; a group without a canonical item makes up none. -/
def ofGroups (setup : Setup) (s : σ) (t : ResourceType) (attached : List ResourceType) :
    List (String × List Item) → Except Error (List Resource)
  | [] => .ok []
  | (_, items) :: groups => do
    match ← (ofItems t items).mapError Error.invalid with
    | none => ofGroups setup s t attached groups
    | some r =>
      let r ← attach setup s r attached
      return r :: (← ofGroups setup s t attached groups)

def list (setup : Setup) (s : σ) (code : String) (q : ListQuery) : Except Error ResourcePage := do
  let t ← findType setup code
  let count := q.count.getD setup.settings.pageSize
  if count = 0 then throw (.refused .count)
  (Checks.each Checks.tagDelimiter q.tags.keys).mapError .refused
  let attached ← (attachedTypes setup t q).mapError Error.refused
  let tags ← (queryTags t q).mapError Error.refused
  let (ids, next) ← pageOfIds s code count tags q.token
  let items ← (Listing.itemsOf s setup.settings.chunk code ids).mapError Error.store
  let resources ← ofGroups setup s t attached (Listing.group code items ids)
  return ⟨resources, next⟩

end Resource

end TagStore
