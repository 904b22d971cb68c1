import TagStore.Resource.Find
import TagStore.Resource.Ids
import TagStore.Version.Upkeep
import TagStore.Write.Commit

namespace TagStore

/-- What a new resource is to be. -/
structure NewResource where
  fields : Item
  tags : Tags

namespace Resource
variable {σ : Type} [Store σ]

/-- Takes over searchable fields that are not given from a parent's fields. -/
def inherit (searchable : List String) (parent fields : Item) : Item :=
  searchable.foldl
    (fun fields field =>
      if fields.contains field then fields
      else match parent.find? field with
        | some value => fields.insert field value
        | none => fields)
    fields

/-- The fields of a new resource, if they and its tags are well named and its parent is there. -/
def newFields (setup : Setup) (s : σ) (t : ResourceType) (new : NewResource) :
    Except Error Item := do
  (Checks.each Checks.fieldName new.fields.keys).mapError .refused
  (Checks.each Checks.tagName new.tags.keys).mapError .refused
  match t.parent with
  | none => return new.fields
  | some link =>
    let parentId ← (Checks.requiredText new.fields link.field).mapError Error.refused
    let parent ← get setup s link.code parentId
    return inherit t.searchable parent.fields new.fields

/-- The writes that create a resource with some fields. -/
def planCreate (s : σ) (t : ResourceType) (now : Instant) (id : String) (fields : Item)
    (tags : Tags) (user : String) : Except Error (List WriteOp) := do
  let item ← (canonicalItem t id fields ⟨now, user, none⟩).mapError Error.refused
  let batch ← (Batch.empty.put item (some .absent)).mapError Error.invalid
  let allTags := tags.insertAll (reservedTags t fields)
  let batch ← (Tag.addAll (Key.resource t.code id) batch allTags.entries).mapError Error.invalid
  match t.versioning with
  | none => return batch.ops
  | some v =>
    let (parentId, ordering) ← (standing v fields).mapError Error.refused
    let (batch, _) ← (Version.addChild s batch t.code v parentId ⟨id, ordering⟩).mapError Error.store
    return batch.ops

/-- Commits a plan, and reads the resource back that it is for. -/
def commit (setup : Setup) (s : σ) (code id : String) (ops : List WriteOp) :
    Except Error Resource × σ :=
  match Commit.batch setup.settings.attempts ops s with
  | (.error e, s) => (.error e, s)
  | (.ok (), s) => (get setup s code id, s)

/-- Creates a resource. An id is taken only once the request as such is found sound. -/
def create (setup : Setup) (now : Instant) (ids : Ids) (s : σ) (code : String)
    (new : NewResource) (user : String) : Except Error Resource × Ids × σ :=
  let sound : Except Error (ResourceType × Item) := do
    let t ← findType setup code
    return (t, ← newFields setup s t new)
  match sound with
  | .error e => (.error e, ids, s)
  | .ok (t, fields) =>
    let (id, ids) := ids.take
    match planCreate s t now id fields new.tags user with
    | .error e => (.error e, ids, s)
    | .ok ops =>
      let (answer, s) := commit setup s code id ops
      (answer, ids, s)

end Resource

end TagStore
