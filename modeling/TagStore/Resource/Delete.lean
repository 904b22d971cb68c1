import TagStore.Resource.Find
import TagStore.Tag.Search
import TagStore.Version.Upkeep
import TagStore.Write.Commit

namespace TagStore.Resource
variable {σ : Type} [Store σ]

/-- Fails with the first type that the resource has children of. -/
def checkChildless (s : σ) (t : ResourceType) (id : String) :
    List (ResourceType × String) → Except Error Unit
  | [] => .ok ()
  | (child, field) :: rest => do
    let found ← Tag.search s child.code 1 (Key.reserved field, id) none
    if !found.ids.isEmpty then throw (.hasChildren t.name id child.name)
    checkChildless s t id rest

/-- Deletes of all items. -/
def deleteAll (batch : Batch) : List Item → Except Invalid Batch
  | [] => .ok batch
  | item :: items => do
    deleteAll (batch.delete (← item.key) none).1 items

/-- The writes that delete a resource with all its items. -/
def planDelete (setup : Setup) (s : σ) (t : ResourceType) (id : String) :
    Except Error (List WriteOp) := do
  let (items, existing) ← load s t id
  checkChildless s t id (setup.catalog.children t.code)
  let batch ← (deleteAll .empty items).mapError Error.invalid
  match t.versioning with
  | none => return batch.ops
  | some v =>
    let parentId ← (Checks.requiredText existing.fields v.parentField).mapError Error.refused
    let batch ← (Version.removeChild s batch t.code v parentId id).mapError Error.store
    return batch.ops

def delete (setup : Setup) (s : σ) (code id : String) : Except Error Unit × σ :=
  let plan : Except Error (List WriteOp) := do
    planDelete setup s (← findType setup code) id
  match plan with
  | .error e => (.error e, s)
  | .ok ops => Commit.batch setup.settings.attempts ops s

end TagStore.Resource
