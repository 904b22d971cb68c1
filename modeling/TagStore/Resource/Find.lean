import TagStore.Listing.Ids
import TagStore.Resource.Items
import TagStore.Settings
import TagStore.Version.Pointer

namespace TagStore.Resource
variable {σ : Type} [Store σ]

def findType (setup : Setup) (code : String) : Except Error ResourceType :=
  (setup.catalog.get code).mapError .refused

/-- The items of a resource that is there, and the resource. -/
def load (s : σ) (t : ResourceType) (id : String) : Except Error (List Item × Resource) := do
  let items ← (Listing.items s t.code id).mapError Error.store
  match ← (ofItems t items).mapError Error.invalid with
  | some r => return (items, r)
  | none => throw (.notFound t.name id)

def get (setup : Setup) (s : σ) (code id : String) : Except Error Resource := do
  return (← load s (← findType setup code) id).2

/-- The newest child of a type that a parent has. -/
def latestChild (setup : Setup) (s : σ) (code parentId : String) :
    Except Error (Option Resource) := do
  let t ← findType setup code
  match t.versioning with
  | none => throw (.refused (.notVersioned t.name))
  | some v =>
    match ← (Pointer.find? s (Pointer.key t.code v parentId)).mapError Error.store with
    | none => return none
    | some p => return some (← get setup s code p.child)

end TagStore.Resource
