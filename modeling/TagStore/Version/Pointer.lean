import TagStore.ResourceType
import TagStore.Store.Basic

namespace TagStore

/-- An item in the partition of a parent names its newest child. -/
structure Pointer where
  child : String
  ordering : String
deriving DecidableEq, Repr

namespace Pointer

def key (childCode : String) (v : Versioning) (parentId : String) : ItemKey :=
  ⟨Key.resource v.parentCode parentId, Key.pointerSort childCode⟩

def item (key : ItemKey) (p : Pointer) : Item :=
  .ofList [
    (Attribute.partition, .string key.partition),
    (Attribute.sort, .string key.sort),
    (Attribute.kind, .string Key.pointerCode),
    (Attribute.id, .string p.child),
    (Attribute.ordering, .string p.ordering)]

/-- What a pointer item names. -/
def ofItem (key : ItemKey) (item : Item) : Except Invalid Pointer :=
  match item.text? Attribute.id, item.text? Attribute.ordering with
  | some child, some ordering => .ok ⟨child, ordering⟩
  | none, _ => .error (.pointerAttribute key Attribute.id)
  | _, none => .error (.pointerAttribute key Attribute.ordering)

/-- The pointer that is stored under a key. -/
def find? {σ : Type} [Store σ] (s : σ) (key : ItemKey) : Except StoreError (Option Pointer) := do
  match ← Store.get s key with
  | none => return none
  | some item => return some (← (ofItem key item).mapError StoreError.invalid)

end Pointer

end TagStore
