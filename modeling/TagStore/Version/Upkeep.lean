import TagStore.Read.Walk
import TagStore.Tag.Basic
import TagStore.Version.Pointer

namespace TagStore.Version
variable {σ : Type} [Store σ]

def latestKey (childCode id : String) : ItemKey :=
  Tag.key (Key.resource childCode id) Key.latestTag

def latestItem (childCode id : String) : Item :=
  Tag.item (Key.resource childCode id) Key.latestTag Key.latestValue

/-- The condition that a pointer names a child. -/
def names (id : String) : Condition := .equals Attribute.id (.string id)

/-- Makes a child the newest one, in place of another one, if there was any. The guard is on the pointer
that this is based on. -/
def promote (batch : Batch) (childCode : String) (key : ItemKey) (p : Pointer)
    (guard : Condition) : Except Invalid Batch := do
  let batch ← batch.put (latestItem childCode p.child) none
  batch.put (p.item key) (some guard)

/-- Adds the work for a new child, and tells whether it becomes the newest one: it does unless it is
older than the newest one. -/
def addChild (s : σ) (batch : Batch) (childCode : String) (v : Versioning) (parentId : String)
    (new : Pointer) : Except StoreError (Batch × Bool) := do
  let key := Pointer.key childCode v parentId
  match ← Pointer.find? s key with
  | none =>
    return (← (promote batch childCode key new .absent).mapError StoreError.invalid, true)
  | some old =>
    if new.ordering < old.ordering then return (batch, false)
    let (batch, _) := batch.delete (latestKey childCode old.child) none
    return (← (promote batch childCode key new (names old.child)).mapError StoreError.invalid, true)

/-- The first of some children, newest first, that is not `gone` and that the batch does not
delete. -/
def survivor? (batch : Batch) (gone : String) : List Item → Except Invalid (Option Pointer)
  | [] => .ok none
  | item :: items =>
    match item.text? Attribute.id with
    | none => survivor? batch gone items
    | some id =>
      if id = gone then survivor? batch gone items
      else do
        if batch.deletes (← item.key) then survivor? batch gone items
        else
          match (item.text? Attribute.order).bind Key.id? with
          | some ordering => return some ⟨id, ordering⟩
          | none => throw (.childWithoutOrder id)

/-- Looks for a survivor on up to `pages` pages. One page more than there are items is enough to pass
all children (`search_eq`): then there is none because none is left. -/
def search (s : σ) (batch : Batch) (gone : String) :
    (pages : Nat) → Walk → Except StoreError (Option Pointer)
  | 0, _ => .ok none
  | pages + 1, w => do
    let (items, w) ← w.next s
    match items with
    | none => return none
    | some items =>
      match ← (survivor? batch gone items).mapError StoreError.invalid with
      | some p => return some p
      | none => search s batch gone pages w

/-- The children of a parent, newest first. -/
def newestFirst (childCode : String) (v : Versioning) (parentId : String) : Read :=
  { range := .index .parentOrder (Key.resource v.parentCode parentId) (Key.stem childCode) false
    limit := some 2 }

/-- Adds the work for a child that goes. Only the newest one needs any: the newest of the others
takes its place, or the pointer goes too. -/
def removeChild (s : σ) (batch : Batch) (childCode : String) (v : Versioning)
    (parentId gone : String) : Except StoreError Batch := do
  let key := Pointer.key childCode v parentId
  match ← Pointer.find? s key with
  | none => return batch
  | some pointer =>
    if pointer.child ≠ gone then return batch
    let next ← search s batch gone (Store.size s + 1)
      (Walk.ofRead (newestFirst childCode v parentId))
    let (batch, _) := batch.delete (latestKey childCode gone) none
    match next with
    | some p => (promote batch childCode key p (names gone)).mapError StoreError.invalid
    | none => return (batch.delete key (some (names gone))).1

end TagStore.Version
