import TagStore.Resource.Create
import TagStore.Tag.Change

namespace TagStore

/-- Changes to a resource; a null field is to be removed. -/
structure ResourceUpdate where
  fields : Item
  tags : TagWishes

namespace Resource
variable {σ : Type} [Store σ]

def sameField : Option Json → Json → Bool
  | some a, b => a.same b
  | none, _ => false

/-- Fails with the first field that would change but must not. -/
def checkFixed (existing changes : Item) : List String → Except Refusal Unit
  | [] => .ok ()
  | name :: names =>
    match changes.find? name with
    | some value =>
      if sameField (existing.find? name) value then checkFixed existing changes names
      else .error (.fixedField name)
    | none => checkFixed existing changes names

def mergeFields (fields changes : Item) : Item :=
  changes.entries.foldl
    (fun fields (name, value) =>
      if value.isNull then fields.erase name else fields.insert name value)
    fields

/-- Adds what becomes of the reserved tag of a field. -/
def addReserved (before after : Item) (change : TagChange) (field : String) : TagChange :=
  let old := searchText? before field
  let new := searchText? after field
  if old = new then change
  else match new with
    | some value => { change with puts := change.puts.insert (Key.reserved field) value }
    | none => { change with deletes := change.deletes ++ [Key.reserved field] }

/-- The writes that update a resource. -/
def planUpdate (s : σ) (t : ResourceType) (now : Instant) (id : String) (update : ResourceUpdate)
    (user : String) : Except Error (List WriteOp) := do
  (Checks.each Checks.fieldName update.fields.keys).mapError .refused
  (Checks.each Checks.tagName update.tags.keys).mapError .refused
  let (_, existing) ← load s t id
  (checkFixed existing.fields update.fields t.fixedFields).mapError .refused
  let fields := mergeFields existing.fields update.fields
  let change := t.searchable.foldl (addReserved existing.fields fields)
    (TagChange.ofWishes existing.tags update.tags)
  let audit : Audit := ⟨existing.createdAt, existing.createdBy, some (now, user)⟩
  let item ← (canonicalItem t id fields audit).mapError Error.refused
  let batch ← (Batch.empty.put item (some .present)).mapError Error.invalid
  let (batch, extended) := batch.extend
    (TagChange.ops (Key.resource t.code id) change.puts.entries change.deletes)
  extended.mapError Error.invalid
  return batch.ops

def update (setup : Setup) (now : Instant) (s : σ) (code id : String) (update : ResourceUpdate)
    (user : String) : Except Error Resource × σ :=
  let plan : Except Error (List WriteOp) := do
    planUpdate s (← findType setup code) now id update user
  match plan with
  | .error e => (.error e, s)
  | .ok ops => commit setup s code id ops

end Resource

end TagStore
