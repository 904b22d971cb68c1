import TagStore.Key
import TagStore.Write.Batch

namespace TagStore

/-- Values by names of tags. -/
abbrev Tags := SortedMap String String

namespace Tag

def key (owner name : String) : ItemKey := ⟨owner, Key.tagSort name⟩

/-- Each tag is an item of its own in the partition of its owner, with an attribute by which owners of
its value are found. -/
def item (owner name value : String) : Item :=
  .ofList [
    (Attribute.partition, .string owner),
    (Attribute.sort, .string (Key.tagSort name)),
    (Attribute.tagIndex, .string (Key.tagIndex name value)),
    (Attribute.kind, .string Key.tagCode),
    (Attribute.tagName, .string name),
    (Attribute.tagValue, .string value)]

/-- The name and value that an item stands for, unless it is no tag or a reserved one. -/
def ofItem? (item : Item) : Option (String × String) := do
  guard (item.text? Attribute.kind = some Key.tagCode)
  guard !((item.text? Attribute.sort).any fun s => Text.beginsWith s (Key.tagSort Key.reservedStem))
  let name ← item.text? Attribute.tagName
  let value ← item.text? Attribute.tagValue
  return (name, value)

/-- The tags among a resource's items that its users see, added to some others. -/
def assemble (items : List Item) (tags : Tags) : Tags := tags.insertAll (items.filterMap ofItem?)

/-- Puts for the tags of an owner that has none yet. -/
def addAll (owner : String) (batch : Batch) : List (String × String) → Except Invalid Batch
  | [] => .ok batch
  | (name, value) :: tags => do
    addAll owner (← batch.put (item owner name value) (some .absent)) tags

end Tag

end TagStore
