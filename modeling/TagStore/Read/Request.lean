import TagStore.Item.Basic

namespace TagStore

inductive Index where
  /-- The partitions that hold a value of a tag. -/
  | tagValue
  /-- The items of a kind by their sort keys. -/
  | kind
  /-- The children of a parent in their order. -/
  | parentOrder
deriving DecidableEq, Repr

namespace Index

/-- The attribute that has to be equal to what is looked for. -/
def hash : Index → String
  | .tagValue => Attribute.tagIndex
  | .kind => Attribute.kind
  | .parentOrder => Attribute.parent

/-- The attribute that items with equal hashes are ordered by. -/
def range : Index → String
  | .tagValue => Attribute.partition
  | .kind => Attribute.sort
  | .parentOrder => Attribute.order

end Index

structure IndexPosition where
  hash : String
  range : String
deriving DecidableEq, Repr

/-- The item after which a read goes on, and for a read through an index its place there. -/
structure StartKey where
  partition : String
  sort : String
  index : Option IndexPosition
deriving DecidableEq, Repr

/-- What is read and in which order. -/
inductive Range where
  /-- A partition's items whose sort keys begin with `stem`. -/
  | partition (partition stem : String) (ascending : Bool)
  /-- The items with a hash whose range attributes begin with `stem`. -/
  | index (index : Index) (hash stem : String) (ascending : Bool)
  /-- All items of some partitions, ascending. -/
  | partitions (partitions : List String)
deriving DecidableEq, Repr

structure Read where
  range : Range
  limit : Option Nat := none
  start : Option StartKey := none
deriving DecidableEq, Repr

/-- Some items, and where to go on if there are more. -/
structure Page where
  items : List Item
  last : Option StartKey

def Page.empty : Page := ⟨[], none⟩

end TagStore
