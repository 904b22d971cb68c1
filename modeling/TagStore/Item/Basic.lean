import TagStore.Json.Basic

namespace TagStore

abbrev Item := SortedMap String Json

def Item.text? (item : Item) (name : String) : Option String := (item.find? name).bind Json.string?

namespace Attribute

def partition : String := "pk"

def sort : String := "sk"

/-- What kind of thing an item stands for. -/
def kind : String := "type"

/-- The name and value of a tag. -/
def tagIndex : String := "siKey1"

/-- The partition of a versioned resource's parent. -/
def parent : String := "siKey2"

/-- The place of a versioned resource among its siblings. -/
def order : String := "siKey3"

/-- The attributes that a store interprets. -/
def stored : List String := [partition, sort, kind, tagIndex, parent, order]

def id : String := "id"

def createdAt : String := "createdAt"

def createdBy : String := "createdBy"

def updatedAt : String := "updatedAt"

def updatedBy : String := "updatedBy"

/-- The attributes that tell what was done to a resource, when and by whom. -/
def audit : List String := [id, createdAt, createdBy, updatedAt, updatedBy]

def tagName : String := "key"

def tagValue : String := "value"

def ordering : String := "ordering"

end Attribute

/-- Keys are ordered by partition and then by sort key. -/
structure ItemKey where
  partition : String
  sort : String
deriving DecidableEq, Repr, Inhabited

namespace ItemKey

instance : Ord ItemKey := ⟨compareLex (compareOn partition) (compareOn sort)⟩

instance : Std.TransOrd ItemKey :=
  inferInstanceAs (Std.TransCmp (compareLex (compareOn partition) (compareOn sort)))

instance : Std.LawfulEqOrd ItemKey where
  eq_of_compare {a b} h := by
    have h : (compareOn partition a b).then (compareOn sort a b) = .eq := h
    rw [Ordering.then_eq_eq] at h
    obtain ⟨p, s⟩ := a
    obtain ⟨q, t⟩ := b
    have hp : p = q := Std.LawfulEqCmp.eq_of_compare (show compare p q = .eq from h.1)
    have hs : s = t := Std.LawfulEqCmp.eq_of_compare (show compare s t = .eq from h.2)
    rw [hp, hs]

def text (k : ItemKey) : String := "(" ++ k.partition ++ ", " ++ k.sort ++ ")"

end ItemKey

end TagStore
