import TagStore.ResourceType
import TagStore.SortedMap

namespace TagStore

structure Catalog where
  types : SortedMap String ResourceType
deriving Inhabited

namespace Catalog

def empty : Catalog := ⟨.empty⟩

/-- Adds a type, in place of the one with its code. -/
def register (c : Catalog) (t : ResourceType) : Except Refusal Catalog := do
  t.check
  return ⟨c.types.insert t.code t⟩

def group : ResourceType := { code := "g", name := "Group", searchable := ["name"] }

def region : ResourceType :=
  { code := "r", name := "Region", searchable := ["name", "groupId"]
    parent := some ⟨"g", "groupId"⟩ }

def polygon : ResourceType :=
  { code := "p", name := "Polygon", searchable := ["name", "groupId", "regionId"]
    parent := some ⟨"r", "regionId"⟩ }

def state : ResourceType :=
  { code := "s", name := "State", searchable := ["groupId", "regionId", "polygonId"]
    parent := some ⟨"p", "polygonId"⟩
    versioning := some ⟨"p", "polygonId", "timestamp"⟩ }

/-- Groups of regions of polygons, and the states of polygons, of which that with the greatest
`timestamp` is the newest. -/
def standard : Catalog := ⟨.ofList ([group, region, polygon, state].map fun t => (t.code, t))⟩

def get (c : Catalog) (code : String) : Except Refusal ResourceType :=
  match c.types.find? code with
  | some t => .ok t
  | none => .error (.unknownType code)

/-- Equality up to the case of ASCII letters. -/
def sameName (a b : String) : Bool := a.toList.map Char.toLower == b.toList.map Char.toLower

/-- The type with a code, or else the first with a name. -/
def resolve (c : Catalog) (name : String) : Except Refusal ResourceType :=
  match c.types.find? name with
  | some t => .ok t
  | none =>
    match c.types.values.find? fun t => sameName t.name name with
    | some t => .ok t
    | none => .error (.unknownType name)

/-- The types that resources with a code may have children of, each with the field that holds the
parent's id. -/
def children (c : Catalog) (code : String) : List (ResourceType × String) :=
  c.types.values.flatMap fun t => (t.linksTo code).map (t, ·)

/-- The types of which resources with a code have a newest child. -/
def versionedChildren (c : Catalog) (code : String) : List ResourceType :=
  c.types.values.filter fun t => t.versioning.any fun v => v.parentCode = code

end Catalog

end TagStore
