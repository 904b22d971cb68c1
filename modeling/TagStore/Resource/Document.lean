import TagStore.Resource.Basic
import TagStore.Json.Reader
import TagStore.Time.Rfc3339.Lenient

namespace TagStore.Resource

def partNames : List String :=
  ["id", "type", "fields", "tags", "createdAt", "createdBy", "updatedAt", "updatedBy", "latest"]

/-- The values of the parts, as far as they are given. -/
def parts? : Json → Option (List (Option Json))
  | .object fields => some (partNames.map fun name => Entries.find? name fields)
  | .array elements =>
    if partNames.length < elements.length then none
    else some (elements.map some ++ List.replicate (partNames.length - elements.length) none)
  | _ => none

def readTime? (j : Json) : Option Instant := do Rfc3339.readLenient? (← j.string?)

def readTags? : Json → Option Tags
  | .object fields => do
    return .ofList (← fields.mapM fun (name, value) => do return (name, ← value.string?))
  | _ => none

/-- A part that may be missing or null. -/
def optional? (read : Json → Option α) : Option Json → Option (Option α)
  | none => some none
  | some .null => some none
  | some j => (read j).map some

/-- Reads a resource with newest children nested less than `room` deep. -/
def readWithin? : (room : Nat) → Json → Option Resource
  | 0, _ => none
  | room + 1, j => do
    match ← parts? j with
    | [some id, some code, some (.object fields), some tags, some createdAt, some createdBy,
        updatedAt, updatedBy, latest] =>
      let latest ← match latest with
        | none => some []
        | some (.object entries) => entries.mapM fun (code, child) => do
            return (code, ← readWithin? room child)
        | some _ => none
      return {
        id := ← id.string?
        code := ← code.string?
        fields := .ofList fields
        tags := ← readTags? tags
        createdAt := ← readTime? createdAt
        createdBy := ← createdBy.string?
        updatedAt := ← optional? readTime? updatedAt
        updatedBy := ← optional? Json.string? updatedBy
        latest }
    | _ => none

/-- No document is nested deeper than JSON texts may be. -/
def read? (j : Json) : Option Resource := readWithin? (Json.maxDepth + 1) j

end TagStore.Resource
