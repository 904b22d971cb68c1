import TagStore.Json.Writer
import TagStore.Tag.Basic
import TagStore.Time.Rfc3339.Writer

namespace TagStore

structure Resource where
  id : String
  code : String
  fields : Item
  tags : Tags
  createdAt : Instant
  createdBy : String
  updatedAt : Option Instant
  updatedBy : Option String
  /-- The newest children by the codes of their types. -/
  latest : List (String × Resource)

namespace Resource

def time (i : Instant) : Json := .string (Rfc3339.writeShort i)

def tagsJson (tags : Tags) : Json := .object (tags.entries.map fun (name, value) => (name, .string value))

mutual

/-- What is not known, and newest children where there are none, is left out. -/
def json : Resource → Json
  | ⟨id, code, fields, tags, createdAt, createdBy, updatedAt, updatedBy, latest⟩ =>
    .object ([
      ("id", .string id),
      ("type", .string code),
      ("fields", .ofMap fields),
      ("tags", tagsJson tags),
      ("createdAt", time createdAt),
      ("createdBy", .string createdBy)] ++
      (updatedAt.map fun at_ => ("updatedAt", time at_)).toList ++
      (updatedBy.map fun user => ("updatedBy", .string user)).toList ++
      (if latest.isEmpty then [] else [("latest", .object (latestJson latest))]))

def latestJson : List (String × Resource) → List (String × Json)
  | [] => []
  | (code, r) :: rest => (code, r.json) :: latestJson rest

end

end Resource

/-- Some of the resources that were asked for, and a token to go on with if there may be more. -/
structure ResourcePage where
  items : List Resource
  next : Option String

def ResourcePage.json (p : ResourcePage) : Json :=
  .object ([("items", .array (p.items.map Resource.json))] ++
    (p.next.map fun token => ("nextToken", .string token)).toList)

end TagStore
