import TagStore.CommandLine.Command
import TagStore.CommandLine.Files
import TagStore.Resource.Delete
import TagStore.Resource.List
import TagStore.Resource.Update
import TagStore.Tag.Filter

namespace TagStore.CommandLine

/-- What commands find and leave behind. -/
structure World where
  files : Files
  ids : Ids
  now : Instant

/-- What went wrong, from the outside in. -/
abbrev Failure := List String

def within (context : String) (e : Except Error α) : Except Failure α :=
  e.mapError fun e => [context, e.message]

def plainly (e : Except Error α) : Except Failure α := e.mapError fun e => [e.message]

def refused (e : Except Refusal α) : Except Failure α := plainly (e.mapError Error.refused)

/-- The name and value of `NAME=VALUE`. -/
def assignment (text : String) : Except Failure (String × String) :=
  match Text.splitFirst '=' text.toList with
  | some (c :: cs, value) => .ok (String.ofList (c :: cs), String.ofList value)
  | _ => .error ["Expected NAME=VALUE, got '" ++ text ++ "'"]

/-- A value is JSON where it can be, and else a text. -/
def fieldValue (text : String) : Json := (Json.read? text).getD (.string text)

def fields (texts : List String) : Except Failure (List (String × Json)) :=
  texts.mapM fun text => do
    let (name, value) ← assignment text
    return (name, fieldValue value)

def typeJson (t : ResourceType) : Json :=
  .object [
    ("latestBy", .ofOption (fun v => .string v.orderField) t.versioning),
    ("name", .string t.name),
    ("parent", .ofOption
      (fun p => .object [("field", .string p.field), ("type", .string p.code)]) t.parent),
    ("prefix", .string t.code),
    ("searchableFields", .strings t.searchable)]

def typeCode (setup : Setup) (name : String) : Except Failure String := do
  return (← refused (setup.catalog.resolve name)).code

/-- What a command answers, with the ids that are left and the store as it is then. -/
abbrev Answer (α : Type) := Except Failure α × Ids × Backend

def create (setup : Setup) (now : Instant) (ids : Ids) (b : Backend) (type : String)
    (fieldTexts tagTexts : List String) (user : String) : Answer Json :=
  let request : Except Failure (String × NewResource) := do
    let code ← typeCode setup type
    let fields ← fields fieldTexts
    let tags ← refused (Tag.readPairs tagTexts)
    return (code, ⟨.ofList fields, tags⟩)
  match request with
  | .error e => (.error e, ids, b)
  | .ok (code, new) =>
    let (answer, ids, b) := Resource.create setup now ids b code new user
    ((within ("Failed to create " ++ type) answer).map Resource.json, ids, b)

def update (setup : Setup) (now : Instant) (b : Backend) (type id : String)
    (fieldTexts removedFields tagTexts removedTags : List String) (user : String) :
    Except Failure Json × Backend :=
  let request : Except Failure (String × ResourceUpdate) := do
    let code ← typeCode setup type
    let fields ← fields fieldTexts
    let tags ← refused (Tag.readPairs tagTexts)
    let removals := removedFields.map fun name => (name, Json.null)
    let wishes := tags.entries.map fun (name, value) => (name, some value)
    return (code, ⟨.ofList (fields ++ removals), .ofList (wishes ++ removedTags.map (·, none))⟩)
  match request with
  | .error e => (.error e, b)
  | .ok (code, change) =>
    let (answer, b) := Resource.update setup now b code id change user
    ((within ("Failed to update " ++ type ++ " " ++ id) answer).map Resource.json, b)

def delete (setup : Setup) (b : Backend) (type id : String) : Except Failure Json × Backend :=
  match typeCode setup type with
  | .error e => (.error e, b)
  | .ok code =>
    let (answer, b) := Resource.delete setup b code id
    ((within ("Failed to delete " ++ type ++ " " ++ id) answer).map
      fun _ => .object [("deleted", .string id)], b)

def list (setup : Setup) (b : Backend) (type : String) (tagTexts fieldTexts : List String)
    (latestOnly withLatest : Bool) (count : Nat) (token : Option String) : Except Failure Json := do
  let code ← typeCode setup type
  let tags ← refused (Tag.readPairs tagTexts)
  let fields ← fieldTexts.mapM assignment
  let query : ListQuery :=
    { tags, fields := .ofList fields, latestOnly, withLatest, count := some count, token }
  return (← plainly (Resource.list setup b code query)).json

/-- Carries out a command on an open store. -/
def carryOut (setup : Setup) (now : Instant) (ids : Ids) (b : Backend) : Command → Answer Json
  | .types => (.ok (.array (setup.catalog.types.values.map typeJson)), ids, b)
  | .create type fields tags user => create setup now ids b type fields tags user
  | .get type id =>
    let answer := do
      return (← plainly (Resource.get setup b (← typeCode setup type) id)).json
    (answer, ids, b)
  | .update type id fields removedFields tags removedTags user =>
    let (answer, b) := update setup now b type id fields removedFields tags removedTags user
    (answer, ids, b)
  | .delete type id =>
    let (answer, b) := delete setup b type id
    (answer, ids, b)
  | .list type tags fields latestOnly withLatest count token =>
    (list setup b type tags fields latestOnly withLatest count token, ids, b)
  | .latest type parentId =>
    let answer := do
      let r ← plainly (Resource.latestChild setup b (← typeCode setup type) parentId)
      return .ofOption Resource.json r
    (answer, ids, b)

/-- Opens the store that an invocation names. -/
def openStore (files : Files) (i : Invocation) : Except Failure (Location × Backend) := do
  let location ← within ("Invalid store '" ++ i.store ++ "'")
    ((Location.read i.store).mapError fun fault => .store (.location fault))
  let b ← within ("Failed to open store " ++ location.text)
    ((files.openTable location i.table).mapError Error.store)
  return (location, b)

/-- Runs a command, and gives the text that it prints. -/
def run (w : World) (i : Invocation) : Except Failure String × World :=
  match openStore w.files i with
  | .error e => (.error e, w)
  | .ok (location, b) =>
    let setup : Setup := { settings := { tableName := i.table, attempts := i.attempts } }
    let (answer, ids, b) := carryOut setup w.now w.ids b i.command
    (answer.map fun j => j.pretty 0 ++ "\n",
      { w with files := w.files.keep location i.table b, ids })

end TagStore.CommandLine
