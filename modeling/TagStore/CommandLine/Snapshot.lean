import TagStore.CommandLine.Files

namespace TagStore.Tables

def databaseJson (d : Database) : Json :=
  .array (d.rows.values.filterMap Row.item? |>.map Json.ofMap)

/-- An object with the items of each table under the table's name. -/
def json (tables : Tables) : Json :=
  .object (tables.entries.map fun (name, d) => (name, databaseJson d))

def addItem? (d : Database) : Json → Option Database
  | .object fields => do
    let item : Item := .ofList fields
    let key ← item.key.toOption
    let row ← (Row.ofItem item).toOption
    return { d with rows := d.rows.insert key row }
  | _ => none

def database? : Json → Option Database
  | .array items => items.foldlM addItem? .empty
  | _ => none

def ofJson? : Json → Option Tables
  | .object fields => do
    return .ofList (← fields.mapM fun (name, j) => do return (name, ← database? j))
  | _ => none

def text (tables : Tables) : String := tables.json.pretty 0 ++ "\n"

def read? (text : String) : Option Tables := do ofJson? (← Json.read? text)

end TagStore.Tables
