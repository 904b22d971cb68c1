import TagStore.Store.Address
import TagStore.Store.Backend

namespace TagStore

abbrev Tables := SortedMap String Database

/-- Databases that outlive a command, by the paths of their files. The names of tables and of their
indexes do not tell upper from lower case, and no two in a file are equal. -/
abbrev Files := SortedMap String Tables

namespace Files

/-- Opens the table of a file; it is empty if it is not there yet. -/
def openIn (files : Files) (path table : String) : Except StoreError Database := do
  let fresh ← Database.create table
  let tables := (files.find? path).getD .empty
  if tables.keys.any (Database.clash table.toLower) then throw .database
  return (tables.find? table.toLower).getD fresh

/-- Opens the table of a store. -/
def openTable (files : Files) (location : Location) (table : String) : Except StoreError Backend := do
  (TableName.check table).mapError StoreError.tableName
  match location with
  | .memory => return .memory .empty
  | .transient => return .database (← Database.create table)
  | .file path =>
    match ← Address.read path with
    | none => return .database (← Database.create table)
    | some path => return .database (← files.openIn path table)

/-- Keeps the table of a store, if it is kept in a file. -/
def keep (files : Files) (location : Location) (table : String) (b : Backend) : Files :=
  match location, b with
  | .file path, .database d =>
    match Address.read path with
    | .ok (some path) =>
      files.insert path (((files.find? path).getD .empty).insert table.toLower d)
    | _ => files
  | _, _ => files

end Files

end TagStore
