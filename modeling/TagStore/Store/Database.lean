import TagStore.Read.Selection
import TagStore.Store.Basic
import TagStore.Store.Statement

namespace TagStore

namespace Row

/-- What a column holds for an attribute, which has to be a text, null or absent. -/
def column (item : Item) (name : String) : Except Invalid (Option String) :=
  match item.find? name with
  | none => .ok none
  | some .null => .ok none
  | some (.string s) => .ok (some s)
  | some value => .error (.indexAttribute name value)

def ofItem (item : Item) : Except Invalid Row := do
  let kind ← column item Attribute.kind
  let tagIndex ← column item Attribute.tagIndex
  let parent ← column item Attribute.parent
  let order ← column item Attribute.order
  return ⟨kind, tagIndex, parent, order, (Json.ofMap item).compact⟩

/-- The item again, if its text can be read. -/
def item? (row : Row) : Option Item :=
  match Json.read? row.body with
  | some (.object fields) => some (.ofList fields)
  | _ => none

end Row

/-- The columns that hold the attributes of an index. -/
def Index.columns : Index → Column × Column
  | .tagValue => (.tagIndex, .partition)
  | .kind => (.kind, .sort)
  | .parentOrder => (.parent, .order)

/-- A table of a database. Another connection may hold the lock for writing. -/
structure Database where
  rows : SortedMap ItemKey Row
  locked : Bool
deriving Inhabited

namespace Database

def empty : Database := ⟨.empty, false⟩

/-- Every read takes the texts of items apart again. -/
def item (row : Row) : Except StoreError Item :=
  match row.item? with
  | some item => .ok item
  | none => .error .document

def get (d : Database) (key : ItemKey) : Except StoreError (Option Item) :=
  match d.rows.find? key with
  | none => .ok none
  | some row => (item row).map some

/-- The most parameters that a database takes in one statement. -/
def maxParameters : Nat := 32766

def select (d : Database) (s : Statement) : Except StoreError (List (ItemKey × Row)) :=
  if maxParameters < s.parameters then .error .database else .ok (s.run d.rows.entries)

/-- A number as a signed number of 64 bits. -/
def signed (n : Int) : Int := n.bmod (Nat.pow 2 64)

/-- How many rows a page asks for: one more than it may have. -/
def fetchLimit : Option Nat → Int
  | none => -1
  | some n => signed (n + 1)

/-- The statement for a read. Within one partition only the sort key of the start counts. -/
def statement (r : Read) : Statement :=
  match r.range with
  | .partition partition stem ascending =>
    let start := r.start.map fun s => Clause.beyond ascending [(.sort, s.sort)]
    { clauses := [.equals .partition partition, .begins .sort stem] ++ start.toList
      order := [.sort]
      ascending
      limit := fetchLimit r.limit }
  | .index index hash stem ascending =>
    let (hashColumn, range) := index.columns
    let start := (Selection.startPlace? r.start).map fun p =>
      Clause.beyond ascending
        [(range, p.range), (.partition, p.key.partition), (.sort, p.key.sort)]
    { clauses := [.equals hashColumn hash, .begins range stem] ++ start.toList
      order := [range, .partition, .sort]
      ascending
      limit := fetchLimit r.limit }
  | .partitions partitions =>
    let start := r.start.map fun s =>
      Clause.beyond true [(.partition, s.partition), (.sort, s.sort)]
    { clauses := .among .partition partitions :: start.toList
      order := [.partition, .sort]
      ascending := true
      limit := fetchLimit r.limit }

/-- Where to go on after a row. -/
def position (range : Range) (row : ItemKey × Row) : Except StoreError StartKey :=
  match range with
  | .index index hash _ _ =>
    match index.columns.2.cell? row with
    | some range => .ok ⟨row.1.partition, row.1.sort, some ⟨hash, range⟩⟩
    | none => .error .database
  | _ => .ok (Selection.ofKey row.1)

/-- The page that was asked for; the row that is too many only tells that there are more. -/
def page (r : Read) (rows : List (ItemKey × Row)) : Except StoreError Page := do
  let taken := rows.take (r.limit.getD rows.length)
  let last ← if taken.length < rows.length then taken.getLast?.mapM (position r.range) else pure none
  return ⟨← taken.mapM fun row => item row.2, last⟩

/-- No statement is made for no partitions. -/
def read (d : Database) (r : Read) : Except StoreError Page := do
  r.checkLimit
  if r.range = .partitions [] then return Page.empty
  page r (← d.select (statement r))

/-- The verdict on an operation; the item is looked at only for a condition. -/
def reason (d : Database) : ItemKey × WriteOp → Except StoreError Reason
  | (key, op) =>
    match op.condition, d.rows.find? key with
    | some _, some row =>
      match row.item? with
      | some item => .ok (if op.allowed (some item) then .fine key else .conditionFailed key)
      | none => .error .database
    | _, _ => .ok (if op.allowed none then .fine key else .conditionFailed key)

def applyOne (rows : SortedMap ItemKey Row) :
    ItemKey × WriteOp → Except Invalid (SortedMap ItemKey Row)
  | (key, .put item _) => (Row.ofItem item).map (rows.insert key)
  | (key, .delete _ _) => .ok (rows.erase key)

def applyAll (rows : SortedMap ItemKey Row) :
    List (ItemKey × WriteOp) → Except Invalid (SortedMap ItemKey Row)
  | [] => .ok rows
  | e :: es => do applyAll (← applyOne rows e) es

def lockMessage : String := "error returned from database: (code: 5) database is locked"

/-- The lock is met by the first operation that is sound in itself. -/
def apply (d : Database) (keyed : List (ItemKey × WriteOp)) :
    Except StoreError (SortedMap ItemKey Row) := do
  if d.locked then
    match applyAll d.rows (keyed.take 1) with
    | .error cause => throw (.invalid cause)
    | .ok _ => throw (.cancelled (keyed.map fun e => .conflict lockMessage e.1))
  match applyAll d.rows keyed with
  | .error cause => throw (.invalid cause)
  | .ok rows => return rows

def transact (d : Database) (ops : List WriteOp) : Except StoreError Unit × Database :=
  let answer : Except StoreError (SortedMap ItemKey Row) := do
    let keyed ← (WriteOp.keyed ops).mapError StoreError.invalid
    let reasons ← keyed.mapM d.reason
    if reasons.any Reason.isFailure then throw (.cancelled reasons)
    d.apply keyed
  match answer with
  | .error e => (.error e, d)
  | .ok rows => (.ok (), { d with rows })

instance : Store Database where
  name _ := "sqlite"
  get := get
  read := read
  transact := transact
  size d := d.rows.size

/-- The names of a table's indexes. -/
def indexNames (table : String) : List String :=
  ["_si_key1_pk", "_item_type_sk", "_si_key2_si_key3"].map (table ++ ·)

/-- What names of a database's own tables and indexes begin with. -/
def reservedStem : String := "sqlite_"

/-- Whether one table has the name of an index of the other. -/
def clash (a b : String) : Bool := (indexNames a).contains b || (indexNames b).contains a

/-- A new table in a database of its own. -/
def create (table : String) : Except StoreError Database := do
  (TableName.check table).mapError StoreError.tableName
  let names := table :: indexNames table
  if names.any fun name => Text.beginsWith name.toLower reservedStem then throw .database
  return empty

end Database

end TagStore
