import TagStore.Json.Reader
import TagStore.Read.Request

namespace TagStore

/-- The row of an item: a column for each attribute that indexes need, and the whole item as JSON text. -/
structure Row where
  kind : Option String
  tagIndex : Option String
  parent : Option String
  order : Option String
  body : String
deriving DecidableEq, Repr

/-- The columns that statements look at. -/
inductive Column where
  | partition
  | sort
  | kind
  | tagIndex
  | parent
  | order
deriving DecidableEq, Repr

/-- What a row holds in a column. The columns of its key are never empty. -/
def Column.cell? (c : Column) (row : ItemKey × Row) : Option String :=
  match c with
  | .partition => some row.1.partition
  | .sort => some row.1.sort
  | .kind => row.2.kind
  | .tagIndex => row.2.tagIndex
  | .parent => row.2.parent
  | .order => row.2.order

@[simp] theorem Column.cell?_partition (row : ItemKey × Row) :
    Column.partition.cell? row = some row.1.partition := rfl

@[simp] theorem Column.cell?_sort (row : ItemKey × Row) :
    Column.sort.cell? row = some row.1.sort := rfl

/-- What a row has to meet. A clause that has to look at an empty cell is not met. -/
inductive Clause where
  | equals (column : Column) (value : String)
  | among (column : Column) (values : List String)
  /-- The text in the column, cut to the length of `stem`, is `stem`. -/
  | begins (column : Column) (stem : String)
  /-- The columns are greater than the values beside them, or less if `ascending` is not set; the
  first difference decides. -/
  | beyond (ascending : Bool) (columns : List (Column × String))
deriving DecidableEq, Repr

namespace Clause

/-- The characters that a database's functions on texts see: those before a null character. -/
def visible (s : String) : List Char := s.toList.takeWhile fun c => c != Char.ofNat 0

/-- How cells compare with values, unless an empty cell stands before the first difference. -/
def compareCells : List (Option String × String) → Option Ordering
  | [] => some .eq
  | (none, _) :: _ => none
  | (some cell, value) :: rest =>
    match compare cell value with
    | .eq => compareCells rest
    | o => some o

def holds (row : ItemKey × Row) : Clause → Bool
  | .equals column value => (column.cell? row).any fun cell => cell == value
  | .among column values => (column.cell? row).any values.contains
  | .begins column stem =>
    (column.cell? row).any fun cell =>
      String.ofList ((visible cell).take (visible stem).length) == stem
  | .beyond ascending columns =>
    compareCells (columns.map fun (column, value) => (column.cell? row, value)) ==
      some (if ascending then .gt else .lt)

/-- How many parameters a clause has. A stem is given for its length and again for its text. -/
def parameters : Clause → Nat
  | .equals .. => 1
  | .among _ values => values.length
  | .begins .. => 2
  | .beyond _ columns => columns.length

end Clause

structure Statement where
  clauses : List Clause
  order : List Column
  ascending : Bool
  /-- How many rows are wanted; all of them if this is negative. -/
  limit : Int
deriving DecidableEq, Repr

namespace Statement

/-- The cells that a row is ordered by; the first difference decides, and empty cells come first. -/
def cells (s : Statement) (row : ItemKey × Row) : List (Option String) :=
  s.order.map fun column => column.cell? row

def precedes (s : Statement) (a b : ItemKey × Row) : Bool :=
  let o := compare (s.cells a) (s.cells b)
  if s.ascending then o.isLE else o.isGE

/-- The rows that meet all clauses, in order. -/
def matching (s : Statement) (rows : List (ItemKey × Row)) : List (ItemKey × Row) :=
  (rows.filter fun row => s.clauses.all (Clause.holds row)).mergeSort s.precedes

def run (s : Statement) (rows : List (ItemKey × Row)) : List (ItemKey × Row) :=
  let found := s.matching rows
  if s.limit < 0 then found else found.take s.limit.toNat

/-- How many parameters a statement has, its limit among them. -/
def parameters (s : Statement) : Nat := s.clauses.foldr (fun c n => c.parameters + n) 1

end Statement

end TagStore
