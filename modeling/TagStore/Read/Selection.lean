import TagStore.Read.Request
import TagStore.Text.Split

namespace TagStore.Selection
variable {α : Type}

/-- The hash and the range attribute of a row in an index, if it has both. -/
abbrev Places (α : Type) := Index → ItemKey → α → Option (String × String)

/-- Whether what compares so with the start of a read lies beyond it. -/
def isBeyond (ascending : Bool) (o : Ordering) : Bool :=
  o == if ascending then .gt else .lt

def directed (ascending : Bool) (rows : List α) : List α := if ascending then rows else rows.reverse

/-- Rows found through an index are ordered by range attribute and then by key. -/
structure Place where
  range : String
  key : ItemKey
deriving DecidableEq

namespace Place

instance : Ord Place := ⟨compareLex (compareOn range) (compareOn key)⟩

instance : Std.TransOrd Place :=
  inferInstanceAs (Std.TransCmp (compareLex (compareOn range) (compareOn key)))

instance : Std.LawfulEqOrd Place where
  eq_of_compare {a b} h := by
    have h : (compareOn range a b).then (compareOn key a b) = .eq := h
    rw [Ordering.then_eq_eq] at h
    obtain ⟨p, s⟩ := a
    obtain ⟨q, t⟩ := b
    have hp : p = q := Std.LawfulEqCmp.eq_of_compare (show compare p q = .eq from h.1)
    have hs : s = t := Std.LawfulEqCmp.eq_of_compare (show compare s t = .eq from h.2)
    rw [hp, hs]

end Place

/-- The rows with a hash whose range attributes begin with `stem`, by place. -/
def indexed (places : Places α) (index : Index) (hash stem : String) (rows : List (ItemKey × α)) :
    SortedMap Place α :=
  SortedMap.ofList (rows.filterMap fun (key, row) =>
    match places index key row with
    | some (h, r) => if h = hash ∧ Text.beginsWith r stem then some (⟨r, key⟩, row) else none
    | none => none)

/-- The place of a start in an index; a start outside indexes has none. -/
def startPlace? (start : Option StartKey) : Option Place := do
  let start ← start
  let position ← start.index
  return ⟨position.range, start.partition, start.sort⟩

def ofKey (key : ItemKey) : StartKey := ⟨key.partition, key.sort, none⟩

/-- The rows that a range has beyond a start. Within one partition only the sort key of the start
counts. Each row comes with the position after which a read leaves it behind. -/
def select (places : Places α) (rows : List (ItemKey × α)) (start : Option StartKey) :
    Range → List (StartKey × α)
  | .partition partition stem ascending =>
    let found := rows.filter fun (key, _) =>
      key.partition = partition && Text.beginsWith key.sort stem &&
        start.all fun s => isBeyond ascending (compare key.sort s.sort)
    (directed ascending found).map fun (key, row) => (ofKey key, row)
  | .index index hash stem ascending =>
    let start := startPlace? start
    let found := (indexed places index hash stem rows).entries.filter fun (place, _) =>
      start.all fun s => isBeyond ascending (compare place s)
    (directed ascending found).map fun (place, row) =>
      (⟨place.key.partition, place.key.sort, some ⟨hash, place.range⟩⟩, row)
  | .partitions partitions =>
    let found := rows.filter fun (key, _) =>
      partitions.contains key.partition &&
        start.all fun s => isBeyond true (compare key ⟨s.partition, s.sort⟩)
    found.map fun (key, row) => (ofKey key, row)

end TagStore.Selection
