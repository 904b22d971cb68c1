import TagStore.Listing.Token
import TagStore.Read.Walk

namespace TagStore.Listing
variable {σ : Type} [Store σ]

/-- The ids that some items' partitions are named for. -/
def ids (items : List Item) : List String :=
  items.filterMap fun item => (item.text? Attribute.partition).bind Key.id?

/-- The canonical items of a type. -/
def canonical (code : String) (count : Nat) (start : Option StartKey) : Read :=
  { range := .index .kind code (Key.stem code) true
    limit := some count
    start }

/-- A page of ids, ascending, and a token to go on with. -/
def page (s : σ) (code : String) (count : Nat) (token : Option String) :
    Except Error (List String × Option String) := do
  if count = 0 then throw (.refused .pageSize)
  let start ← (token.mapM readToken).mapError Error.refused
  let page ← (Store.read s (canonical code count start)).mapError Error.store
  return (ids page.items, page.last.map Listing.token)

/-- All items of one resource. -/
def items (s : σ) (code id : String) : Except StoreError (List Item) :=
  Read.all s { range := .partition (Key.resource code id) "" true }

/-- The ids that a piece with some room left takes, and the pieces of the others. -/
def fill (size : Nat) : (room : Nat) → (ids : List String) → List String × List (List String)
  | _, [] => ([], [])
  | 0, id :: ids =>
    let (piece, pieces) := fill size (size - 1) ids
    ([], (id :: piece) :: pieces)
  | room + 1, id :: ids =>
    let (piece, pieces) := fill size room ids
    (id :: piece, pieces)

/-- A list in pieces of a size; the size 0 counts as 1. -/
def chunks (size : Nat) (ids : List String) : List (List String) := (fill size 0 ids).2

/-- All items of several resources, as many of them read at once as a chunk has ids. -/
def itemsOf (s : σ) (chunk : Nat) (code : String) (ids : List String) :
    Except StoreError (List Item) := do
  let parts ← (chunks chunk ids).mapM fun ids =>
    Read.all s { range := .partitions (ids.map (Key.resource code)) }
  return parts.flatten

/-- The items by their resources, in the order of the ids. An id without items is left out, and so
is one that came before. -/
def group (code : String) (items : List Item) : (ids : List String) → List (String × List Item)
  | [] => []
  | id :: ids =>
    let mine (item : Item) : Bool := item.text? Attribute.partition = some (Key.resource code id)
    let rest := group code (items.filter fun item => !mine item) ids
    let found := items.filter mine
    if found.isEmpty then rest else (id, found) :: rest

end TagStore.Listing
