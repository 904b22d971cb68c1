import TagStore.Store.Basic

namespace TagStore

/-- A walk through the pages of a read stands at a position, or has reached the end. -/
structure Walk where
  read : Read
  fetched : Nat
  exhausted : Bool
deriving DecidableEq, Repr

namespace Walk

/-- A walk that has fetched nothing yet. -/
def ofRead (r : Read) : Walk := ⟨r, 0, false⟩

/-- Where the walk goes on. -/
def position (w : Walk) : Option StartKey := w.read.start

/-- The walk after a page. -/
def after (w : Walk) (p : Page) : Walk :=
  ⟨{ w.read with start := p.last }, w.fetched + 1, p.last.isNone⟩

variable {σ : Type} [Store σ]

/-- The next page, unless the walk has reached the end, and the walk from there. -/
def next (s : σ) (w : Walk) : Except StoreError (Option (List Item) × Walk) :=
  if w.exhausted then .ok (none, w)
  else do
    let page ← Store.read s w.read
    return (some page.items, w.after page)

/-- The items of up to `pages` further pages. -/
def collect (s : σ) : (pages : Nat) → Walk → Except StoreError (List Item)
  | 0, _ => .ok []
  | pages + 1, w => do
    let (items, w) ← w.next s
    match items with
    | none => return []
    | some items => return items ++ (← collect s pages w)

/-- The items of all further pages. All but the last one hold an item that no other page holds, so
that there is no more than one page more than there are items, and none is left out
(`Memory.rest_eq`). -/
def rest (s : σ) (w : Walk) : Except StoreError (List Item) := w.collect s (Store.size s + 1)

end Walk

/-- All items that a read asks for, page by page. -/
def Read.all {σ : Type} [Store σ] (s : σ) (r : Read) : Except StoreError (List Item) :=
  (Walk.ofRead r).rest s

end TagStore
