import TagStore.Listing.Ids
import TagStore.Tag.Basic

namespace TagStore.Tag
variable {σ : Type} [Store σ]

/-- Some ids, and the one to go on after if there may be more. -/
structure Found where
  ids : List String
  next : Option String
deriving DecidableEq, Repr

namespace Found

def none : Found := ⟨[], Option.none⟩

/-- Ids of a page; a page that is not full is the last one. -/
def ofIds (count : Nat) (ids : List String) : Found :=
  if ids.length < count then ⟨ids, Option.none⟩ else ⟨ids.take count, (ids.take count).getLast?⟩

end Found

/-- Where in the index of a tag's value a resource of the type would stand. -/
def startAfter (code name value id : String) : StartKey :=
  let owner := Key.resource code id
  ⟨owner, Key.tagSort name, some ⟨Key.tagIndex name value, owner⟩⟩

def valueRead (code name value : String) (count : Nat) (after : Option String) : Read :=
  { range := .index .tagValue (Key.tagIndex name value) (Key.stem code) true
    limit := some count
    start := after.map (startAfter code name value) }

/-- Ids by up to `reads` further reads, which go on until there are as many as asked for or no more
are left. -/
def gather (s : σ) (code : String) (count : Nat) (tag : String × String) :
    (reads : Nat) → (ids : List String) → (start : Option StartKey) → Except Error (List String)
  | 0, ids, _ => .ok ids
  | reads + 1, ids, start => do
    let rest := { valueRead code tag.1 tag.2 (count - ids.length) none with start }
    let page ← (Store.read s rest).mapError Error.store
    let ids := ids ++ Listing.ids page.items
    if count ≤ ids.length ∨ page.last.isNone then return ids
    gather s code count tag reads ids page.last

/-- A page of the ids that carry one tag. A page of the index that is not the last one is full, and each
of its items tells an id (`read_valueRead`), so that the first read is the only one. -/
def search (s : σ) (code : String) (count : Nat) (tag : String × String) (after : Option String) :
    Except Error Found := do
  if count = 0 then throw (.refused .pageSize)
  let start := after.map (startAfter code tag.1 tag.2)
  return .ofIds count (← gather s code count tag (Store.size s + 1) [] start)

/-- The reading of one tag: the ids that were read but not yet passed, and where to read on. -/
structure Cursor where
  tag : String × String
  unread : List String
  next : Option String
deriving DecidableEq, Repr

namespace Cursor

def ofFound (tag : String × String) (f : Found) : Cursor := ⟨tag, f.ids, f.next⟩

/-- The greater of the id to go on after and the last id that was found for all tags. -/
def resume (mark : Option String) (next : String) : String :=
  match mark with
  | some m => if next < m then m else next
  | none => next

/-- The cursor with an id to come, or nothing if there is none left. -/
def refill? (s : σ) (code : String) (count : Nat) (mark : Option String) (c : Cursor) :
    Except Error (Option Cursor) :=
  match c.unread, c.next with
  | _ :: _, _ => .ok (some c)
  | [], none => .ok none
  | [], some next => do
    let found ← search s code count c.tag (some (resume mark next))
    return if found.ids.isEmpty then none else some (ofFound c.tag found)

/-- All cursors with an id to come, or nothing if one has none left. -/
def refillAll? (s : σ) (code : String) (count : Nat) (mark : Option String) :
    List Cursor → Except Error (Option (List Cursor))
  | [] => .ok (some [])
  | c :: cs => do
    match ← refill? s code count mark c with
    | none => return none
    | some c =>
      match ← refillAll? s code count mark cs with
      | none => return none
      | some cs => return some (c :: cs)

/-- Passes over an id if it is the next one. -/
def pass (id : String) (c : Cursor) : Cursor :=
  match c.unread with
  | [] => c
  | x :: rest => if x = id then { c with unread := rest } else c

/-- The next ids. -/
def heads (cs : List Cursor) : List String := cs.filterMap fun c => c.unread.head?

end Cursor

def least (id : String) (ids : List String) : String :=
  ids.foldl (fun a b => if b < a then b else a) id

/-- A merge under way: the cursors, and what was found so far. -/
structure Merge where
  cursors : List Cursor
  found : List String
deriving DecidableEq, Repr

namespace Merge

/-- Passes over the least of the next ids, and keeps it if all cursors stand at it. -/
def advance (m : Merge) : Merge :=
  match Cursor.heads m.cursors with
  | [] => m
  | id :: ids =>
    let smallest := least id ids
    ⟨m.cursors.map (Cursor.pass smallest),
      if (id :: ids).all (· = smallest) then m.found ++ [smallest] else m.found⟩

/-- One round: nothing if the merge is over. -/
def step? (s : σ) (code : String) (count : Nat) (m : Merge) : Except Error (Option Merge) := do
  if count ≤ m.found.length then return none
  match ← Cursor.refillAll? s code count m.found.getLast? m.cursors with
  | none => return none
  | some cursors => return some (Merge.advance { m with cursors })

/-- What is found in up to `rounds` rounds. With `maxRounds` of them a merge of the tags of a store is
over before they are (`run_firsts`). -/
def run (s : σ) (code : String) (count : Nat) : (rounds : Nat) → Merge → Except Error (List String)
  | 0, m => .ok m.found
  | rounds + 1, m => do
    match ← m.step? s code count with
    | none => return m.found
    | some m => run s code count rounds m

end Merge

/-- More rounds than a merge that ends can have. Each round passes an id of some tag, and each of the
at most `size` ids of a tag comes up once; were an id to come up again after as many pages as there
are items, it would do so for ever. -/
def maxRounds (tags size : Nat) : Nat := tags * ((size + 1) * (size + 1))

/-- A page of the ids that carry all of some tags, of which there has to be one. -/
def searchAll (s : σ) (code : String) (count : Nat) (tags : Tags) (after : Option String) :
    Except Error Found := do
  if tags.isEmpty then throw (.refused .noFilter)
  if count = 0 then throw (.refused .pageSize)
  match tags.entries with
  | [tag] => search s code count tag after
  | entries =>
    let firsts ← entries.mapM fun tag => search s code count tag after
    if firsts.any fun f => f.ids.isEmpty then return .none
    let cursors := List.zipWith Cursor.ofFound entries firsts
    let found ← Merge.run s code count (maxRounds tags.size (Store.size s)) ⟨cursors, []⟩
    return if found.length < count then ⟨found, none⟩ else ⟨found, found.getLast?⟩

end TagStore.Tag
