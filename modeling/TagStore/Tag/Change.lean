import TagStore.Tag.Basic

namespace TagStore

/-- What is wished for each tag: a value, or that it be gone. -/
abbrev TagWishes := SortedMap String (Option String)

structure TagChange where
  puts : Tags
  deletes : List String

namespace TagChange

def none : TagChange := ⟨.empty, []⟩

def isEmpty (c : TagChange) : Bool := c.puts.isEmpty && c.deletes.isEmpty

/-- Takes up a wish. A tag that has its value already stays as it is; one that is to go is deleted
whether or not it is there. -/
def add (tags : Tags) (c : TagChange) : String × Option String → TagChange
  | (name, some value) =>
    if tags.find? name = some value then c else { c with puts := c.puts.insert name value }
  | (name, Option.none) => { c with deletes := c.deletes ++ [name] }

/-- The change that makes `tags` what is wished. -/
def ofWishes (tags : Tags) (wishes : TagWishes) : TagChange :=
  wishes.entries.foldl (add tags) none

/-- First the puts, then the deletes. -/
def ops (owner : String) (puts : List (String × String)) (deletes : List String) : List WriteOp :=
  puts.map (fun (name, value) => .put (Tag.item owner name value) Option.none) ++
    deletes.map fun name => .delete (Tag.key owner name) Option.none

end TagChange

end TagStore
