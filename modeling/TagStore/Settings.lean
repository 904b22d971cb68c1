import TagStore.Catalog

namespace TagStore

structure Settings where
  tableName : String := "arcade"
  /-- How often a batch that the store cancels is tried. -/
  attempts : Nat := 2
  /-- How many resources a page has that does not say. -/
  pageSize : Nat := 20
  /-- How many partitions are read at once. -/
  chunk : Nat := 50
deriving DecidableEq, Repr

def Settings.check (s : Settings) : Except Refusal Unit := do
  if s.pageSize = 0 then throw .defaultPageSize
  if s.chunk = 0 then throw .chunk

/-- What all operations on resources go by. -/
structure Setup where
  catalog : Catalog := .standard
  settings : Settings := {}

end TagStore
