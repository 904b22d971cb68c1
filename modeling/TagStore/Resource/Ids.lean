namespace TagStore

/-- A supply of ids for new resources: an id that was offered, once, and else numbered ones. -/
structure Ids where
  offered : Option String := none
  /-- How many numbered ids were taken. -/
  taken : Nat := 0
deriving DecidableEq, Repr

namespace Ids

/-- The numbered ids have the form of random UUIDs. -/
def numbered (n : Nat) : String :=
  let ds := Nat.toDigits 16 n
  "00000000-0000-4000-8000-" ++ String.ofList (List.replicate (12 - ds.length) '0' ++ ds)

def take (ids : Ids) : String × Ids :=
  match ids.offered with
  | some id => (id, { ids with offered := none })
  | none => (numbered (ids.taken + 1), { ids with taken := ids.taken + 1 })

end Ids

end TagStore
