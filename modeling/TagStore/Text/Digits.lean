namespace TagStore.Digits

def value? (c : Char) : Option Nat :=
  if '0' ≤ c ∧ c ≤ '9' then some (c.toNat - 48) else none

def toNat (ds : List Nat) : Nat := ds.foldl (fun n d => 10 * n + d) 0

/-- The number that a text of nothing but digits writes. -/
def read? (cs : List Char) : Option Nat :=
  if cs.isEmpty then none else (cs.mapM value?).map toNat

end TagStore.Digits
