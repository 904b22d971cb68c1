import TagStore.Write.Operation

namespace TagStore

/-- An index of the positions below a size, each under a key of its own. -/
structure Batch.Indexed (pending : SortedMap ItemKey Nat) (size : Nat) : Prop where
  bounded : ∀ {key i}, pending.find? key = some i → i < size
  apart : ∀ {key other i}, pending.find? key = some i → pending.find? other = some i → key = other
  covered : ∀ {i}, i < size → ∃ key, pending.find? key = some i

namespace Batch.Indexed

theorem empty : Indexed .empty 0 where
  bounded := nofun
  apart := nofun
  covered := nofun

/-- A new key takes the position after all others. -/
theorem insert {pending : SortedMap ItemKey Nat} {size : Nat} (h : Indexed pending size) {key : ItemKey}
    (hnew : pending.find? key = none) : Indexed (pending.insert key size) (size + 1) := by
  have hold : ∀ {k i}, pending.find? k = some i → (pending.insert key size).find? k = some i := by
    intro k i hk
    rwa [SortedMap.find?_insert_of_ne]
    rintro rfl
    cases hnew.symm.trans hk
  have hcases : ∀ {k i}, (pending.insert key size).find? k = some i →
      k = key ∧ i = size ∨ pending.find? k = some i := by
    intro k i hk
    by_cases he : k = key
    · rw [he, SortedMap.find?_insert_self, Option.some.injEq] at hk
      exact .inl ⟨he, hk.symm⟩
    · rw [SortedMap.find?_insert_of_ne _ he] at hk
      exact .inr hk
  constructor
  case bounded =>
    intro k i hk
    rcases hcases hk with ⟨_, rfl⟩ | hk
    · exact Nat.lt_succ_self _
    · exact Nat.lt_succ_of_lt (h.bounded hk)
  case apart =>
    intro k k' i hk hk'
    rcases hcases hk with ⟨he, hi⟩ | hk <;> rcases hcases hk' with ⟨he', hi'⟩ | hk'
    · rw [he, he']
    · exact absurd hi (Nat.ne_of_lt (h.bounded hk'))
    · exact absurd hi' (Nat.ne_of_lt (h.bounded hk))
    · exact h.apart hk hk'
  case covered =>
    intro i hi
    rcases Nat.lt_succ_iff_lt_or_eq.mp hi with hi | rfl
    · obtain ⟨k, hk⟩ := h.covered hi
      exact ⟨k, hold hk⟩
    · exact ⟨key, SortedMap.find?_insert_self ..⟩

end Batch.Indexed

/-- A batch in the making: its operations, and where the one on each key stands. -/
structure Batch where
  ops : List WriteOp
  pending : SortedMap ItemKey Nat
  indexed : Batch.Indexed pending ops.length

namespace Batch

def empty : Batch := ⟨[], .empty, .empty⟩

def size (b : Batch) : Nat := b.ops.length

def find? (b : Batch) (key : ItemKey) : Option WriteOp :=
  (b.pending.find? key).bind fun i => b.ops[i]?

def contains (b : Batch) (key : ItemKey) : Bool := b.pending.contains key

/-- Whether a delete is pending for the key. -/
def deletes (b : Batch) (key : ItemKey) : Bool := (b.find? key).any WriteOp.isDelete

/-- Replaces the operation on a key where it stands, or adds it at the end. -/
def place (b : Batch) (key : ItemKey) (op : WriteOp) : Batch :=
  match h : b.pending.find? key with
  | some i =>
    { ops := b.ops.set i op
      pending := b.pending
      indexed := by rw [List.length_set]; exact b.indexed }
  | none =>
    { ops := b.ops ++ [op]
      pending := b.pending.insert key b.ops.length
      indexed := by rw [List.length_append]; exact b.indexed.insert h }

theorem find?_of_pending {b : Batch} {key : ItemKey} {i : Nat} (h : b.pending.find? key = some i) :
    b.find? key = b.ops[i]? := by
  rw [find?, h, Option.bind_some]

/-- No index leads out of the operations. -/
theorem contains_eq_isSome_find? (b : Batch) (key : ItemKey) : b.contains key = (b.find? key).isSome := by
  rw [contains, SortedMap.contains]
  cases h : b.pending.find? key with
  | none => rw [find?, h]; rfl
  | some i => rw [find?_of_pending h, List.getElem?_eq_getElem (b.indexed.bounded h)]; rfl

theorem find?_place_self (b : Batch) (key : ItemKey) (op : WriteOp) :
    (b.place key op).find? key = some op := by
  unfold place
  split
  next i h => rw [find?, h, Option.bind_some, List.getElem?_set_self (b.indexed.bounded h)]
  next h => rw [find?, SortedMap.find?_insert_self, Option.bind_some, List.getElem?_concat_length]

theorem find?_place_of_ne (b : Batch) {key other : ItemKey} (h : other ≠ key) (op : WriteOp) :
    (b.place key op).find? other = b.find? other := by
  unfold place
  split
  next i hkey =>
    cases hother : b.pending.find? other with
    | none => rw [find?, find?, hother, Option.bind_none, Option.bind_none]
    | some j =>
      have hij : i ≠ j := by
        rintro rfl
        exact h (b.indexed.apart hother hkey)
      rw [find?, find?, hother, Option.bind_some, Option.bind_some, List.getElem?_set_ne hij]
  next =>
    rw [find?, SortedMap.find?_insert_of_ne _ h, find?]
    cases hother : b.pending.find? other with
    | none => rfl
    | some j => exact List.getElem?_append_left (b.indexed.bounded hother)

/-- Takes up an operation of any kind. -/
def push (b : Batch) (op : WriteOp) : Except Invalid Batch := do
  let key ← op.key
  return b.place key op

def put (b : Batch) (item : Item) (condition : Option Condition) : Except Invalid Batch :=
  b.push (.put item condition)

/-- Takes up a delete, unless one is pending for the key, and tells whether it did. -/
def delete (b : Batch) (key : ItemKey) (condition : Option Condition) : Batch × Bool :=
  if b.deletes key then (b, false) else (b.place key (.delete key condition), true)

/-- Takes up operations in turn, up to the first that has no key. -/
def extend (b : Batch) : List WriteOp → Batch × Except Invalid Unit
  | [] => (b, .ok ())
  | op :: ops =>
    match b.push op with
    | .ok b => extend b ops
    | .error fault => (b, .error fault)

end Batch

end TagStore
