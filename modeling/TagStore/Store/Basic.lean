import TagStore.Read.Request
import TagStore.Write.Operation

namespace TagStore

/-- Reads leave a store as it is. A batch is applied as a whole or not at all, and leaves a new store. -/
class Store (σ : Type) where
  name : σ → String
  get : σ → ItemKey → Except StoreError (Option Item)
  read : σ → Read → Except StoreError Page
  transact : σ → List WriteOp → Except StoreError Unit × σ
  /-- How many items there are, and so at most how many non-empty pages a read has. -/
  size : σ → Nat

namespace Store

/-- Applies one operation; a failed condition is reported for its key. -/
def write {σ : Type} [Store σ] (s : σ) (op : WriteOp) : Except StoreError Unit × σ :=
  match op.key with
  | .error cause => (.error (.invalid cause), s)
  | .ok key =>
    match transact s [op] with
    | (.error (.cancelled reasons), s) =>
      if reasons.any fun r => r.code == .conditionFailed then (.error (.conditionFailed key), s)
      else (.error (.cancelled reasons), s)
    | answer => answer

end Store

/-- A page's limit has to leave room for an item. -/
def Read.checkLimit (r : Read) : Except StoreError Unit :=
  if r.limit = some 0 then .error (.invalid .zeroLimit) else .ok ()

end TagStore
