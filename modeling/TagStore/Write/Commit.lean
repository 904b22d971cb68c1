import TagStore.Error
import TagStore.Store.Basic

namespace TagStore.Commit
variable {σ : Type} [Store σ]

/-- Tries once, and up to `more` times again while the store cancels the batch. -/
def run (ops : List WriteOp) : (more : Nat) → σ → Except Error Unit × σ
  | more, s =>
    match Store.transact s ops with
    | (.ok (), s) => (.ok (), s)
    | (.error (.cancelled reasons), s) =>
      match more with
      | 0 => (.error (.cancelled reasons), s)
      | more + 1 => run ops more s
    | (.error e, s) => (.error (.store e), s)

/-- Commits within a number of attempts; there is always one. -/
def within (attempts : Nat) (ops : List WriteOp) (s : σ) : Except Error Unit × σ :=
  run ops (attempts - 1) s

/-- Commits a batch; one without operations is committed as it is. -/
def batch (attempts : Nat) (ops : List WriteOp) (s : σ) : Except Error Unit × σ :=
  if ops.isEmpty then (.ok (), s) else within attempts ops s

end TagStore.Commit
