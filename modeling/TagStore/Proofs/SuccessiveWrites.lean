import Mathlib.Data.List.Induction
import TagStore.Proofs.AtomicWrites

namespace TagStore

namespace Keyed
variable {log log' : List (ItemKey × WriteOp)}

/-- The last operation on a key. -/
def last? (log : List (ItemKey × WriteOp)) (key : ItemKey) : Option WriteOp :=
  (log.reverse.find? fun e => e.1 = key).map Prod.snd

theorem last?_append (log log' : List (ItemKey × WriteOp)) (key : ItemKey) :
    last? (log ++ log') key = (last? log' key).or (last? log key) := by
  rw [last?, List.reverse_append, List.find?_append, Option.map_or]
  rfl

theorem last?_singleton (e : ItemKey × WriteOp) (key : ItemKey) :
    last? [e] key = if e.1 = key then some e.2 else none := by
  by_cases h : e.1 = key <;> simp [last?, h]

/-- What the last operation on a key leaves there. -/
def left? (log : List (ItemKey × WriteOp)) (key : ItemKey) : Option (Option Item) :=
  (last? log key).map WriteOp.leaves

section
variable {α : Type} {kept : Item → α} {step : SortedMap ItemKey α → ItemKey × WriteOp → SortedMap ItemKey α}
  {fits : WriteOp → Prop}
  (hother : ∀ m e key, key ≠ e.1 → (step m e).find? key = m.find? key)
  (hown : ∀ m e, fits e.2 → (step m e).find? e.1 = e.2.leaves.map kept)
include hother hown

/-- Of the operations on a key only the last counts, whether or not the others fit. -/
theorem find?_foldl (m : SortedMap ItemKey α) {key : ItemKey} (hfits : ∀ op ∈ last? log key, fits op) :
    (log.foldl step m).find? key = (left? log key).elim (m.find? key) fun left => left.map kept := by
  -- from the end, since the later operations count first
  induction log using List.reverseRecOn with
  | nil => rfl
  | append_singleton log e ih =>
    rw [last?_append, last?_singleton] at hfits
    rw [List.foldl_concat, left?, last?_append, last?_singleton]
    by_cases h : e.1 = key
    · subst h
      rw [if_pos rfl] at hfits ⊢
      exact hown _ e (hfits e.2 rfl)
    · rw [if_neg h, Option.none_or] at hfits ⊢
      rw [hother _ e key (Ne.symm h)]
      exact ih hfits

theorem foldl_eq_of_left? (hleft : ∀ key, left? log key = left? log' key)
    (hfits : ∀ key, ∀ op ∈ last? log key, fits op) (hfits' : ∀ key, ∀ op ∈ last? log' key, fits op)
    (m : SortedMap ItemKey α) : log.foldl step m = log'.foldl step m := by
  apply SortedMap.ext_find?
  intro key
  rw [find?_foldl hother hown m (hfits key), find?_foldl hother hown m (hfits' key), hleft]

end

end Keyed

/-- The operation without its condition. -/
def WriteOp.unconditional : WriteOp → WriteOp
  | .put item _ => .put item none
  | .delete key _ => .delete key none

/-- Writes operations one after another, each on its own and under no condition. -/
def Store.writeAll {σ : Type} [Store σ] (s : σ) (ops : List WriteOp) : σ :=
  ops.foldl (fun s op => (write s op.unconditional).2) s

namespace WriteOp
variable {op : WriteOp} {key : ItemKey}

theorem key_unconditional (op : WriteOp) : op.unconditional.key = op.key := by cases op <;> rfl

theorem condition_unconditional (op : WriteOp) : op.unconditional.condition = none := by cases op <;> rfl

theorem keyed_unconditional (hkey : op.key = .ok key) :
    keyed [op.unconditional] = .ok [(key, op.unconditional)] := by
  have hapart : KeyedApart [(key, op.unconditional)] :=
    ⟨List.forall_mem_singleton.mpr (op.key_unconditional.trans hkey), List.nodup_singleton _⟩
  exact keyedApart_eq hapart fun _ _ => List.not_mem_nil

end WriteOp

namespace Store

theorem write_snd {σ : Type} [Store σ] (s : σ) {op : WriteOp} {key : ItemKey} (hkey : op.key = .ok key) :
    (write s op).2 = (transact s [op]).2 := by
  rw [write_eq, hkey]

/-- Writes that each take one step make a run of steps. -/
theorem writeAll_eq {σ τ : Type} [Store σ] (state : τ → σ) {step : τ → ItemKey × WriteOp → τ}
    (hwrite : ∀ t e, e.2.key = .ok e.1 → (write (state t) e.2.unconditional).2 = state (step t e))
    {es : List (ItemKey × WriteOp)} (hes : ∀ e ∈ es, e.2.key = .ok e.1) (t : τ) :
    writeAll (state t) (es.map Prod.snd) = state (es.foldl step t) := by
  induction es generalizing t with
  | nil => rfl
  | cons e es ih =>
    obtain ⟨he, hes⟩ := List.forall_mem_cons.mp hes
    rw [List.map_cons, List.foldl_cons, ← ih hes, ← hwrite t e he]
    rfl

end Store

namespace Memory
variable {m m' : Memory} {es : List (ItemKey × WriteOp)}

theorem of_transact_ok {ops : List WriteOp} (h : m.transact ops = (.ok (), m')) :
    m.faults = [] ∧ ∃ es, WriteOp.keyed ops = .ok es ∧ m' = { m with items := es.foldl apply m.items } := by
  rw [transact] at h
  split at h
  · cases h
  next es hes =>
    split at h
    · cases h
    · cases h
    next hfaults =>
      refine ⟨hfaults, es, hes, ?_⟩
      dsimp only at h
      split at h
      · cases h
      · exact (Prod.mk.inj h).2.symm

theorem apply_own (items : SortedMap ItemKey Item) (e : ItemKey × WriteOp) :
    (apply items e).find? e.1 = e.2.leaves.map id := by
  rw [find?_apply, if_pos rfl, Option.map_id_fun]
  rfl

theorem apply_other (items : SortedMap ItemKey Item) (e : ItemKey × WriteOp) (key : ItemKey) (h : key ≠ e.1) :
    (apply items e).find? key = items.find? key := by
  rw [find?_apply, if_neg h]

theorem write_unconditional (hfaults : m.faults = []) {op : WriteOp} {key : ItemKey} (hkey : op.key = .ok key) :
    (Store.write m op.unconditional).2 = { m with items := apply m.items (key, op) } := by
  have hallowed : op.unconditional.allowed (m.items.find? key) = true := by
    rw [WriteOp.allowed, op.condition_unconditional]
  have happly : apply m.items (key, op.unconditional) = apply m.items (key, op) := by cases op <;> rfl
  rw [Store.write_snd m (op.key_unconditional.trans hkey)]
  change (m.transact [op.unconditional]).2 = _
  rw [transact_of_keyed (WriteOp.keyed_unconditional hkey) hfaults]
  simp [Reason.of, hallowed, Reason.fine, Reason.isFailure, happly]

end Memory

theorem WriteOp.Indexable.of_leaves {op op' : WriteOp} (h : op.Indexable) (hleaves : op'.leaves = op.leaves) :
    op'.Indexable := by
  cases op' with
  | delete key condition => trivial
  | put item condition =>
    cases op with
    | delete key' condition' => cases hleaves
    | put item' condition' =>
      cases hleaves
      exact h

namespace Database
variable {d d' : Database} {es : List (ItemKey × WriteOp)}

/-- What an operation by itself makes of some rows: an item that does not fit is not stored. -/
def attempt (rows : SortedMap ItemKey Row) (e : ItemKey × WriteOp) : SortedMap ItemKey Row :=
  (applyOne rows e).toOption.getD rows

theorem attempt_own (rows : SortedMap ItemKey Row) (e : ItemKey × WriteOp) (h : e.2.Indexable) :
    (attempt rows e).find? e.1 = e.2.leaves.map Row.of := by
  obtain ⟨key, op⟩ := e
  cases op with
  | put item condition =>
    rw [attempt, applyOne, Row.ofItem_eq h]
    exact SortedMap.find?_insert_self rows key (Row.of item)
  | delete _ condition => exact SortedMap.find?_erase_self rows key

theorem attempt_other (rows : SortedMap ItemKey Row) (e : ItemKey × WriteOp) (key : ItemKey) (h : key ≠ e.1) :
    (attempt rows e).find? key = rows.find? key := by
  obtain ⟨key', op⟩ := e
  cases op with
  | put item condition =>
    rw [attempt, applyOne]
    cases Row.ofItem item with
    | error cause => rfl
    | ok row => exact SortedMap.find?_insert_of_ne rows h row
  | delete _ condition => exact SortedMap.find?_erase_of_ne rows h

theorem applyAll_eq_ok {rows rows' : SortedMap ItemKey Row} (h : applyAll rows es = .ok rows') :
    (∀ e ∈ es, e.2.Indexable) ∧ rows' = es.foldl attempt rows := by
  have hindexable : ∀ e ∈ es, e.2.Indexable := by
    by_contra hmisfit
    simp only [not_forall] at hmisfit
    obtain ⟨e, he, hmisfit⟩ := hmisfit
    obtain ⟨_, _, _, _, _, _, herror⟩ := applyAll_misfit rows ⟨e.2, List.mem_map.mpr ⟨e, he, rfl⟩, hmisfit⟩
    rw [h] at herror
    cases herror
  refine ⟨hindexable, ?_⟩
  induction es generalizing rows with
  | nil => exact (Except.ok.inj h).symm
  | cons e es ih =>
    obtain ⟨next, hone, hrest⟩ := Outcome.bind_eq_ok_iff.mp h
    have hnext : attempt rows e = next := by rw [attempt, hone]; rfl
    rw [List.foldl_cons, hnext]
    exact ih hrest fun e he => hindexable e (List.mem_cons_of_mem _ he)

theorem of_transact_ok {ops : List WriteOp} (h : d.transact ops = (.ok (), d')) :
    d.locked = false ∧ ∃ es, WriteOp.keyed ops = .ok es ∧
      ∃ rows, applyAll d.rows es = .ok rows ∧ d' = { d with rows } := by
  simp only [transact] at h
  split at h
  · cases h
  next rows hanswer =>
    obtain ⟨es, hes, hanswer⟩ := Outcome.bind_eq_ok_iff.mp hanswer
    obtain ⟨reasons, _, hanswer⟩ := Outcome.bind_eq_ok_iff.mp hanswer
    split at hanswer
    · cases hanswer
    rw [apply] at hanswer
    split at hanswer
    next => split at hanswer <;> cases hanswer
    next hunlocked =>
      dsimp only at hanswer
      split at hanswer
      next => cases hanswer
      next rows' hrows =>
        obtain rfl : rows' = rows := Except.ok.inj hanswer
        exact ⟨by simpa using hunlocked, es, Outcome.mapError_eq_ok_iff.mp hes, rows', hrows,
          (Prod.mk.inj h).2.symm⟩

theorem write_unconditional (hunlocked : d.locked = false) {op : WriteOp} {key : ItemKey}
    (hkey : op.key = .ok key) :
    (Store.write d op.unconditional).2 = { d with rows := attempt d.rows (key, op) } := by
  have hcondition : op.unconditional.condition = none := op.condition_unconditional
  have hreadable : ∀ op' ∈ [op.unconditional], ¬ d.Unreadable op' := by
    rw [List.forall_mem_singleton]
    rintro ⟨_, _, _, _, hsome, _⟩
    rw [hcondition] at hsome
    cases hsome
  have hfine : ∀ op' ∈ [op.unconditional], ¬ op'.Refused d.current := by
    rw [List.forall_mem_singleton]
    rintro ⟨_, _, _, hsome, _⟩
    rw [hcondition] at hsome
    cases hsome
  rw [Store.write_snd d (op.key_unconditional.trans hkey)]
  change (d.transact [op.unconditional]).2 = _
  have hone : applyOne d.rows (key, op.unconditional) = applyOne d.rows (key, op) := by cases op <;> rfl
  rw [transact_of_fine hunlocked (WriteOp.keyed_unconditional hkey) hreadable hfine, applyAll, attempt, hone]
  cases applyOne d.rows (key, op) <;> rfl

end Database

end TagStore
