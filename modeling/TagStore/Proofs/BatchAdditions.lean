import TagStore.Proofs.BatchEffects
import TagStore.Proofs.SuccessiveWrites

namespace TagStore

open Keyed (last? left?)

namespace Batch

theorem last?_entries (b : Batch) (key : ItemKey) : last? b.entries key = b.find? key :=
  (find?_eq_of_mem_iff (fun _ => List.mem_reverse) key).symm

/-- A batch is told by its keys and the operation for each of them. -/
theorem ops_eq_filterMap (b : Batch) : b.ops = (b.entries.map Prod.fst).filterMap b.find? := by
  have hfind : ∀ e ∈ b.entries, (b.find? ∘ Prod.fst) e = some e.2 := fun e he => b.find?_of_mem_entries he
  rw [List.filterMap_map, List.filterMap_congr hfind, ops_eq, ← List.filterMap_eq_map]
  rfl

theorem placeAll_append (b : Batch) (log log' : List (ItemKey × WriteOp)) :
    b.placeAll (log ++ log') = (b.placeAll log).placeAll log' :=
  List.foldl_append

theorem find?_placeAll (b : Batch) (log : List (ItemKey × WriteOp)) (key : ItemKey) :
    (b.placeAll log).find? key = (last? log key).or (b.find? key) := by
  induction log using List.reverseRecOn with
  | nil => rfl
  | append_singleton log e ih =>
    rw [placeAll_append, Keyed.last?_append, Keyed.last?_singleton, Option.or_assoc, ← ih]
    change ((b.placeAll log).place e.1 e.2).find? key = _
    split
    next h => rw [← h, find?_place_self, Option.some_or]
    next h => rw [find?_place_of_ne _ (Ne.symm h), Option.none_or]

/-- Operations and index take up operations in turn as one list of both does. -/
theorem entries_placeAll (b : Batch) (log : List (ItemKey × WriteOp)) :
    (b.placeAll log).entries = log.foldl (fun es e => TagStore.Keyed.place e.1 e.2 es) b.entries := by
  induction log generalizing b with
  | nil => rfl
  | cons e log ih => rw [List.foldl_cons, ← entries_place, ← ih]; rfl

/-- Keys stand in the order in which they first came up. -/
theorem keys_placeAll (log : List (ItemKey × WriteOp)) :
    (empty.placeAll log).entries.map Prod.fst = (log.map Prod.fst).eraseDups := by
  induction log using List.reverseRecOn with
  | nil => rfl
  | append_singleton log e ih =>
    rw [placeAll_append, List.map_append, List.eraseDups_append]
    change ((empty.placeAll log).place e.1 e.2).entries.map Prod.fst = _
    rw [entries_place, TagStore.Keyed.keys_place, ih]
    by_cases h : e.1 ∈ log.map Prod.fst
    · have hold : [e.1].removeAll (log.map Prod.fst) = [] := by simp [List.removeAll, h]
      rw [if_pos (List.mem_eraseDups.mpr h), List.map_singleton, hold, List.eraseDups_nil, List.append_nil]
    · have hnew : [e.1].removeAll (log.map Prod.fst) = [e.1] := by simp [List.removeAll, h]
      rw [if_neg (mt List.mem_eraseDups.mp h), List.map_singleton, hnew]
      rfl

/-- Operations taken up in turn count as the last of them for each key. -/
theorem ops_placeAll (log : List (ItemKey × WriteOp)) :
    (empty.placeAll log).ops = (log.map Prod.fst).eraseDups.filterMap (last? log) := by
  have hfind : (empty.placeAll log).find? = last? log :=
    funext fun key => (find?_placeAll empty log key).trans Option.or_none
  rw [ops_eq_filterMap, keys_placeAll, hfind]

/-- A request to take up operations. -/
inductive Addition where
  | put (item : Item) (condition : Option Condition)
  | delete (key : ItemKey) (condition : Option Condition)
  | push (op : WriteOp)
  | extend (ops : List WriteOp)

namespace Addition

inductive Reply where
  | taken (outcome : Except Invalid Unit)
  | deleted (taken : Bool)

/-- A batch stays as it is where an operation was not taken up. -/
def settle (b : Batch) : Except Invalid Batch → Reply × Batch
  | .ok b => (.taken (.ok ()), b)
  | .error fault => (.taken (.error fault), b)

def run (b : Batch) : Addition → Reply × Batch
  | .put item condition => settle b (b.put item condition)
  | .delete key condition =>
    let (b, taken) := b.delete key condition
    (.deleted taken, b)
  | .push op => settle b (b.push op)
  | .extend ops =>
    let (b, outcome) := b.extend ops
    (.taken outcome, b)

/-- The operations that are asked for. -/
def asked : Addition → List WriteOp
  | .put item condition => [.put item condition]
  | .delete key condition => [.delete key condition]
  | .push op => [op]
  | .extend ops => ops

end Addition

end Batch

namespace WriteOp

/-- The operations up to the first that has no key, each with its key, and what that one lacks. -/
def keyedPrefix : List WriteOp → List (ItemKey × WriteOp) × Except Invalid Unit
  | [] => ([], .ok ())
  | op :: ops =>
    match op.key with
    | .ok key => ((key, op) :: (keyedPrefix ops).1, (keyedPrefix ops).2)
    | .error fault => ([], .error fault)

theorem key_of_mem_keyedPrefix {ops : List WriteOp} : ∀ e ∈ (keyedPrefix ops).1, e.2.key = .ok e.1 := by
  induction ops with
  | nil => exact nofun
  | cons op ops ih =>
    rw [keyedPrefix]
    cases hkey : op.key with
    | error fault => exact nofun
    | ok key => exact List.forall_mem_cons.mpr ⟨hkey, ih⟩

end WriteOp

namespace Batch

theorem extend_eq_keyedPrefix (b : Batch) (ops : List WriteOp) :
    b.extend ops = (b.placeAll (WriteOp.keyedPrefix ops).1, (WriteOp.keyedPrefix ops).2) := by
  induction ops generalizing b with
  | nil => rfl
  | cons op ops ih =>
    rw [extend, push, WriteOp.keyedPrefix]
    cases op.key with
    | error fault => rfl
    | ok key => exact ih (b.place key op)

namespace Addition

/-- The operations that are accepted, those among them that change nothing too. -/
def accepted (a : Addition) : List (ItemKey × WriteOp) := (WriteOp.keyedPrefix a.asked).1

/-- The operations that are accepted after others, except for a delete where one is pending. -/
def queued (log : List (ItemKey × WriteOp)) : Addition → List (ItemKey × WriteOp)
  | .delete key condition => if (last? log key).any WriteOp.isDelete then [] else [(key, .delete key condition)]
  | a => a.accepted

def reply (log : List (ItemKey × WriteOp)) : Addition → Reply
  | .delete key _ => .deleted !(last? log key).any WriteOp.isDelete
  | a => .taken (WriteOp.keyedPrefix a.asked).2

theorem settle_push (b : Batch) (op : WriteOp) :
    settle b (b.push op) = (.taken (b.extend [op]).2, (b.extend [op]).1) := by
  rw [Batch.extend]
  cases b.push op <;> rfl

/-- What one more addition does to operations taken up in turn. -/
theorem run_placeAll (log : List (ItemKey × WriteOp)) (a : Addition) :
    a.run (empty.placeAll log) = (a.reply log, empty.placeAll (log ++ a.queued log)) := by
  have hpending : ∀ key, (empty.placeAll log).deletes key = (last? log key).any WriteOp.isDelete := by
    intro key
    rw [deletes, find?_placeAll]
    exact congrArg (Option.any WriteOp.isDelete) Option.or_none
  have hextend : ∀ ops, (Reply.taken ((empty.placeAll log).extend ops).2, ((empty.placeAll log).extend ops).1) =
      (.taken (WriteOp.keyedPrefix ops).2, empty.placeAll (log ++ (WriteOp.keyedPrefix ops).1)) := by
    intro ops
    rw [extend_eq_keyedPrefix, placeAll_append]
  cases a with
  | put item condition => exact (settle_push _ _).trans (hextend _)
  | push op => exact (settle_push _ _).trans (hextend _)
  | extend ops => exact hextend ops
  | delete key condition =>
    have hdelete : (empty.placeAll log).delete key condition =
        (empty.placeAll (log ++ queued log (.delete key condition)), !(last? log key).any WriteOp.isDelete) := by
      rw [Batch.delete, hpending, queued]
      split
      next h => rw [h, List.append_nil]; rfl
      next h => rw [Bool.eq_false_iff.mpr h, placeAll_append]; rfl
    rw [run, hdelete]
    rfl

end Addition

open Addition

/-- The batch that some additions make. -/
def made (additions : List Addition) : Batch := additions.foldl (fun b a => (a.run b).2) empty

/-- The operations that some additions take up, in their order. -/
def queuedBy (additions : List Addition) : List (ItemKey × WriteOp) :=
  additions.foldl (fun log a => log ++ a.queued log) []

/-- The operations that some additions accept, in their order. -/
def acceptedBy (additions : List Addition) : List (ItemKey × WriteOp) := additions.flatMap accepted

theorem queuedBy_concat (additions : List Addition) (a : Addition) :
    queuedBy (additions ++ [a]) = queuedBy additions ++ a.queued (queuedBy additions) := by
  rw [queuedBy, List.foldl_append]
  rfl

theorem acceptedBy_concat (additions : List Addition) (a : Addition) :
    acceptedBy (additions ++ [a]) = acceptedBy additions ++ a.accepted := by
  rw [acceptedBy, List.flatMap_append, List.flatMap_singleton, acceptedBy]

theorem made_eq (additions : List Addition) : made additions = empty.placeAll (queuedBy additions) := by
  induction additions using List.reverseRecOn with
  | nil => rfl
  | append_singleton additions a ih =>
    have hmade : made (additions ++ [a]) = (a.run (made additions)).2 := by
      rw [made, List.foldl_append]
      rfl
    rw [hmade, ih, run_placeAll, queuedBy_concat]

/-- A dropped delete would have left what is left without it. -/
theorem left?_queued (log : List (ItemKey × WriteOp)) (a : Addition) (key : ItemKey) :
    left? (log ++ a.queued log) key = left? (log ++ a.accepted) key := by
  cases a with
  | delete key' condition =>
    rw [queued]
    split
    next hpending =>
      have haccepted : (Addition.delete key' condition).accepted = [(key', .delete key' condition)] := rfl
      rw [List.append_nil, haccepted, left?, left?, Keyed.last?_append, Keyed.last?_singleton]
      split
      next h =>
        subst h
        obtain ⟨op, hop, hdelete⟩ := (Option.any_eq_true _ _).mp hpending
        rw [hop]
        cases op with
        | put item condition => cases hdelete
        | delete key condition => rfl
      next => rw [Option.none_or]
    next => rfl
  | _ => rfl

theorem left?_acceptedBy (additions : List Addition) (key : ItemKey) :
    left? (acceptedBy additions) key = left? (queuedBy additions) key := by
  induction additions using List.reverseRecOn with
  | nil => rfl
  | append_singleton additions a ih =>
    have hsame : ∀ log, left? (acceptedBy additions ++ log) key = left? (queuedBy additions ++ log) key := by
      intro log
      simp only [left?, Keyed.last?_append] at ih ⊢
      rw [Option.map_or, Option.map_or, ih]
    rw [acceptedBy_concat, queuedBy_concat, hsame, left?_queued]

theorem key_of_mem_acceptedBy {additions : List Addition} : ∀ e ∈ acceptedBy additions, e.2.key = .ok e.1 := by
  intro e he
  obtain ⟨a, _, he⟩ := List.mem_flatMap.mp he
  exact WriteOp.key_of_mem_keyedPrefix e he

theorem queued_subset (log : List (ItemKey × WriteOp)) (a : Addition) : a.queued log ⊆ a.accepted := by
  cases a with
  | delete key condition =>
    rw [queued]
    split
    · exact List.nil_subset _
    · exact List.Subset.refl _
  | _ => exact List.Subset.refl _

theorem queuedBy_subset (additions : List Addition) : queuedBy additions ⊆ acceptedBy additions := by
  induction additions using List.reverseRecOn with
  | nil => exact List.Subset.refl _
  | append_singleton additions a ih =>
    rw [queuedBy_concat, acceptedBy_concat]
    refine List.append_subset.mpr ⟨List.Subset.trans ih (List.subset_append_left _ _), ?_⟩
    exact List.Subset.trans (queued_subset _ a) (List.subset_append_right _ _)

theorem keyed_made (additions : List Addition) : (made additions).Keyed := by
  rw [made_eq]
  exact keyed_empty.placeAll fun e he => key_of_mem_acceptedBy e (queuedBy_subset additions he)

section
variable (additions : List Addition)

/-- The last operation that was accepted for a key leaves what the one in the batch does. -/
theorem left?_entries (key : ItemKey) :
    left? (made additions).entries key = left? (acceptedBy additions) key := by
  rw [left?_acceptedBy, left?, last?_entries, made_eq, find?_placeAll, left?]
  exact congrArg (Option.map WriteOp.leaves) Option.or_none

theorem entries_of_keyed {es : List (ItemKey × WriteOp)} (hes : WriteOp.keyed (made additions).ops = .ok es) :
    es = (made additions).entries :=
  (keyed_made additions).eq_entries (WriteOp.keyed_spec hes).1 (WriteOp.keyed_spec hes).2

/-- Items come to the same by the batch as by the additions in turn. -/
theorem memory_of_commit {m m' : Memory} (h : m.transact (made additions).ops = (.ok (), m')) :
    m' = Store.writeAll m ((acceptedBy additions).map Prod.snd) := by
  obtain ⟨hfaults, es, hes, rfl⟩ := Memory.of_transact_ok h
  have hitems : es.foldl Memory.apply m.items = (acceptedBy additions).foldl Memory.apply m.items := by
    rw [entries_of_keyed additions hes]
    have hown : ∀ items e, True → (Memory.apply items e).find? e.1 = e.2.leaves.map id :=
      fun items e _ => Memory.apply_own items e
    exact Keyed.foldl_eq_of_left? Memory.apply_other hown (left?_entries additions)
      (fun _ _ _ => trivial) (fun _ _ _ => trivial) m.items
  rw [hitems]
  exact (Store.writeAll_eq (fun items => { m with items })
    (fun items e he => Memory.write_unconditional (m := { m with items }) hfaults he)
    key_of_mem_acceptedBy m.items).symm

/-- Rows come to the same by the batch as by the additions in turn, even where items do not fit that later
ones take the place of. -/
theorem database_of_commit {d d' : Database} (h : d.transact (made additions).ops = (.ok (), d')) :
    d' = Store.writeAll d ((acceptedBy additions).map Prod.snd) := by
  obtain ⟨hunlocked, es, hes, rows, hrows, rfl⟩ := Database.of_transact_ok h
  obtain ⟨hindexable, rfl⟩ := Database.applyAll_eq_ok hrows
  obtain rfl := entries_of_keyed additions hes
  have hfits : ∀ key, ∀ op ∈ last? (made additions).entries key, op.Indexable := by
    intro key op hop
    rw [last?_entries] at hop
    exact hindexable _ (mem_entries_of_find? hop)
  have hfits' : ∀ key, ∀ op ∈ last? (acceptedBy additions) key, op.Indexable := by
    intro key op hop
    have hleft := left?_entries additions key
    rw [left?, left?, hop, Option.map_some] at hleft
    obtain ⟨op', hop', hleaves⟩ := Option.map_eq_some_iff.mp hleft
    exact (hfits key op' hop').of_leaves hleaves.symm
  rw [Keyed.foldl_eq_of_left? Database.attempt_other Database.attempt_own (left?_entries additions) hfits hfits']
  exact (Store.writeAll_eq (fun rows => { d with rows })
    (fun rows e he => Database.write_unconditional (d := { d with rows }) hunlocked he)
    key_of_mem_acceptedBy d.rows).symm

end

/-- What a batch holds after some operations were taken up: for each of their keys, in the order in which it
first came up, the last operation on it. -/
structure Holds (b : Batch) (log : List (ItemKey × WriteOp)) : Prop where
  /-- The operations and their index stand for one list of operations with their keys. -/
  entries : b.entries = log.foldl (fun es e => TagStore.Keyed.place e.1 e.2 es) []
  ops : b.ops = (log.map Prod.fst).eraseDups.filterMap (last? log)
  keys : b.ops.map WriteOp.key = (log.map Prod.fst).eraseDups.map .ok
  /-- The index leads from each key to the operation on it, and never out of the operations. -/
  pending : ∀ key i, b.pending.find? key = some i ↔ ∃ op, b.ops[i]? = some op ∧ op.key = .ok key
  contains : ∀ key, b.contains key = true ↔ ∃ op ∈ b.ops, op.key = .ok key
  deletes : ∀ key, b.deletes key = true ↔ ∃ op ∈ b.ops, op.key = .ok key ∧ op.isDelete = true

theorem Keyed.find?_eq_some_iff {b : Batch} (hb : b.Keyed) {key : ItemKey} {op : WriteOp} :
    b.find? key = some op ↔ op ∈ b.ops ∧ op.key = .ok key := by
  constructor
  · exact fun h => ⟨mem_ops_of_find? h, hb _ (mem_entries_of_find? h)⟩
  · rintro ⟨hop, hkey⟩
    rw [ops_eq] at hop
    obtain ⟨e, he, rfl⟩ := List.mem_map.mp hop
    obtain rfl : e.1 = key := Except.ok.inj ((hb e he).symm.trans hkey)
    exact b.find?_of_mem_entries he

theorem Keyed.pending_eq_some_iff {b : Batch} (hb : b.Keyed) {key : ItemKey} {i : Nat} :
    b.pending.find? key = some i ↔ ∃ op, b.ops[i]? = some op ∧ op.key = .ok key := by
  constructor
  · intro h
    have hop := List.getElem?_eq_getElem (b.indexed.bounded h)
    have hentry := getElem?_entries_eq_some_iff.mpr ⟨h, hop⟩
    exact ⟨_, hop, hb _ (List.mem_of_getElem? hentry)⟩
  · rintro ⟨op, hop, hkey⟩
    obtain ⟨hi, _⟩ := List.getElem?_eq_some_iff.mp hop
    obtain ⟨key', hkey'⟩ := b.indexed.covered hi
    have hentry := getElem?_entries_eq_some_iff.mpr ⟨hkey', hop⟩
    obtain rfl : key' = key := Except.ok.inj ((hb _ (List.mem_of_getElem? hentry)).symm.trans hkey)
    exact hkey'

theorem holds_made (additions : List Addition) : (made additions).Holds (queuedBy additions) := by
  have hkeyed := keyed_made additions
  have hkeys : (made additions).ops.map WriteOp.key = ((made additions).entries.map Prod.fst).map .ok := by
    rw [ops_eq, List.map_map, List.map_map]
    exact List.map_congr_left hkeyed
  refine ⟨?_, ?_, ?_, fun key i => hkeyed.pending_eq_some_iff, fun key => ?_, fun key => ?_⟩
  · rw [made_eq, entries_placeAll]
    rfl
  · rw [made_eq, ops_placeAll]
  · rw [hkeys, made_eq, keys_placeAll]
  · simp only [contains_eq_isSome_find?, Option.isSome_iff_exists, hkeyed.find?_eq_some_iff]
  · simp only [deletes, Option.any_eq_true, hkeyed.find?_eq_some_iff, and_assoc]

/-- A batch means its additions in their order. -/
theorem made_inOrder (additions : List Addition) :
    (made additions).Holds (queuedBy additions) ∧
    (∀ a : Addition, (a.run (made additions)).1 = a.reply (queuedBy additions)) ∧
    ((made additions).ops ≠ [] → (made additions).ops.length ≤ maxBatch →
      WriteOp.keyed (made additions).ops = .ok (made additions).entries) ∧
    (∀ m m' : Memory, m.transact (made additions).ops = (.ok (), m') →
      m' = Store.writeAll m ((acceptedBy additions).map Prod.snd)) ∧
    ∀ d d' : Database, d.transact (made additions).ops = (.ok (), d') →
      d' = Store.writeAll d ((acceptedBy additions).map Prod.snd) := by
  refine ⟨holds_made additions, fun a => ?_, fun hne hsmall => ?_, fun _ _ => memory_of_commit additions,
    fun _ _ => database_of_commit additions⟩
  · rw [made_eq, Addition.run_placeAll]
  · apply (keyed_made additions).keyed_ops
    · rwa [List.isEmpty_iff]
    · exact hsmall

/-- The first item does not fit a database, but another one takes its place; a delete is given twice, and one
comes after an item without a key. -/
theorem made_inOrder_replacing :
    let unfit : Item :=
      .ofList [("pk", .string "b"), ("sk", .string "b"), ("type", .null), ("siKey1", .array [])]
    let new : Item := .ofTexts [("pk", "b"), ("sk", "b")]
    let unkeyed : Item := .ofTexts [("pk", "b")]
    let additions : List Addition := [.put unfit none, .delete ⟨"a", "a"⟩ (some .present),
      .delete ⟨"a", "a"⟩ none, .extend [.put new (some .absent), .put unkeyed none, .delete ⟨"b", "b"⟩ none]]
    let b := made additions
    let old : Item := .ofTexts [("pk", "a"), ("sk", "a")]
    let m : Memory := ⟨SortedMap.empty.insert ⟨"a", "a"⟩ old, []⟩
    let d : Database := ⟨SortedMap.empty.insert ⟨"a", "a"⟩ (.of old), false⟩
    b.ops.map WriteOp.key = [.ok ⟨"b", "b"⟩, .ok ⟨"a", "a"⟩] ∧
      (Addition.run b (.delete ⟨"a", "a"⟩ none)).1 = .deleted false ∧
      WriteOp.keyed b.ops = .ok b.entries ∧
      m.transact b.ops = (.ok (), Store.writeAll m ((acceptedBy additions).map Prod.snd)) ∧
      d.transact b.ops = (.ok (), Store.writeAll d ((acceptedBy additions).map Prod.snd)) := by
  intro unfit new unkeyed additions b old m d
  obtain ⟨hholds, hreply, hvalid, hmemory, hdatabase⟩ := made_inOrder additions
  have hkeys : ((queuedBy additions).map Prod.fst).eraseDups = [⟨"b", "b"⟩, ⟨"a", "a"⟩] := by decide +kernel
  have hpending : (last? (queuedBy additions) ⟨"a", "a"⟩).any WriteOp.isDelete = true := by decide +kernel
  have hlength : b.ops.length = 2 := by decide +kernel
  obtain ⟨_, hcommit⟩ := Outcome.eq_of_isOk_fst (by decide +kernel : (m.transact b.ops).1.isOk = true)
  obtain ⟨_, hcommit'⟩ := Outcome.eq_of_isOk_fst (by decide +kernel : (d.transact b.ops).1.isOk = true)
  refine ⟨?_, ?_, ?_, ?_, ?_⟩
  · rw [hholds.keys, hkeys]
    rfl
  · rw [hreply, Addition.reply, hpending]
    rfl
  · exact hvalid (List.ne_nil_of_length_pos (hlength ▸ Nat.two_pos)) (hlength ▸ by decide)
  · rw [← hmemory m _ hcommit]
    exact hcommit
  · rw [← hdatabase d _ hcommit']
    exact hcommit'

end Batch

end TagStore
