import TagStore.Proofs.MemoryPages
import TagStore.Proofs.Statements
import TagStore.Proofs.TextItems
import TagStore.Proofs.Transactions

namespace TagStore

namespace Selection
variable {α : Type} {places : Places α} {rows : List (ItemKey × α)}

/-- A table that is changed row by row, but shows the same to indexes, is read in the same places. -/
theorem select_map {β : Type} {places' : Places β} {f : α → β}
    (hplaces : ∀ index, ∀ e ∈ rows, places' index e.1 (f e.2) = places index e.1 e.2)
    (start : Option StartKey) (range : Range) :
    select places' (rows.map fun e => (e.1, f e.2)) start range =
      (select places rows start range).map fun x => (x.1, f x.2) := by
  cases range with
  | partition partition stem ascending =>
    rw [select_partition, select_partition, List.filter_map, ← map_directed, List.filter_map]
    simp only [List.map_map]
    rfl
  | index index hash stem ascending =>
    have hindexed : indexed places' index hash stem (rows.map fun e => (e.1, f e.2)) =
        (indexed places index hash stem rows).map f := by
      change SortedMap.ofList ((rows.map _).filterMap (placed? places' index hash stem)) =
        (SortedMap.ofList (rows.filterMap (placed? places index hash stem))).map f
      rw [SortedMap.map_ofList, List.filterMap_map, List.map_filterMap]
      congr 1
      apply List.filterMap_congr
      intro e he
      simp only [Function.comp, placed?, hplaces index e he]
      split
      · split <;> rfl
      · rfl
    rw [select_index, select_index, hindexed, SortedMap.map, ← map_directed, List.filter_map]
    simp only [List.map_map]
    rfl
  | partitions partitions =>
    rw [select_partitions, select_partitions, List.filter_map, List.filter_map]
    simp only [List.map_map]
    rfl

/-- A read finds rows of the table, under their keys. -/
theorem mem_of_mem_select (hrows : Entries.Sorted rows) {start : Option StartKey} {range : Range}
    {x : StartKey × α} (hx : x ∈ select places rows start range) : (x.1.key, x.2) ∈ rows := by
  cases range with
  | partition partition stem ascending =>
    rw [select_partition] at hx
    obtain ⟨e, he, rfl⟩ := List.mem_map.mp hx
    exact List.mem_of_mem_filter (mem_directed.mp (List.mem_of_mem_filter he))
  | index index hash stem ascending =>
    rw [select_index] at hx
    obtain ⟨e, he, rfl⟩ := List.mem_map.mp hx
    exact ((mem_indexed hrows).mp (mem_directed.mp (List.mem_of_mem_filter he))).1
  | partitions partitions =>
    rw [select_partitions] at hx
    obtain ⟨e, he, rfl⟩ := List.mem_map.mp hx
    exact List.mem_of_mem_filter (List.mem_of_mem_filter he)

end Selection

/-- Whether the attributes that a database keeps in columns are texts, null or absent. -/
def Item.Indexable (item : Item) : Prop :=
  ∀ name ∈ [Attribute.kind, Attribute.tagIndex, Attribute.parent, Attribute.order],
    item.find? name = none ∨ item.find? name = some .null ∨ ∃ s, item.find? name = some (.string s)

/-- Whether the JSON text of an item parses back to it. -/
def Item.ReadsBack (item : Item) : Prop := Json.read? (Json.ofMap item).compact = some (Json.ofMap item)

namespace Row

/-- The row of an item that can be indexed. -/
def of (item : Item) : Row :=
  ⟨item.text? Attribute.kind, item.text? Attribute.tagIndex, item.text? Attribute.parent,
    item.text? Attribute.order, (Json.ofMap item).compact⟩

theorem column_eq {item : Item} {name : String} (h : item.find? name = none ∨
    item.find? name = some .null ∨ ∃ s, item.find? name = some (.string s)) :
    column item name = .ok (item.text? name) := by
  rcases h with h | h | ⟨s, h⟩ <;> simp [column, Item.text?, h, Json.string?]

theorem ofItem_eq {item : Item} (h : item.Indexable) : ofItem item = .ok (of item) := by
  have hkind := column_eq (h Attribute.kind (by simp))
  have htag := column_eq (h Attribute.tagIndex (by simp))
  have hparent := column_eq (h Attribute.parent (by simp))
  have horder := column_eq (h Attribute.order (by simp))
  simp only [ofItem, hkind, htag, hparent, horder]
  rfl

theorem item?_of {item : Item} (h : item.ReadsBack) : (of item).item? = some item := by
  have hbody : Json.read? (of item).body = some (.object item.entries) := h
  rw [item?, hbody]
  exact congrArg some (SortedMap.ofList_entries item)

/-- A row shows to an index what its item does. -/
theorem places_of {key : ItemKey} {item : Item} (h : item.key = .ok key) (index : Index) :
    places index key (of item) = Memory.places index key item := by
  obtain ⟨hpartition, hsort⟩ := Item.key_eq_ok_iff.mp h
  cases index <;> simp [places, Memory.places, Index.columns, Index.hash, Index.range, Column.cell?,
    of, hpartition, hsort]

end Row

/-- Whether a database keeps what is put as it is given. -/
def WriteOp.Plain : WriteOp → Prop
  | .put item _ => item.Indexable ∧ item.ReadsBack
  | .delete _ _ => True

/-- An item of texts may be put anywhere. -/
theorem WriteOp.plain_of_texts {item : Item} (h : ∀ e ∈ item.entries, ∃ s, e.2 = .string s)
    (condition : Option Condition) : (put item condition).Plain := by
  refine ⟨fun name _ => ?_, Item.read?_compact_of_texts h⟩
  cases hf : item.find? name with
  | none => exact .inl rfl
  | some value =>
    obtain ⟨s, rfl⟩ := h _ (SortedMap.mem_entries_iff.mpr hf)
    exact .inr (.inr ⟨s, rfl⟩)

/-- Whether a database has columns for what is put. -/
def WriteOp.Indexable : WriteOp → Prop
  | .put item _ => item.Indexable
  | .delete _ _ => True

theorem WriteOp.Plain.indexable {op : WriteOp} (h : op.Plain) : op.Indexable := by
  cases op with
  | put item condition => exact h.1
  | delete key condition => trivial

namespace Database

theorem item_eq_ok_iff {row : Row} {item : Item} : Database.item row = .ok item ↔ row.item? = some item := by
  rw [Database.item]
  cases row.item? <;> simp

/-- What an operation does to the rows, if there are columns for what it puts. -/
def settle (rows : SortedMap ItemKey Row) : ItemKey × WriteOp → SortedMap ItemKey Row
  | (key, .put item _) => rows.insert key (.of item)
  | (key, .delete _ _) => rows.erase key

theorem applyAll_settle (rows : SortedMap ItemKey Row) {es : List (ItemKey × WriteOp)}
    (hes : ∀ e ∈ es, e.2.Indexable) : applyAll rows es = .ok (es.foldl settle rows) := by
  induction es generalizing rows with
  | nil => rfl
  | cons e es ih =>
    have hone : applyOne rows e = .ok (settle rows e) := by
      obtain ⟨key, op⟩ := e
      cases op with
      | put item condition =>
        rw [applyOne, Row.ofItem_eq (hes _ List.mem_cons_self)]
        rfl
      | delete key' condition => rfl
    rw [applyAll, hone, List.foldl_cons]
    exact ih _ fun e he => hes e (List.mem_cons_of_mem _ he)

end Database

/-- Whether a read's stem has no null character, and its limit leaves room for one row more. -/
structure Read.Plain (r : Read) : Prop where
  stem : r.range.NoNull
  limit : ∀ n, r.limit = some n → n + 1 < Nat.pow 2 63

/-- Whether a valid read names more partitions than a database's statement can, with a parameter for each
of them, two for a start and one for the limit. -/
def Read.isTooWide (r : Read) : Bool :=
  match r.range with
  | .partitions partitions => r.limit != some 0 &&
    Database.maxParameters < partitions.length + (if r.start.isSome then 2 else 0) + 1
  | _ => false

namespace Database

theorem parameters_partitions (partitions : List String) (limit : Option Nat) (start : Option StartKey) :
    (statement ⟨.partitions partitions, limit, start⟩).parameters =
      partitions.length + (if start.isSome then 2 else 0) + 1 := by
  cases start <;> rfl

/-- Only partitions can make a statement too long. -/
theorem isTooWide_iff {r : Read} (hzero : r.limit ≠ some 0) :
    r.isTooWide = true ↔ maxParameters < (statement r).parameters := by
  obtain ⟨range, limit, start⟩ := r
  cases range with
  | partition partition stem ascending =>
    cases start <;> simp [Read.isTooWide, statement, Statement.parameters, Clause.parameters, maxParameters]
  | index index hash stem ascending =>
    cases h : Selection.startPlace? start <;>
      simp [Read.isTooWide, statement, Statement.parameters, Clause.parameters, maxParameters, h]
  | partitions partitions =>
    have hzero : (limit != some 0) = true := bne_iff_ne.mpr hzero
    simp only [parameters_partitions, Read.isTooWide, hzero, Bool.true_and, decide_eq_true_eq]

theorem read_tooWide (d : Database) {r : Read} (hzero : r.limit ≠ some 0) (hwide : r.isTooWide = true) :
    d.read r = .error .database := by
  have hlong := (isTooWide_iff hzero).mp hwide
  have hsome : r.range ≠ .partitions [] := by
    intro hnone
    rw [Read.isTooWide, hnone] at hwide
    cases hstart : r.start <;> simp [hstart, maxParameters] at hwide
  simp [Database.read, Read.checkLimit, hzero, hsome, select, hlong, bind, Except.bind]

end Database

/-- A table of the rows of items is read in the places where the items are. -/
theorem Database.found_eq_rows {d : Database} {m : Memory} (hrows : d.rows = m.items.map Row.of) (hm : m.Keyed)
    (r : Read) : d.found r = (m.rows r).map fun x => (x.1, Row.of x.2) := by
  rw [found, hrows]
  apply Selection.select_map
  intro index e he
  exact Row.places_of (hm e.1 e.2 (SortedMap.mem_entries_iff.mp he)) index

/-- Where what is found reads back as what a store in memory finds, the page is the same. -/
theorem Database.read_eq_memory {d : Database} {m : Memory} {r : Read} (hr : r.Plain) (hzero : r.limit ≠ some 0)
    (hshort : (statement r).parameters ≤ maxParameters)
    (hfound : (d.found r).map (fun x => (x.1, x.2.item?)) = (m.rows r).map fun x => (x.1, some x.2)) :
    Store.read d r = Store.read m r := by
  let f : Row → Item := fun row => row.item?.getD .empty
  have hitem : ∀ x ∈ d.found r, item x.2 = .ok (f x.2) := by
    intro x hx
    have hin : (x.1, x.2.item?) ∈ (m.rows r).map fun x => (x.1, some x.2) :=
      hfound ▸ List.mem_map.mpr ⟨x, hx, rfl⟩
    obtain ⟨y, _, hy⟩ := List.mem_map.mp hin
    have hsome : x.2.item? = some y.2 := (Prod.mk.inj hy).2.symm
    simp only [f, item, hsome, Option.getD_some]
  have hrows : (d.found r).map (fun x => (x.1, f x.2)) = m.rows r := by
    have hmap := congrArg (List.map fun x : StartKey × Option Item => (x.1, x.2.getD .empty)) hfound
    simpa [f, List.map_map, Function.comp_def] using hmap
  rw [m.read_eq hzero, ← hrows]
  change d.read r = _
  rw [read_eq d hr.stem hzero hr.limit hshort hitem]
  simp only [List.length_map, ← List.map_take, List.map_map, Function.comp_def, List.getLast?_map,
    Option.map_map]

/-- What a single operation's answer is made of the answer to its batch. -/
def Store.single (key : ItemKey) : Except StoreError Unit → Except StoreError Unit
  | .error (.cancelled reasons) =>
    if reasons.any fun r => r.code == .conditionFailed then .error (.conditionFailed key)
    else .error (.cancelled reasons)
  | answer => answer

theorem Store.write_eq {σ : Type} [Store σ] (s : σ) (op : WriteOp) :
    write s op = match op.key with
      | .error cause => (.error (.invalid cause), s)
      | .ok key => (single key (transact s [op]).1, (transact s [op]).2) := by
  rw [write]
  cases op.key with
  | error cause => rfl
  | ok key =>
    obtain ⟨answer, s'⟩ := transact s [op]
    cases answer with
    | ok _ => rfl
    | error e =>
      cases e with
      | cancelled reasons =>
        dsimp only [single]
        split <;> rfl
      | _ => rfl

/-- No faults come up where none are queued. -/
theorem Memory.faults_transact (m : Memory) (h : m.faults = []) (ops : List WriteOp) :
    (m.transact ops).2.faults = [] := by
  unfold transact
  rw [h]
  dsimp only
  split
  · exact h
  · split
    · exact h
    · rfl

/-- Whether a database holds what a store in memory does: a row for each item, which can be read back. -/
structure Simulates (m : Memory) (d : Database) : Prop where
  quiet : m.faults = []
  unlocked : d.locked = false
  rows : d.rows = m.items.map Row.of
  keyed : m.Keyed
  readable : ∀ key item, m.items.find? key = some item → item.ReadsBack

namespace Simulates
variable {m : Memory} {d : Database} (h : Simulates m d)

theorem empty : Simulates .empty .empty where
  quiet := rfl
  unlocked := rfl
  rows := rfl
  keyed := nofun
  readable := nofun

include h

theorem get (key : ItemKey) : Store.get d key = Store.get m key := by
  change d.get key = .ok (m.items.find? key)
  rw [Database.get, h.rows, SortedMap.find?_map]
  cases hf : m.items.find? key with
  | none => rfl
  | some item =>
    simp only [Option.map_some, Database.item, Row.item?_of (h.readable key item hf)]
    rfl

theorem found_eq (r : Read) : d.found r = (m.rows r).map fun x => (x.1, Row.of x.2) :=
  Database.found_eq_rows h.rows h.keyed r

/-- Every item that a read finds can be read back. -/
theorem readable_of_mem {r : Read} {x : StartKey × Item} (hx : x ∈ m.rows r) : x.2.ReadsBack := by
  have hmem := Selection.mem_of_mem_select m.items.sorted hx
  exact h.readable x.1.key x.2 (SortedMap.mem_entries_iff.mp hmem)

/-- A page shows the items of the rows that are found. -/
theorem read_of_parameters {r : Read} (hr : r.Plain) (hzero : r.limit ≠ some 0)
    (hshort : (Database.statement r).parameters ≤ Database.maxParameters) :
    Store.read d r = Store.read m r := by
  apply Database.read_eq_memory hr hzero hshort
  rw [h.found_eq, List.map_map]
  apply List.map_congr_left
  intro x hx
  simp only [Function.comp, Row.item?_of (h.readable_of_mem hx)]

theorem read {r : Read} (hr : r.Plain) :
    Store.read d r = if r.isTooWide then .error .database else Store.read m r := by
  by_cases hzero : r.limit = some 0
  · have hwide : r.isTooWide = false := by
      cases hrange : r.range <;> simp [Read.isTooWide, hrange, hzero]
    change d.read r = if r.isTooWide then _ else m.read r
    simp [hwide, Database.read, Memory.read, Read.checkLimit, hzero, bind, Except.bind]
  split
  next hwide => exact d.read_tooWide hzero hwide
  next hwide =>
    rw [Database.isTooWide_iff hzero] at hwide
    exact h.read_of_parameters hr hzero (Nat.le_of_not_lt hwide)

/-- An item is looked at only for a condition, but the verdict is the same. -/
theorem reason_eq (e : ItemKey × WriteOp) : d.reason e = .ok (Memory.reason m.items e) := by
  obtain ⟨key, op⟩ := e
  have hrow : d.rows.find? key = (m.items.find? key).map Row.of := by rw [h.rows, SortedMap.find?_map]
  rw [Database.reason, Memory.reason, hrow]
  cases hcondition : op.condition with
  | none => simp [WriteOp.allowed, hcondition]
  | some condition =>
    cases hf : m.items.find? key with
    | none => rfl
    | some item => simp only [Option.map_some, Row.item?_of (h.readable key item hf)]

omit h in
/-- Rows are put and deleted as the items are. -/
theorem applyAll_eq (items : SortedMap ItemKey Item) {es : List (ItemKey × WriteOp)}
    (hes : ∀ e ∈ es, e.2.Indexable) :
    Database.applyAll (items.map Row.of) es = .ok ((es.foldl Memory.apply items).map Row.of) := by
  have hstep : ∀ items e, Database.settle (items.map Row.of) e = (Memory.apply items e).map Row.of := by
    rintro items ⟨key, op⟩
    cases op with
    | put item condition => exact (SortedMap.map_insert Row.of items key item).symm
    | delete key' condition => exact (SortedMap.map_erase Row.of items key).symm
  rw [Database.applyAll_settle _ hes, List.foldl_hom (SortedMap.map Row.of) hstep]

/-- A batch does to the rows what it does to the items, and gets the same answer. -/
theorem transact_eq {ops : List WriteOp} (hops : ∀ op ∈ ops, op.Plain) : Store.transact d ops =
    ((Store.transact m ops).1, { d with rows := (Store.transact m ops).2.items.map Row.of }) := by
  have hsame : { d with rows := m.items.map Row.of } = d := by rw [← h.rows]
  change d.transact ops = ((m.transact ops).1, { d with rows := (m.transact ops).2.items.map Row.of })
  cases hes : WriteOp.keyed ops with
  | error cause =>
    have hm : m.transact ops = (.error (.invalid cause), m) := by simp [Memory.transact, hes]
    rw [hm, hsame]
    simp [Database.transact, hes, Outcome.mapError_error, bind, Except.bind]
  | ok es =>
    have hreasons : es.mapM d.reason = .ok (es.map (Memory.reason m.items)) :=
      Outcome.mapM_eq_ok fun e _ => h.reason_eq e
    by_cases hfailed : (es.map (Memory.reason m.items)).any Reason.isFailure = true
    · have hm : m.transact ops = (.error (.cancelled (es.map (Memory.reason m.items))), m) := by
        simp [Memory.transact, hes, h.quiet, hfailed]
      rw [hm, hsame]
      simp [Database.transact, hes, Outcome.mapError_ok, hreasons, hfailed, bind, Except.bind, throw,
        throwThe, MonadExceptOf.throw]
    · have hindexable : ∀ e ∈ es, e.2.Indexable := by
        intro e he
        exact (hops e.2 ((WriteOp.keyed_spec hes).2 ▸ List.mem_map.mpr ⟨e, he, rfl⟩)).indexable
      have happly : d.apply es = .ok ((es.foldl Memory.apply m.items).map Row.of) := by
        simp [Database.apply, h.unlocked, h.rows, applyAll_eq m.items hindexable, pure, Except.pure]
      have hm : m.transact ops = (.ok (), { m with items := es.foldl Memory.apply m.items }) := by
        simp [Memory.transact, hes, h.quiet, hfailed]
      rw [hm]
      simp [Database.transact, hes, Outcome.mapError_ok, hreasons, hfailed, happly, bind, Except.bind]

/-- What is stored after a batch was stored before, or put by it. -/
theorem readable_transact {ops : List WriteOp} (hops : ∀ op ∈ ops, op.Plain) {key : ItemKey} {item : Item}
    (hf : (m.transact ops).2.items.find? key = some item) : item.ReadsBack := by
  rcases m.transact_settles ops with ⟨_, _, hitems⟩ | ⟨es, hkeyed, rfl, _, _, hitems⟩
  · exact h.readable key item (hitems ▸ hf)
  rw [hitems, Memory.find?_applyAll hkeyed] at hf
  cases he : es.find? fun e => e.1 = key with
  | none =>
    rw [he] at hf
    exact h.readable key item hf
  | some e =>
    rw [he] at hf
    have hop := hops e.2 (List.mem_map.mpr ⟨e, List.mem_of_find?_eq_some he, rfl⟩)
    cases hput : e.2 with
    | put stored condition =>
      simp only [Option.map_some, hput, WriteOp.leaves, Option.some.injEq] at hf
      rw [hput] at hop
      exact hf ▸ hop.2
    | delete key' condition =>
      simp [hput, WriteOp.leaves] at hf

/-- A batch gets the same answer, and what it leaves is the same again. -/
theorem transact {ops : List WriteOp} (hops : ∀ op ∈ ops, op.Plain) :
    (Store.transact d ops).1 = (Store.transact m ops).1 ∧
      Simulates (Store.transact m ops).2 (Store.transact d ops).2 := by
  rw [h.transact_eq hops]
  refine ⟨rfl, m.faults_transact h.quiet ops, h.unlocked, rfl, h.keyed.transact ops, fun key item hf => ?_⟩
  exact h.readable_transact hops hf

theorem write {op : WriteOp} (hop : op.Plain) :
    (Store.write d op).1 = (Store.write m op).1 ∧ Simulates (Store.write m op).2 (Store.write d op).2 := by
  have hops : ∀ o ∈ [op], o.Plain := by simpa using hop
  obtain ⟨hanswer, hnext⟩ := h.transact hops
  rw [Store.write_eq, Store.write_eq]
  cases op.key with
  | error cause => exact ⟨rfl, h⟩
  | ok key => exact ⟨congrArg (Store.single key) hanswer, hnext⟩

end Simulates

/-- What may be asked of a store. A single put or delete is a `write`. -/
inductive Request where
  | get (key : ItemKey)
  | read (r : Read)
  | transact (ops : List WriteOp)
  | write (op : WriteOp)

inductive Reply where
  | item (answer : Except StoreError (Option Item))
  | page (answer : Except StoreError Page)
  | done (answer : Except StoreError Unit)

def Reply.page? : Reply → Option Page
  | .page (.ok p) => some p
  | _ => none

namespace Request

def Plain : Request → Prop
  | .get _ => True
  | .read r => r.Plain
  | .transact ops => ∀ op ∈ ops, op.Plain
  | .write op => op.Plain

/-- What becomes of an answer where a read is too wide for a database. -/
def capped : Request → Reply → Reply
  | .read r, reply => if r.isTooWide then .page (.error .database) else reply
  | _, reply => reply

section
variable {σ : Type} [Store σ]

def run (s : σ) : Request → Reply × σ
  | .get key => (.item (Store.get s key), s)
  | .read r => (.page (Store.read s r), s)
  | .transact ops => let (answer, s) := Store.transact s ops; (.done answer, s)
  | .write op => let (answer, s) := Store.write s op; (.done answer, s)

/-- What a store answers to one request after the other. -/
def answers (s : σ) : List Request → List Reply
  | [] => []
  | q :: requests => (q.run s).1 :: answers (q.run s).2 requests

end

theorem run_simulates {m : Memory} {d : Database} (h : Simulates m d) {q : Request} (hq : q.Plain) :
    (q.run d).1 = q.capped (q.run m).1 ∧ Simulates (q.run m).2 (q.run d).2 := by
  cases q with
  | get key => exact ⟨congrArg Reply.item (h.get key), h⟩
  | read r =>
    refine ⟨?_, h⟩
    change Reply.page (Store.read d r) = if r.isTooWide then _ else Reply.page (Store.read m r)
    rw [h.read hq]
    split <;> rfl
  | transact ops =>
    obtain ⟨hanswer, hnext⟩ := h.transact hq
    exact ⟨congrArg Reply.done hanswer, hnext⟩
  | write op =>
    obtain ⟨hanswer, hnext⟩ := h.write hq
    exact ⟨congrArg Reply.done hanswer, hnext⟩

/-- A database gives the answers that a store in memory gives, whatever is asked of them from the start,
except to reads of more partitions than it can take. -/
theorem answers_database {requests : List Request} (hplain : ∀ q ∈ requests, q.Plain) :
    answers Database.empty requests = List.zipWith capped requests (answers Memory.empty requests) := by
  -- The stores change as requests are answered, so this has to hold of any two that agree.
  have hrun : ∀ {m : Memory} {d : Database}, Simulates m d →
      answers d requests = List.zipWith capped requests (answers m requests) := by
    induction requests with
    | nil => exact fun _ => rfl
    | cons q requests ih =>
      intro m d h
      obtain ⟨hreply, hnext⟩ := run_simulates h (hplain q List.mem_cons_self)
      rw [answers, answers, List.zipWith_cons_cons, hreply,
        ih (fun q hq => hplain q (List.mem_cons_of_mem _ hq)) hnext]
  exact hrun .empty

/-- The pages of two children in descending order, one by one, after one of them could not be put again. -/
theorem answers_database_children :
    let first : Item := .ofTexts [("pk", "s:1"), ("sk", "s:1"), ("type", "s"), ("siKey2", "p:9"), ("siKey3", "2")]
    let second : Item := .ofTexts [("pk", "s:2"), ("sk", "s:2"), ("type", "s"), ("siKey2", "p:9"), ("siKey3", "3")]
    let start : StartKey := ⟨"s:2", "s:2", some ⟨"p:9", "3"⟩⟩
    let children : Range := .index .parentOrder "p:9" "" false
    let requests : List Request := [.transact [.put first none, .put second none],
      .write (.put first (some .absent)), .read ⟨children, some 1, none⟩, .read ⟨children, some 1, some start⟩]
    (∀ q ∈ requests, q.Plain) ∧
      ((answers Database.empty requests).map fun reply => reply.page?.map fun page =>
        (page.items.length, page.last)) = [none, none, some (1, some start), some (1, none)] := by
  intro first second start children requests
  have hplain : ∀ q ∈ requests, q.Plain := by
    have hfirst := WriteOp.plain_of_texts (Item.ofTexts_texts [("pk", "s:1"), ("sk", "s:1"),
      ("type", "s"), ("siKey2", "p:9"), ("siKey3", "2")])
    have hsecond := WriteOp.plain_of_texts (Item.ofTexts_texts [("pk", "s:2"), ("sk", "s:2"),
      ("type", "s"), ("siKey2", "p:9"), ("siKey3", "3")])
    have hread : ∀ start, Read.Plain ⟨children, some 1, start⟩ := by
      intro start
      refine ⟨show Text.NoNull "" by decide, fun n hn => ?_⟩
      cases hn
      decide
    simp [requests, Plain, hfirst, hsecond, hread, first, second]
  refine ⟨hplain, ?_⟩
  rw [answers_database hplain]
  decide +kernel

/-- A database can not take as many partitions as a store in memory can. -/
theorem answers_too_wide :
    let wide : Request := .read { range := .partitions (List.replicate 32766 "") }
    wide.Plain ∧ answers Memory.empty [wide] = [.page (.ok .empty)] ∧
      answers Database.empty [wide] = [.page (.error .database)] := by
  intro wide
  have hwide : Read.isTooWide { range := .partitions (List.replicate 32766 "") } = true := by
    simp only [Read.isTooWide, List.length_replicate]
    decide
  have hplain : wide.Plain := ⟨trivial, nofun⟩
  refine ⟨hplain, rfl, ?_⟩
  have hanswer := Simulates.empty.read hplain
  rw [if_pos hwide] at hanswer
  change [Reply.page (Store.read Database.empty _)] = _
  rw [hanswer]

end Request

end TagStore
