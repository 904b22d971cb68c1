import Mathlib.Data.List.Nodup
import TagStore.Proofs.Outcome
import TagStore.Proofs.Resuming
import TagStore.Store.Database

namespace TagStore

/-- Whether a text holds no null character, at which a database's functions on texts stop. -/
def Text.NoNull (s : String) : Prop := Char.ofNat 0 ∉ s.toList

instance (s : String) : Decidable (Text.NoNull s) := inferInstanceAs (Decidable (_ ∉ _))

namespace Clause

theorem takeWhile_noNull {s : String} (h : Text.NoNull s) (rest : List Char) :
    (s.toList ++ rest).takeWhile (fun c => c != Char.ofNat 0) =
      s.toList ++ rest.takeWhile fun c => c != Char.ofNat 0 := by
  apply List.takeWhile_append_of_pos
  intro c hc
  have hne : c ≠ Char.ofNat 0 := fun he => h (he ▸ hc)
  simpa using hne

theorem visible_of_noNull {s : String} (h : Text.NoNull s) : visible s = s.toList := by
  simpa [visible] using takeWhile_noNull h []

/-- Beginning with a stem can be told by cutting a text to the stem's length, and a null character in the
text makes no difference. -/
theorem take_visible_eq_iff {s stem : String} (h : Text.NoNull stem) :
    (visible s).take stem.toList.length = stem.toList ↔ stem.toList <+: s.toList := by
  constructor
  · intro he
    rw [← he]
    exact (List.take_prefix _ _).trans (List.takeWhile_prefix _)
  · intro hp
    obtain ⟨rest, hrest⟩ := hp
    rw [visible, ← hrest, takeWhile_noNull h]
    simp

theorem holds_begins (row : ItemKey × Row) (column : Column) {stem : String} (h : Text.NoNull stem) :
    holds row (.begins column stem) =
      (column.cell? row).any fun cell => Text.beginsWith cell stem := by
  rw [holds, visible_of_noNull h]
  congr 1
  funext cell
  rw [Bool.eq_iff_iff, beq_iff_eq, Text.beginsWith, List.isPrefixOf_iff_prefix,
    ← take_visible_eq_iff h, String.ext_iff, String.toList_ofList]

theorem holds_equals {row : ItemKey × Row} {column : Column} {value : String} :
    holds row (.equals column value) = true ↔ column.cell? row = some value := by
  simp [holds, Option.any_eq_true]

theorem holds_among {row : ItemKey × Row} {column : Column} {values : List String} :
    holds row (.among column values) = true ↔ ∃ cell ∈ values, column.cell? row = some cell := by
  simp [holds, Option.any_eq_true, and_comm]

theorem compareCells_of_some (row : ItemKey × Row) {columns : List (Column × String)}
    {cells : List String} (h : columns.map (fun c => c.1.cell? row) = cells.map some) :
    compareCells (columns.map fun c => (c.1.cell? row, c.2)) =
      some (compare cells (columns.map Prod.snd)) := by
  induction columns generalizing cells with
  | nil =>
    obtain rfl := List.map_eq_nil_iff.mp h.symm
    rfl
  | cons c columns ih =>
    obtain ⟨cell, rest, rfl, hcell, hrest⟩ := List.map_eq_cons_iff.mp h.symm
    have hcell : c.1.cell? row = some cell := hcell.symm
    rw [List.map_cons, hcell, compareCells, ih hrest.symm, List.map_cons, List.compare_cons_cons]
    cases compare cell c.2 <;> rfl

/-- Where no cell is empty, the cells are compared with the values as lists are. -/
theorem holds_beyond (row : ItemKey × Row) (ascending : Bool) {columns : List (Column × String)}
    {cells : List String} (h : columns.map (fun c => c.1.cell? row) = cells.map some) :
    holds row (.beyond ascending columns) =
      Selection.isBeyond ascending (compare cells (columns.map Prod.snd)) := by
  have hcells := compareCells_of_some row h
  change (compareCells (columns.map fun c => (c.1.cell? row, c.2)) == _) = _
  rw [hcells]
  rfl

end Clause

namespace Statement
variable {s : Statement} {a b c : ItemKey × Row}

/-- The order that rows are compared in, from the one they stand in to the other. -/
theorem precedes_eq : s.precedes a b =
    if s.ascending then (compare (s.cells a) (s.cells b)).isLE
    else (compare (s.cells b) (s.cells a)).isLE := by
  have hswap : compare (s.cells b) (s.cells a) = (compare (s.cells a) (s.cells b)).swap :=
    Std.OrientedCmp.eq_swap
  rw [precedes, hswap, Ordering.isLE_swap]

theorem precedes_total (s : Statement) (a b : ItemKey × Row) :
    (s.precedes a b || s.precedes b a) = true := by
  have hswap : compare (s.cells b) (s.cells a) = (compare (s.cells a) (s.cells b)).swap :=
    Std.OrientedCmp.eq_swap
  rw [precedes, precedes, hswap]
  cases s.ascending <;> cases compare (s.cells a) (s.cells b) <;> rfl

theorem precedes_trans (hab : s.precedes a b = true) (hbc : s.precedes b c = true) :
    s.precedes a c = true := by
  rw [precedes_eq] at *
  split at hab
  next hs =>
    rw [if_pos hs] at hbc ⊢
    exact Std.TransCmp.isLE_trans hab hbc
  next hs =>
    rw [if_neg hs] at hbc ⊢
    exact Std.TransCmp.isLE_trans hbc hab

theorem precedes_of_isBeyond
    (h : Selection.isBeyond s.ascending (compare (s.cells b) (s.cells a)) = true) :
    s.precedes a b = true := by
  have hswap : compare (s.cells a) (s.cells b) = (compare (s.cells b) (s.cells a)).swap :=
    Std.OrientedCmp.eq_swap
  rw [precedes, hswap]
  revert h
  cases s.ascending <;> cases compare (s.cells b) (s.cells a) <;> decide

theorem cells_eq_of_precedes (hab : s.precedes a b = true) (hba : s.precedes b a = true) :
    s.cells a = s.cells b := by
  rw [precedes_eq] at hab hba
  have heq : compare (s.cells a) (s.cells b) = .eq := by
    split at hab
    next hs =>
      rw [if_pos hs] at hba
      exact Std.OrientedCmp.isLE_antisymm hab hba
    next hs =>
      rw [if_neg hs] at hba
      exact Std.OrientedCmp.isLE_antisymm hba hab
  exact Std.LawfulEqCmp.eq_of_compare heq

/-- Rows that stand in a statement's order, each of them once, are what it finds if they are the rows that
meet its clauses. -/
theorem matching_eq {rows found : List (ItemKey × Row)} (hrows : rows.Nodup)
    (hfound : Selection.Ordered s.ascending s.cells found)
    (hmem : ∀ row, row ∈ found ↔ row ∈ rows ∧ s.clauses.all (Clause.holds row) = true) :
    s.matching rows = found := by
  have hnodup : (found.map s.cells).Nodup := hfound.nodup_map s.cells fun _ _ _ _ h => h
  have hfilter : (rows.filter fun row => s.clauses.all (Clause.holds row)).Perm found := by
    apply (List.perm_ext_iff_of_nodup (hrows.filter _) (List.Nodup.of_map _ hnodup)).mpr
    intro row
    rw [hmem, List.mem_filter]
  have hperm : (s.matching rows).Perm found := (List.mergeSort_perm _ _).trans hfilter
  have hsorted : (s.matching rows).Pairwise fun a b => s.precedes a b = true := by
    apply List.pairwise_mergeSort
    · intro a b c hab hbc
      exact precedes_trans hab hbc
    · exact s.precedes_total
  -- Both are sorted and hold the same rows, of which no two have the same cells.
  refine List.Perm.eq_of_pairwise (fun a b ha hb hab hba => ?_) hsorted
    (hfound.imp precedes_of_isBeyond) hperm
  exact List.inj_on_of_nodup_map hnodup (hperm.mem_iff.mp ha) hb (cells_eq_of_precedes hab hba)

end Statement

/-- The key of the item after which a read goes on. -/
def StartKey.key (s : StartKey) : ItemKey := ⟨s.partition, s.sort⟩

/-- What a row shows to an index. -/
def Row.places : Selection.Places Row := fun index key row => do
  let hash ← index.columns.1.cell? (key, row)
  let range ← index.columns.2.cell? (key, row)
  return (hash, range)

/-- Whether the stem of a range holds no null character. -/
def Range.NoNull : Range → Prop
  | .partition _ stem _ => Text.NoNull stem
  | .index _ _ stem _ => Text.NoNull stem
  | .partitions _ => True

namespace Selection
variable {α κ κ' : Type}

theorem Ordered.of_compare [Ord κ] [Ord κ'] {ascending : Bool} {position : α → κ} {position' : α → κ'}
    {rows : List α} (h : Ordered ascending position rows)
    (hp : ∀ x y, compare (position' y) (position' x) = compare (position y) (position x)) :
    Ordered ascending position' rows :=
  h.imp fun {x y} hxy => (hp x y).symm ▸ hxy

end Selection

namespace Database

/-- A list of one text is compared as the text is. -/
theorem compare_singleton (a b : String) : compare [a] [b] = compare a b := by
  rw [List.compare_cons_cons]
  simp

theorem compare_key (a b : ItemKey) :
    compare [a.partition, a.sort] [b.partition, b.sort] = compare a b := by
  rw [List.compare_cons_cons, compare_singleton]
  rfl

theorem compare_place (p q : Selection.Place) :
    compare [p.range, p.key.partition, p.key.sort] [q.range, q.key.partition, q.key.sort] =
      compare p q := by
  rw [List.compare_cons_cons, compare_key]
  rfl

variable {rows : List (ItemKey × Row)}

theorem matching_partition (hrows : Entries.Sorted rows) (start : Option StartKey) (limit : Option Nat)
    (partition : String) {stem : String} (hstem : Text.NoNull stem) (ascending : Bool) :
    (statement ⟨.partition partition stem ascending, limit, start⟩).matching rows =
      (Selection.directed ascending (rows.filter fun r =>
        r.1.partition = partition && Text.beginsWith r.1.sort stem)).filter fun r =>
          (start.map StartKey.sort).all fun s => Selection.isBeyond ascending (compare r.1.sort s) := by
  apply Statement.matching_eq
  · exact SortedMap.nodup_entries ⟨rows, hrows⟩
  · have ho := (Selection.ordered_partition hrows partition
      (fun r => r.1.partition = partition && Text.beginsWith r.1.sort stem)
      (by simp +contextual)).directed ascending
    apply (ho.filter _).of_compare
    intro x y
    exact compare_singleton y.1.sort x.1.sort
  · intro row
    have hbeyond : ∀ s : StartKey, Clause.holds row (.beyond ascending [(.sort, s.sort)]) =
        Selection.isBeyond ascending (compare row.1.sort s.sort) := by
      intro s
      rw [← compare_singleton]
      exact Clause.holds_beyond row ascending rfl
    cases start <;>
      simp [statement, Clause.holds_begins row _ hstem, Clause.holds_equals, hbeyond,
        Selection.mem_directed, and_assoc]

theorem places_eq_some_iff {index : Index} {key : ItemKey} {row : Row} {hash range : String} :
    Row.places index key row = some (hash, range) ↔
      index.columns.1.cell? (key, row) = some hash ∧ index.columns.2.cell? (key, row) = some range := by
  simp [Row.places, bind, Option.bind_eq_some_iff, pure]

/-- The clause for a start compares places. -/
theorem holds_beyondPlace (index : Index) (ascending : Bool) {p : Selection.Place} {row : Row}
    (hrange : index.columns.2.cell? (p.key, row) = some p.range) (s : Selection.Place) :
    Clause.holds (p.key, row) (.beyond ascending
        [(index.columns.2, s.range), (.partition, s.key.partition), (.sort, s.key.sort)]) =
      Selection.isBeyond ascending (compare p s) := by
  rw [← compare_place]
  apply Clause.holds_beyond
  simp [hrange]

theorem mem_statement_index (hrows : Entries.Sorted rows) (start : Option StartKey)
    (limit : Option Nat) (index : Index) (hash : String) {stem : String} (hstem : Text.NoNull stem)
    (ascending : Bool) (key : ItemKey) (row : Row) :
    ((key, row) ∈ rows ∧ (statement ⟨.index index hash stem ascending, limit, start⟩).clauses.all
        (Clause.holds (key, row)) = true) ↔
      ∃ p : Selection.Place, (p, row) ∈ (Selection.indexed Row.places index hash stem rows).entries ∧
        ((Selection.startPlace? start).all fun s => Selection.isBeyond ascending (compare p s)) = true ∧
        p.key = key := by
  have hclauses : (statement ⟨.index index hash stem ascending, limit, start⟩).clauses.all
      (Clause.holds (key, row)) = true ↔
        index.columns.1.cell? (key, row) = some hash ∧
        (∃ range, index.columns.2.cell? (key, row) = some range ∧ Text.beginsWith range stem = true) ∧
        ((Selection.startPlace? start).all fun s => Clause.holds (key, row) (.beyond ascending
          [(index.columns.2, s.range), (.partition, s.key.partition), (.sort, s.key.sort)])) = true := by
    simp only [statement]
    cases Selection.startPlace? start <;>
      simp [Clause.holds_equals, Clause.holds_begins _ _ hstem, Option.any_eq_true]
  rw [hclauses]
  constructor
  · rintro ⟨hm, hhash, ⟨range, hrange, hbegins⟩, hstart⟩
    refine ⟨⟨range, key⟩, ?_, ?_, rfl⟩
    · exact (Selection.mem_indexed hrows).mpr ⟨hm, places_eq_some_iff.mpr ⟨hhash, hrange⟩, hbegins⟩
    · rw [← hstart]
      congr 1
      funext s
      exact (holds_beyondPlace index ascending (p := ⟨range, key⟩) hrange s).symm
  · rintro ⟨p, hm, hstart, rfl⟩
    obtain ⟨hm, hplaces, hbegins⟩ := (Selection.mem_indexed hrows).mp hm
    obtain ⟨hhash, hrange⟩ := places_eq_some_iff.mp hplaces
    refine ⟨hm, hhash, ⟨p.range, hrange, hbegins⟩, ?_⟩
    rw [← hstart]
    congr 1
    funext s
    exact holds_beyondPlace index ascending hrange s

theorem matching_index (hrows : Entries.Sorted rows) (start : Option StartKey) (limit : Option Nat)
    (index : Index) (hash : String) {stem : String} (hstem : Text.NoNull stem) (ascending : Bool) :
    (statement ⟨.index index hash stem ascending, limit, start⟩).matching rows =
      ((Selection.directed ascending (Selection.indexed Row.places index hash stem rows).entries).filter
        fun r => (Selection.startPlace? start).all fun s =>
          Selection.isBeyond ascending (compare r.1 s)).map fun r => (r.1.key, r.2) := by
  apply Statement.matching_eq
  · exact SortedMap.nodup_entries ⟨rows, hrows⟩
  · have ho := (Selection.ordered_entries
      (Selection.indexed Row.places index hash stem rows).sorted).directed ascending
    have hcells : ∀ r ∈ (Selection.indexed Row.places index hash stem rows).entries,
        (statement ⟨.index index hash stem ascending, limit, start⟩).cells (r.1.key, r.2) =
          [some r.1.range, some r.1.key.partition, some r.1.key.sort] := by
      intro r hr
      obtain ⟨_, hrange⟩ := places_eq_some_iff.mp ((Selection.mem_indexed hrows).mp hr).2.1
      simp [Statement.cells, statement, hrange]
    -- Only rows that the index finds are known to have the cells of its places.
    apply List.pairwise_map.mpr
    refine List.Pairwise.imp_of_mem (fun {x y} hx hy hxy => ?_) (ho.filter _)
    rw [hcells x (Selection.mem_directed.mp (List.mem_of_mem_filter hx)),
      hcells y (Selection.mem_directed.mp (List.mem_of_mem_filter hy))]
    rw [← compare_place] at hxy
    exact hxy
  · rintro ⟨key, row⟩
    rw [mem_statement_index hrows start limit index hash hstem ascending key row]
    simp [List.mem_map, List.mem_filter, Selection.mem_directed, and_assoc]

theorem matching_partitions (hrows : Entries.Sorted rows) (start : Option StartKey)
    (limit : Option Nat) (partitions : List String) :
    (statement ⟨.partitions partitions, limit, start⟩).matching rows =
      (rows.filter fun r => partitions.contains r.1.partition).filter fun r =>
        (start.map StartKey.key).all fun s => Selection.isBeyond true (compare r.1 s) := by
  apply Statement.matching_eq
  · exact SortedMap.nodup_entries ⟨rows, hrows⟩
  · apply (((Selection.ordered_entries hrows).filter _).filter _).of_compare
    intro x y
    exact compare_key y.1 x.1
  · intro row
    have hbeyond : ∀ s : StartKey,
        Clause.holds row (.beyond true [(.partition, s.partition), (.sort, s.sort)]) =
          Selection.isBeyond true (compare row.1 s.key) := by
      intro s
      rw [← compare_key]
      exact Clause.holds_beyond row true rfl
    cases start <;>
      simp [statement, Clause.holds_among, hbeyond, and_comm]

/-- The statement for a read finds what the read asks for. -/
theorem matching_statement (hrows : Entries.Sorted rows) {r : Read} (hr : r.range.NoNull) :
    (statement r).matching rows =
      (Selection.select Row.places rows r.start r.range).map fun x => (x.1.key, x.2) := by
  obtain ⟨range, limit, start⟩ := r
  cases range with
  | partition partition stem ascending =>
    rw [matching_partition hrows start limit partition hr, Selection.select_partition, List.map_map]
    exact (List.map_id _).symm
  | index index hash stem ascending =>
    rw [matching_index hrows start limit index hash hr, Selection.select_index, List.map_map]
    rfl
  | partitions partitions =>
    rw [matching_partitions hrows, Selection.select_partitions, List.map_map]
    exact (List.map_id _).symm

/-- A row that was found tells where the read found it. -/
theorem position_of_mem (hrows : Entries.Sorted rows) {start : Option StartKey} {range : Range}
    {x : StartKey × Row} (hx : x ∈ Selection.select Row.places rows start range) :
    position range (x.1.key, x.2) = .ok x.1 := by
  cases range with
  | partition partition stem ascending =>
    rw [Selection.select_partition] at hx
    obtain ⟨row, _, rfl⟩ := List.mem_map.mp hx
    rfl
  | index index hash stem ascending =>
    rw [Selection.select_index] at hx
    obtain ⟨⟨p, row⟩, hm, rfl⟩ := List.mem_map.mp hx
    have hm := Selection.mem_directed.mp (List.mem_of_mem_filter hm)
    obtain ⟨_, hrange⟩ := places_eq_some_iff.mp ((Selection.mem_indexed hrows).mp hm).2.1
    have hcell : index.columns.2.cell? (StartKey.key ⟨p.key.partition, p.key.sort, some ⟨hash, p.range⟩⟩, row) =
        some p.range := hrange
    simp only [position, hcell]
    rfl
  | partitions partitions =>
    rw [Selection.select_partitions] at hx
    obtain ⟨row, _, rfl⟩ := List.mem_map.mp hx
    rfl

/-- The rows that a read asks for, however few of them its pages hold. -/
def found (d : Database) (r : Read) : List (StartKey × Row) :=
  Selection.select Row.places d.rows.entries r.start r.range

theorem signed_of_lt {n : Nat} (h : n < Nat.pow 2 63) : signed n = n := by
  have hpow : Nat.pow 2 64 = Nat.pow 2 63 * 2 := rfl
  rw [signed, hpow, Int.bmod_eq_of_le] <;> omega

/-- A statement asks for one row more than a page may have. -/
theorem run_statement (d : Database) {r : Read} (hr : r.range.NoNull)
    (hlimit : ∀ n, r.limit = some n → n + 1 < Nat.pow 2 63) :
    (statement r).run d.rows.entries =
      ((d.found r).take (r.limit.elim (d.found r).length (· + 1))).map fun x => (x.1.key, x.2) := by
  have hfound := matching_statement d.rows.sorted hr
  have hstated : (statement r).limit = fetchLimit r.limit := by
    cases h : r.range <;> simp only [statement, h]
  rw [Statement.run, hfound, hstated]
  cases hn : r.limit with
  | none =>
    have hall : fetchLimit none < 0 := by decide
    rw [if_pos hall]
    simp [found]
  | some n =>
    have hfetch : fetchLimit (some n) = (n + 1 : Nat) := signed_of_lt (hlimit n hn)
    have hcount : ¬ ((n + 1 : Nat) : Int) < 0 := by omega
    rw [hfetch, if_neg hcount, ← List.map_take]
    rfl

section
variable {r : Read} {found : List (StartKey × Row)}

/-- The row that is too many is cut off again. -/
theorem take_fetched {α β : Type} (limit : Option Nat) (found : List α) (f : α → β) :
    let rows := (found.take (limit.elim found.length (· + 1))).map f
    rows.take (limit.getD rows.length) = (found.take (limit.getD found.length)).map f := by
  cases limit with
  | none => simp only [Option.elim_none, Option.getD_none, List.take_length]
  | some n => simp [← List.map_take, List.take_take]

/-- The row that is too many tells whether there are more. -/
theorem length_fetched {α β : Type} (limit : Option Nat) (found : List α) (f : α → β) :
    (found.take (limit.getD found.length)).length <
        ((found.take (limit.elim found.length (· + 1))).map f).length ↔
      limit.getD found.length < found.length := by
  cases limit with
  | none => simp
  | some n =>
    simp only [List.length_take, List.length_map, Option.getD_some, Option.elim_some]
    omega

theorem getLast?_position (hposition : ∀ x ∈ found, position r.range (x.1.key, x.2) = .ok x.1) :
    (found.map fun x => (x.1.key, x.2)).getLast?.mapM (position r.range) =
      .ok (found.getLast?.map Prod.fst) := by
  rw [List.getLast?_map]
  cases hx : found.getLast? with
  | none => rfl
  | some x =>
    have hx := hposition x (List.mem_of_getLast? hx)
    change some <$> position r.range (x.1.key, x.2) = _
    rw [hx]
    rfl

/-- A page shows the rows within the limit, and where to go on if there are more. -/
theorem page_eq {f : Row → Item} (hposition : ∀ x ∈ found, position r.range (x.1.key, x.2) = .ok x.1)
    (hitem : ∀ x ∈ found, item x.2 = .ok (f x.2)) :
    page r ((found.take (r.limit.elim found.length (· + 1))).map fun x => (x.1.key, x.2)) =
      .ok ⟨(found.take (r.limit.getD found.length)).map fun x => f x.2,
        if r.limit.getD found.length < found.length then
          (found.take (r.limit.getD found.length)).getLast?.map Prod.fst else none⟩ := by
  have hmem : ∀ x ∈ found.take (r.limit.getD found.length), x ∈ found := fun _ hx => List.mem_of_mem_take hx
  have hlast := getLast?_position fun x hx => hposition x (hmem x hx)
  have hitems : ((found.take (r.limit.getD found.length)).map fun x => (x.1.key, x.2)).mapM
      (fun row => item row.2) = .ok ((found.take (r.limit.getD found.length)).map fun x => f x.2) := by
    rw [List.mapM_map]
    exact Outcome.mapM_eq_ok fun x hx => hitem x (hmem x hx)
  rw [page, take_fetched, List.length_map]
  simp only [length_fetched, hlast, hitems]
  split <;> rfl

end

/-- A page has the rows that come first among those that were found, and a position if there are more. -/
theorem read_eq (d : Database) {r : Read} (hr : r.range.NoNull) (hzero : r.limit ≠ some 0)
    (hlimit : ∀ n, r.limit = some n → n + 1 < Nat.pow 2 63)
    (hparameters : (statement r).parameters ≤ maxParameters) {f : Row → Item}
    (hitem : ∀ x ∈ d.found r, item x.2 = .ok (f x.2)) :
    d.read r = .ok ⟨((d.found r).take (r.limit.getD (d.found r).length)).map fun x => f x.2,
      if r.limit.getD (d.found r).length < (d.found r).length then
        ((d.found r).take (r.limit.getD (d.found r).length)).getLast?.map Prod.fst else none⟩ := by
  have hselect : d.select (statement r) = .ok ((statement r).run d.rows.entries) := by
    rw [select, if_neg (by omega)]
  have hpage := page_eq (r := r) (fun x hx => position_of_mem d.rows.sorted hx) hitem
  rw [Database.read, Read.checkLimit, if_neg hzero]
  by_cases hnone : r.range = .partitions []
  · have hfound : d.found r = [] := by
      rw [found, hnone, Selection.select_partitions]
      simp
    simp [hnone, hfound, bind, Except.bind, pure, Except.pure, Page.empty]
  · simp only [bind, Except.bind, pure, Except.pure, if_neg hnone, hselect, run_statement d hr hlimit]
    exact hpage

end Database

end TagStore
