import TagStore.Listing.Ids
import TagStore.Proofs.Resuming
import TagStore.Store.Memory

namespace TagStore

/-- Where the first page of a read is the last one, it is all that is read. -/
theorem Read.all_eq {σ : Type} [Store σ] {s : σ} {r : Read} {items : List Item}
    (h : Store.read s r = .ok ⟨items, none⟩) : Read.all s r = .ok items := by
  have hr : Store.read s (Walk.ofRead r).read = _ := h
  rw [Read.all, Walk.rest, Walk.collect, Walk.next, hr]
  cases Store.size s with
  | zero => simp [Walk.ofRead, Walk.collect, bind, Except.bind, pure, Except.pure]
  | succ n => simp [Walk.ofRead, Walk.after, Walk.collect, Walk.next, bind, Except.bind, pure, Except.pure]

/-- Where there is no first page, nothing is read. -/
theorem Read.all_error {σ : Type} [Store σ] {s : σ} {r : Read} {e : StoreError} (h : Store.read s r = .error e) :
    Read.all s r = .error e := by
  have hr : Store.read s (Walk.ofRead r).read = _ := h
  rw [Read.all, Walk.rest, Walk.collect, Walk.next, hr]
  rfl

namespace Memory

/-- All rows that a read asks for, however few of them its pages hold. -/
def rows (m : Memory) (r : Read) : List (StartKey × Item) :=
  Selection.select places m.items.entries r.start r.range

/-- A row that is found through an index. -/
def indexRow (hash : String) (e : Selection.Place × Item) : StartKey × Item :=
  (⟨e.1.key.partition, e.1.key.sort, some ⟨hash, e.1.range⟩⟩, e.2)

/-- A read of an index finds its rows that lie beyond the start, in their order or the other. -/
theorem rows_index (m : Memory) (index : Index) (hash stem : String) (ascending : Bool)
    (limit : Option Nat) (start : Option StartKey) :
    m.rows { range := .index index hash stem ascending, limit, start } =
      ((Selection.directed ascending
          (Selection.indexed places index hash stem m.items.entries).entries).filter fun e =>
        (Selection.startPlace? start).all fun s => Selection.isBeyond ascending (compare e.1 s)).map
        (indexRow hash) :=
  Selection.select_index start index hash stem ascending

theorem rows_index_whole (m : Memory) (index : Index) (hash stem : String) (ascending : Bool)
    (limit : Option Nat) :
    m.rows { range := .index index hash stem ascending, limit } =
      (Selection.directed ascending
        (Selection.indexed places index hash stem m.items.entries).entries).map (indexRow hash) := by
  rw [rows_index, List.filter_eq_self.mpr]
  intro e _
  rfl

theorem places_eq_some_iff {index : Index} {key : ItemKey} {item : Item} {hash range : String} :
    places index key item = some (hash, range) ↔
      item.text? index.hash = some hash ∧ item.text? index.range = some range := by
  simp [places, bind, Option.bind_eq_some_iff, pure]

theorem mem_indexed {m : Memory} {index : Index} {hash stem : String} {p : Selection.Place} {item : Item} :
    (p, item) ∈ (Selection.indexed places index hash stem m.items.entries).entries ↔
      m.items.find? p.key = some item ∧ item.text? index.hash = some hash ∧
        item.text? index.range = some p.range ∧ Text.beginsWith p.range stem = true := by
  rw [Selection.mem_indexed m.items.sorted, SortedMap.mem_entries_iff, places_eq_some_iff, and_assoc]

/-- A row that is found through an index is that of a stored item which has a place there. -/
theorem of_mem_rows_index {m : Memory} {index : Index} {hash stem : String} {ascending : Bool}
    {limit : Option Nat} {start : Option StartKey} {x : StartKey × Item}
    (hx : x ∈ m.rows { range := .index index hash stem ascending, limit, start }) :
    ∃ key range, m.items.find? key = some x.2 ∧ x.2.text? index.hash = some hash ∧
      x.2.text? index.range = some range ∧ Text.beginsWith range stem = true := by
  rw [rows_index] at hx
  obtain ⟨⟨p, item⟩, he, rfl⟩ := List.mem_map.mp hx
  exact ⟨p.key, p.range, mem_indexed.mp (Selection.mem_directed.mp (List.mem_filter.mp he).1)⟩

/-- A read finds no more rows than there are items. -/
theorem length_rows_le (m : Memory) (r : Read) : (m.rows r).length ≤ Store.size m := by
  change (m.rows r).length ≤ m.items.entries.length
  obtain ⟨range, limit, start⟩ := r
  rw [rows]
  cases range with
  | partition partition stem ascending =>
    rw [Selection.select_partition, List.length_map, ← Selection.directed_filter,
      Selection.length_directed]
    exact Nat.le_trans (List.length_filter_le _ _) (List.length_filter_le _ _)
  | index index hash stem ascending =>
    rw [Selection.select_index, List.length_map, ← Selection.directed_filter,
      Selection.length_directed]
    exact Nat.le_trans (List.length_filter_le _ _)
      (Selection.length_indexed_le m.items.sorted index hash stem)
  | partitions partitions =>
    rw [Selection.select_partitions, List.length_map]
    exact Nat.le_trans (List.length_filter_le _ _) (List.length_filter_le _ _)

theorem read_unlimited (m : Memory) {r : Read} (h : r.limit = none) :
    Store.read m r = .ok ⟨(m.rows r).map Prod.snd, none⟩ := by
  change Memory.read m r = _
  simp [Memory.read, Read.checkLimit, h, page, rows, bind, Except.bind, pure, Except.pure]

theorem read_limited (m : Memory) {r : Read} {n : Nat} (h : r.limit = some n) (hn : 0 < n) :
    Store.read m r = .ok ⟨((m.rows r).take n).map Prod.snd,
      if n < (m.rows r).length then ((m.rows r).take n).getLast?.map Prod.fst else none⟩ := by
  have h0 : n ≠ 0 := by omega
  change Memory.read m r = _
  simp only [Memory.read, Read.checkLimit, h, Option.some.injEq, h0, ↓reduceIte]
  rfl

/-- A page has the items that come first among those that a read asks for. -/
theorem read_eq (m : Memory) {r : Read} (h : r.limit ≠ some 0) :
    Store.read m r = .ok ⟨((m.rows r).take (r.limit.getD (m.rows r).length)).map Prod.snd,
      if r.limit.getD (m.rows r).length < (m.rows r).length then
        ((m.rows r).take (r.limit.getD (m.rows r).length)).getLast?.map Prod.fst else none⟩ := by
  cases hn : r.limit with
  | none => simp [read_unlimited m hn]
  | some n =>
    have hpos : 0 < n := Nat.pos_of_ne_zero fun h0 => h (h0 ▸ hn)
    simp [read_limited m hn hpos]

/-- The read that goes on where a page ended finds exactly the rows that the page left out. -/
theorem rows_after_page (m : Memory) (r : Read) {n : Nat} (hn : 0 < n)
    (h : n < (m.rows r).length) :
    m.rows { r with start := ((m.rows r).take n).getLast?.map Prod.fst } = (m.rows r).drop n := by
  have hne : (m.rows r).take n ≠ [] := by
    intro he
    rcases List.take_eq_nil_iff.mp he with h0 | h0
    · omega
    · simp [h0] at h
  obtain ⟨⟨k, row⟩, hk⟩ : ∃ x, ((m.rows r).take n).getLast? = some x :=
    ⟨_, List.getLast?_eq_some_getLast hne⟩
  obtain ⟨a, ha⟩ := List.getLast?_eq_some_iff.mp hk
  have hr : m.rows r = a ++ (k, row) :: (m.rows r).drop n := by
    conv => lhs; rw [← List.take_append_drop n (m.rows r), ha]
    simp
  rw [hk]
  exact Selection.select_after m.items.sorted hr

/-- The items that are still to come on a walk. -/
def ahead (m : Memory) (w : Walk) : List Item :=
  if w.exhausted then [] else (m.rows w.read).map Prod.snd

/-- A page holds the first items that are to come, as many as fit, and the others are to come after it. It
is the last one if there are no others, and else leaves a position to go on from. -/
theorem next_limited (m : Memory) {w : Walk} (hw : w.exhausted = false) {n : Nat}
    (h : w.read.limit = some n) (hn : 0 < n) :
    ∃ w' : Walk, w.next m = .ok (some ((m.ahead w).take n), w') ∧ m.ahead w' = (m.ahead w).drop n ∧
      w'.exhausted = decide ((m.ahead w).length ≤ n) ∧ w'.position.isNone = w'.exhausted ∧
      w'.read = { w.read with start := w'.position } := by
  have hahead : m.ahead w = (m.rows w.read).map Prod.snd := by
    rw [ahead, hw]
    rfl
  have hnext : w.next m = .ok (some ((m.ahead w).take n), w.after ⟨(m.ahead w).take n,
      if n < (m.rows w.read).length then ((m.rows w.read).take n).getLast?.map Prod.fst else none⟩) := by
    simp only [Walk.next, hw, m.read_limited h hn, hahead, List.map_take, bind, Except.bind, pure,
      Except.pure, Bool.false_eq_true, if_false]
  by_cases hmore : n < (m.rows w.read).length
  · have hafter := m.rows_after_page w.read hn hmore
    rw [if_pos hmore] at hnext
    have hlast : (((m.rows w.read).take n).getLast?.map Prod.fst).isNone = false := by
      rw [Option.isNone_map, Option.isNone_eq_false_iff, List.getLast?_isSome, ne_eq, List.take_eq_nil_iff]
      rintro (h0 | h0)
      · omega
      · simp [h0] at hmore
    refine ⟨_, hnext, ?_, ?_, rfl, rfl⟩
    · simp only [ahead, Walk.after, hlast, Bool.false_eq_true, if_false, hafter, hw, List.map_drop]
    · simp only [Walk.after, hlast, hahead, List.length_map]
      exact (decide_eq_false (by omega)).symm
  · rw [if_neg hmore] at hnext
    refine ⟨_, hnext, ?_, ?_, rfl, rfl⟩
    · rw [hahead, List.drop_eq_nil_of_le (by simpa using hmore)]
      rfl
    · rw [hahead, List.length_map]
      exact (decide_eq_true (by omega)).symm

theorem length_ahead_le (m : Memory) (w : Walk) : (m.ahead w).length ≤ Store.size m := by
  rw [ahead]
  split
  · exact Nat.zero_le _
  · rw [List.length_map]
    exact m.length_rows_le w.read

/-- A page passes an item if there is one to come, whether or not it has a limit. -/
theorem next_eq (m : Memory) {w : Walk} (hw : w.exhausted = false) (h : w.read.limit ≠ some 0) :
    ∃ n w', 0 < n ∧ w.next m = .ok (some ((m.ahead w).take n), w') ∧ m.ahead w' = (m.ahead w).drop n ∧
      w'.read.limit = w.read.limit := by
  cases hlimit : w.read.limit with
  | some n =>
    have hn : 0 < n := Nat.pos_of_ne_zero fun h0 => h (h0 ▸ hlimit)
    obtain ⟨w', hnext, hahead, _, _, hread⟩ := m.next_limited hw hlimit hn
    exact ⟨n, w', hn, hnext, hahead, hread ▸ hlimit⟩
  | none =>
    have hahead : m.ahead w = (m.rows w.read).map Prod.snd := if_neg (Bool.not_eq_true _ ▸ hw)
    refine ⟨(m.ahead w).length + 1, w.after ⟨m.ahead w, none⟩, Nat.succ_pos _, ?_, ?_, hlimit⟩
    · rw [List.take_of_length_le (Nat.le_succ _)]
      simp only [Walk.next, hw, m.read_unlimited hlimit, hahead, bind, Except.bind, pure, Except.pure,
        Bool.false_eq_true, if_false]
    · rw [List.drop_of_length_le (Nat.le_succ _)]
      rfl

/-- A walk of as many pages as there are items to come passes all of them. -/
theorem collect_eq (m : Memory) {pages : Nat} {w : Walk} (h : w.read.limit ≠ some 0)
    (hpages : (m.ahead w).length ≤ pages) : w.collect m pages = .ok (m.ahead w) := by
  induction pages generalizing w with
  | zero => rw [List.eq_nil_of_length_eq_zero (Nat.le_zero.mp hpages), Walk.collect]
  | succ pages ih =>
    cases hw : w.exhausted with
    | true => simp only [Walk.collect, Walk.next, ahead, hw, if_true, bind, Except.bind, pure, Except.pure]
    | false =>
      obtain ⟨n, w', hn, hnext, hahead, hlimit⟩ := m.next_eq hw h
      have hrest : (m.ahead w').length ≤ pages := by
        rw [hahead, List.length_drop]
        omega
      rw [Walk.collect, hnext]
      simp only [ih (hlimit ▸ h) hrest, hahead, bind, Except.bind, pure, Except.pure, List.take_append_drop]

/-- The rest of a walk is all that is to come: it is not cut off by its number of pages. -/
theorem rest_eq (m : Memory) {w : Walk} (h : w.read.limit ≠ some 0) : w.rest m = .ok (m.ahead w) :=
  m.collect_eq h (Nat.le_succ_of_le (m.length_ahead_le w))

theorem all_eq (m : Memory) {r : Read} (h : r.limit ≠ some 0) : Read.all m r = .ok ((m.rows r).map Prod.snd) :=
  m.rest_eq h

/-- The items of a partition by their sort keys. -/
def itemsIn (m : Memory) (partition : String) : List Item :=
  (m.items.entries.filter fun e => e.1.partition = partition).map Prod.snd

theorem mem_itemsIn {m : Memory} {partition : String} {item : Item} :
    item ∈ m.itemsIn partition ↔ ∃ sort, m.items.find? ⟨partition, sort⟩ = some item := by
  simp only [itemsIn, List.mem_map, List.mem_filter, decide_eq_true_eq, Prod.exists,
    exists_eq_right]
  constructor
  · rintro ⟨⟨p, s⟩, hm, rfl⟩
    exact ⟨s, SortedMap.mem_entries_iff.mp hm⟩
  · rintro ⟨s, h⟩
    exact ⟨⟨partition, s⟩, SortedMap.mem_entries_iff.mpr h, rfl⟩

/-- The keys of the items of a partition. -/
def keysIn (m : Memory) (partition : String) : List ItemKey :=
  (m.items.entries.filter fun e => e.1.partition = partition).map Prod.fst

theorem length_keysIn (m : Memory) (partition : String) :
    (m.keysIn partition).length = (m.itemsIn partition).length := by
  rw [keysIn, itemsIn, List.length_map, List.length_map]

theorem nodup_keysIn (m : Memory) (partition : String) : (m.keysIn partition).Nodup :=
  List.Pairwise.sublist (List.filter_sublist.map _) (SortedMap.nodup_keys m.items)

theorem mem_keysIn {m : Memory} {partition : String} {key : ItemKey} :
    key ∈ m.keysIn partition ↔ key.partition = partition ∧ (m.items.find? key).isSome = true := by
  simp only [keysIn, List.mem_map, List.mem_filter, decide_eq_true_eq, Option.isSome_iff_exists]
  constructor
  · rintro ⟨⟨key, item⟩, ⟨hin, hpartition⟩, rfl⟩
    exact ⟨hpartition, item, SortedMap.mem_entries_iff.mp hin⟩
  · rintro ⟨hpartition, item, hf⟩
    exact ⟨(key, item), ⟨SortedMap.mem_entries_iff.mpr hf, hpartition⟩, rfl⟩

/-- A read of a partition finds its items. -/
theorem rows_partition (m : Memory) (partition : String) :
    m.rows { range := .partition partition "" true } =
      (m.items.entries.filter fun e => e.1.partition = partition).map fun e => (Selection.ofKey e.1, e.2) := by
  rw [rows, Selection.select_partition]
  simp [Selection.directed]

theorem rows_partitions (m : Memory) (partitions : List String) :
    m.rows { range := .partitions partitions } =
      (m.items.entries.filter fun e => partitions.contains e.1.partition).map
        fun e => (Selection.ofKey e.1, e.2) := by
  rw [rows, Selection.select_partitions]
  simp

theorem listing_items (m : Memory) (code id : String) :
    Listing.items m code id = .ok (m.itemsIn (Key.resource code id)) := by
  rw [Listing.items, m.all_eq (by simp), rows_partition, List.map_map]
  rfl

theorem all_partitions (m : Memory) (partitions : List String) :
    Read.all m { range := .partitions partitions } =
      .ok ((m.items.entries.filter fun e => partitions.contains e.1.partition).map Prod.snd) := by
  rw [m.all_eq (by simp), rows_partitions, List.map_map]
  rfl

end Memory

end TagStore
