import TagStore.Proofs.Hydration
import TagStore.Proofs.Intersection
import TagStore.Proofs.KeptTables
import TagStore.Proofs.StoredTexts

namespace TagStore

namespace Item

/-- Whether the row of an item reads back, be it to another item. -/
def Legible (item : Item) : Prop := (Row.of item).item?.isSome = true

/-- An item as its row reads back, or as it is where the row does not. -/
def readBack (item : Item) : Item := (Row.of item).item?.getD item

theorem Legible.item?_of {item : Item} (h : item.Legible) : (Row.of item).item? = some item.readBack := by
  obtain ⟨back, hback⟩ := Option.isSome_iff_exists.mp h
  rw [readBack, hback, Option.getD_some]

/-- What an item has for texts it has when it is read back. -/
@[simp] theorem text?_readBack (item : Item) (name : String) : item.readBack.text? name = item.text? name := by
  rw [readBack]
  cases hback : (Row.of item).item? with
  | none => rfl
  | some back =>
    rw [Row.item?] at hback
    split at hback
    next fields hread =>
      cases hback
      exact text?_of_read? hread name
    next => cases hback

theorem ReadsBack.legible {item : Item} (h : item.ReadsBack) : item.Legible := by
  rw [Legible, Row.item?_of h]
  rfl

theorem ReadsBack.readBack_eq {item : Item} (h : item.ReadsBack) : item.readBack = item := by
  rw [readBack, Row.item?_of h, Option.getD_some]

end Item

theorem Tag.readsBack_item (owner name value : String) : (item owner name value).ReadsBack := by
  apply Item.read?_compact_of_texts
  intro e he
  have hin := SortedMap.mem_of_mem_ofList he
  simp only [List.mem_cons, List.not_mem_nil, or_false] at hin
  rcases hin with rfl | rfl | rfl | rfl | rfl | rfl <;> exact ⟨_, rfl⟩

/-- A store in memory of items as they read back. -/
def Memory.readBack (items : SortedMap ItemKey Item) : Memory := ⟨items.map Item.readBack, []⟩

/-- A store in memory of what the rows of a table read back to. -/
def Database.decoded (d : Database) : Memory := ⟨d.rows.map fun row => row.item?.getD .empty, []⟩

/-- Whether all items of a partition are legible. -/
def LegibleIn (items : SortedMap ItemKey Item) (partition : String) : Prop :=
  ∀ key item, items.find? key = some item → key.partition = partition → item.Legible

theorem Memory.rows_readBack (items : SortedMap ItemKey Item) (r : Read) :
    (Memory.readBack items).rows r =
      ((⟨items, []⟩ : Memory).rows r).map fun x => (x.1, x.2.readBack) := by
  apply Selection.select_map
  intro index e _
  simp [places]

/-- Where all rows of a whole read are read, they read back. -/
theorem Database.isSome_of_read {d : Database} {r : Read} (hnull : r.range.NoNull) (hlimit : r.limit = none)
    {p : Page} (h : d.read r = .ok p) : ∀ x ∈ d.found r, x.2.item?.isSome = true := by
  rw [Database.read, Read.checkLimit, if_neg (by simp [hlimit])] at h
  by_cases hnone : r.range = .partitions []
  · intro x hx
    rw [found, hnone, Selection.select_partitions] at hx
    simp at hx
  · simp only [bind, Except.bind, pure, Except.pure, if_neg hnone] at h
    obtain ⟨rows, hrows, hpage⟩ := Outcome.bind_eq_ok_iff.mp h
    have hall : rows = (d.found r).map fun x => (x.1.key, x.2) := by
      rw [select] at hrows
      split at hrows
      · cases hrows
      · rw [d.run_statement hnull (by simp [hlimit]), hlimit, Option.elim_none, List.take_length] at hrows
        exact (Except.ok.inj hrows).symm
    rw [page, hlimit, Option.getD_none, List.take_length, if_neg (Nat.lt_irrefl _)] at hpage
    obtain ⟨_, _, hpage⟩ := Outcome.bind_eq_ok_iff.mp hpage
    obtain ⟨_, hread, _⟩ := Outcome.bind_eq_ok_iff.mp hpage
    intro x hx
    obtain ⟨item, hitem⟩ := Outcome.exists_of_mapM hread (hall ▸ List.mem_map.mpr ⟨x, hx, rfl⟩)
    rw [item_eq_ok_iff.mp hitem]
    rfl

namespace Database.Keeps
variable {c : Catalog} {d : Database} {items : SortedMap ItemKey Item} (h : d.Keeps c items)
include h

theorem keyed_readBack : (Memory.readBack items).Keyed := by
  intro key item hf
  rw [Memory.readBack, SortedMap.find?_map] at hf
  obtain ⟨item', hin, rfl⟩ := Option.map_eq_some_iff.mp hf
  simpa [Item.key_eq_ok_iff] using h.keyed key item' hin

/-- The items of tags are the same when they are read back. -/
theorem only_readBack : Tag.Only (Memory.readBack items) := by
  intro key item hf hindex
  rw [Memory.readBack, SortedMap.find?_map] at hf
  obtain ⟨item', hin, rfl⟩ := Option.map_eq_some_iff.mp hf
  rw [Item.text?_readBack] at hindex
  obtain ⟨owner, name, value, hname, rfl⟩ := (h.proper key item' hin).tag hindex
  exact ⟨owner, name, value, hname, (Tag.readsBack_item owner name value).readBack_eq⟩

theorem found_eq (r : Read) : d.found r = ((⟨items, []⟩ : Memory).rows r).map fun x => (x.1, Row.of x.2) :=
  Database.found_eq_rows (m := ⟨items, []⟩) h.rows h.keyed r

/-- A read that finds legible items shows them as they read back. -/
theorem read_eq {r : Read} (hr : r.Plain) (hzero : r.limit ≠ some 0)
    (hshort : (Database.statement r).parameters ≤ Database.maxParameters)
    (hlegible : ∀ x ∈ (⟨items, []⟩ : Memory).rows r, x.2.Legible) :
    Store.read (Backend.database d) r = Store.read (Memory.readBack items) r := by
  apply Database.read_eq_memory hr hzero hshort
  rw [h.found_eq, Memory.rows_readBack, List.map_map, List.map_map]
  apply List.map_congr_left
  intro x hx
  simp only [Function.comp, (hlegible x hx).item?_of]

/-- Where the items of a resource are read, all of them are legible. -/
theorem legibleIn_of_items {code id : String} {found : List Item}
    (hread : Listing.items (Backend.database d) code id = .ok found) :
    LegibleIn items (Key.resource code id) := by
  set r : Read := { range := .partition (Key.resource code id) "" true } with hr
  obtain ⟨p, hp⟩ : ∃ p, d.read r = .ok p := by
    cases hp : d.read r with
    | ok p => exact ⟨p, rfl⟩
    | error e =>
      rw [Listing.items, Read.all_error (s := Backend.database d) hp] at hread
      cases hread
  have hread := Database.isSome_of_read (r := r) (show Text.NoNull "" by decide) rfl hp
  rw [h.found_eq, Memory.rows_partition] at hread
  intro key item hf hkey
  refine hread (Selection.ofKey key, Row.of item) ?_
  simp only [List.map_map, List.mem_map, List.mem_filter, decide_eq_true_eq]
  exact ⟨(key, item), ⟨SortedMap.mem_entries_iff.mpr hf, hkey⟩, rfl⟩

/-- Legible partitions are read as they read back. -/
theorem all_eq {r : Read} (hnull : r.range.NoNull) (hlimit : r.limit = none)
    (hshort : (Database.statement r).parameters ≤ Database.maxParameters)
    (hlegible : ∀ x ∈ (⟨items, []⟩ : Memory).rows r, x.2.Legible) :
    Read.all (Backend.database d) r = Read.all (Memory.readBack items) r := by
  have hplain : r.Plain := ⟨hnull, by simp [hlimit]⟩
  have hread := h.read_eq hplain (by simp [hlimit]) hshort hlegible
  rw [Memory.read_unlimited _ hlimit] at hread
  rw [Read.all_eq hread, Memory.all_eq _ (by simp [hlimit])]

theorem items_eq {code id : String} (hlegible : LegibleIn items (Key.resource code id)) :
    Listing.items (Backend.database d) code id = Listing.items (Memory.readBack items) code id := by
  have hnull : Text.NoNull "" := by decide
  have hshort : 4 ≤ Database.maxParameters := by decide
  refine h.all_eq (r := { range := .partition (Key.resource code id) "" true }) hnull rfl hshort fun x hx => ?_
  rw [Memory.rows_partition] at hx
  obtain ⟨e, he, rfl⟩ := List.mem_map.mp hx
  obtain ⟨hin, hpartition⟩ := List.mem_filter.mp he
  exact hlegible e.1 e.2 (SortedMap.mem_entries_iff.mp hin) (of_decide_eq_true hpartition)

theorem legible_of_all (hall : ∀ row ∈ d.rows.values, row.item?.isSome = true) {key : ItemKey} {item : Item}
    (hf : items.find? key = some item) : item.Legible := by
  refine hall (Row.of item) ?_
  rw [h.rows]
  exact SortedMap.mem_values_iff.mpr ⟨key, by rw [SortedMap.find?_map, hf, Option.map_some]⟩

/-- Where all rows read back, what they read back to is all there is to know of the items. -/
theorem readBack_eq (hall : ∀ row ∈ d.rows.values, row.item?.isSome = true) :
    Memory.readBack items = d.decoded := by
  rw [Memory.readBack, Database.decoded, h.rows]
  congr 1
  apply SortedMap.ext_find?
  intro key
  rw [SortedMap.find?_map, SortedMap.find?_map, SortedMap.find?_map, Option.map_map]
  cases hf : items.find? key with
  | none => rfl
  | some item =>
    simp only [Option.map_some, Function.comp, (h.legible_of_all hall hf).item?_of, Option.getD_some]

theorem load_eq {t : ResourceType} {id : String} (hlegible : LegibleIn items (Key.resource t.code id)) :
    Resource.load (Backend.database d) t id = Resource.load (Memory.readBack items) t id := by
  rw [Resource.load, Resource.load, h.items_eq hlegible]

/-- Legible resources are read in pieces as they read back, a few at a time. -/
theorem itemsOf_eq {code : String} {ids : List String} (hfew : ids.length < Database.maxParameters)
    (hlegible : ∀ id ∈ ids, LegibleIn items (Key.resource code id)) (chunk : Nat) :
    Listing.itemsOf (Backend.database d) chunk code ids =
      Listing.itemsOf (Memory.readBack items) chunk code ids := by
  have hpiece : ∀ piece ∈ Listing.chunks chunk ids,
      Read.all (Backend.database d) { range := .partitions (piece.map (Key.resource code)) } =
        Read.all (Memory.readBack items) { range := .partitions (piece.map (Key.resource code)) } := by
    intro piece hpiece
    have hsub : piece.Sublist ids := by
      rw [← Listing.flatten_chunks chunk ids]
      exact List.sublist_flatten_of_mem hpiece
    refine h.all_eq (r := { range := .partitions (piece.map (Key.resource code)) }) trivial rfl ?_ fun x hx => ?_
    · have hlength := hsub.length_le
      rw [Database.parameters_partitions, List.length_map]
      simp
      omega
    · rw [Memory.rows_partitions] at hx
      obtain ⟨e, he, rfl⟩ := List.mem_map.mp hx
      obtain ⟨hin, hpartition⟩ := List.mem_filter.mp he
      obtain ⟨id, hid, hkey⟩ := List.mem_map.mp (List.contains_iff_mem.mp hpartition)
      exact hlegible id (hsub.subset hid) e.1 e.2 (SortedMap.mem_entries_iff.mp hin) hkey.symm
  rw [Listing.itemsOf_eq, Listing.itemsOf, Outcome.mapM_eq_ok fun piece hin =>
    (hpiece piece hin).trans (Memory.all_partitions _ _)]
  rfl

/-- The owners of a tag are found as if all items were legible. -/
theorem search_eq {code : String} (hcode : Text.NoNull (Key.stem code)) {count : Nat}
    (hcount : count + 1 < Nat.pow 2 63) (tag : String × String) (after : Option String) :
    Tag.search (Backend.database d) code count tag after =
      Tag.search (Memory.readBack items) code count tag after := by
  rcases Nat.eq_zero_or_pos count with rfl | hpos
  · rfl
  have hread : Store.read (Backend.database d) (Tag.valueRead code tag.1 tag.2 count after) =
      Store.read (Memory.readBack items) (Tag.valueRead code tag.1 tag.2 count after) := by
    have hplain : (Tag.valueRead code tag.1 tag.2 count after).Plain := by
      refine ⟨hcode, fun n hn => ?_⟩
      cases hn
      exact hcount
    have hpositive : (Tag.valueRead code tag.1 tag.2 count after).limit ≠ some 0 := fun hn =>
      Nat.ne_of_gt hpos (Option.some.inj hn)
    refine h.read_eq hplain hpositive (Nat.le_of_not_lt fun hlong => ?_) fun x hx => ?_
    · cases (Database.isTooWide_iff hpositive).mpr hlong
    · obtain ⟨key, _, hfind, hhash, _⟩ := Memory.of_mem_rows_index hx
      have hindex : (x.2.text? Attribute.tagIndex).isSome = true := Option.isSome_iff_exists.mpr ⟨_, hhash⟩
      obtain ⟨owner, name, value, _, hitem⟩ := (h.proper key x.2 hfind).tag hindex
      exact hitem ▸ (Tag.readsBack_item owner name value).legible
  obtain ⟨page, hpage, _, hfull⟩ := Tag.read_valueRead (Memory.readBack items) code tag after hpos
  rw [Tag.search_of_read hpos (hread.trans hpage) hfull, Tag.search_of_read hpos hpage hfull]

end Database.Keeps

end TagStore
