import TagStore.Proofs.MemoryPages
import TagStore.Proofs.Outcome
import TagStore.Proofs.Transactions
import TagStore.Tag.Search

namespace TagStore.Tag

theorem find?_item (owner name value a : String) :
    (item owner name value).find? a =
      if a = Attribute.tagValue then some (.string value)
      else if a = Attribute.tagName then some (.string name)
      else if a = Attribute.kind then some (.string Key.tagCode)
      else if a = Attribute.tagIndex then some (.string (Key.tagIndex name value))
      else if a = Attribute.sort then some (.string (Key.tagSort name))
      else if a = Attribute.partition then some (.string owner)
      else none := by
  simp only [item, SortedMap.ofList_eq_insertAll, SortedMap.insertAll_cons,
    SortedMap.insertAll_nil, SortedMap.find?_insert, SortedMap.find?_empty]

section
variable (owner name value : String)

@[simp] theorem text?_item_partition :
    (item owner name value).text? Attribute.partition = some owner := by
  simp +decide [Item.text?, find?_item, Json.string?]

@[simp] theorem text?_item_sort :
    (item owner name value).text? Attribute.sort = some (Key.tagSort name) := by
  simp +decide [Item.text?, find?_item, Json.string?]

@[simp] theorem text?_item_kind :
    (item owner name value).text? Attribute.kind = some Key.tagCode := by
  simp +decide [Item.text?, find?_item, Json.string?]

@[simp] theorem text?_item_tagIndex :
    (item owner name value).text? Attribute.tagIndex = some (Key.tagIndex name value) := by
  simp +decide [Item.text?, find?_item, Json.string?]

@[simp] theorem text?_item_tagName :
    (item owner name value).text? Attribute.tagName = some name := by
  simp +decide [Item.text?, find?_item, Json.string?]

@[simp] theorem text?_item_tagValue :
    (item owner name value).text? Attribute.tagValue = some value := by
  simp +decide [Item.text?, find?_item, Json.string?]

@[simp] theorem text?_item_parent : (item owner name value).text? Attribute.parent = none := by
  simp +decide [Item.text?, find?_item]

@[simp] theorem key_item : (item owner name value).key = .ok (key owner name) := by
  simp [Item.key, key]

end

/-- Whatever has an attribute for the index of tag values is the item of a tag that is named without
a delimiter. -/
def Only (m : Memory) : Prop :=
  ∀ key item, m.items.find? key = some item → (item.text? Attribute.tagIndex).isSome = true →
    ∃ owner name value, Key.hasDelimiter name = false ∧ item = Tag.item owner name value

theorem Only.transact {m : Memory} (h : Only m) {ops : List WriteOp}
    (hops : ∀ op ∈ ops, ∃ owner name value, Key.hasDelimiter name = false ∧
      op.leaves = some (item owner name value)) : Only (m.transact ops).2 := by
  intro key row hf hindex
  rcases Memory.of_find?_transact hf with hf | ⟨op, hop, _, hleaves⟩
  · exact h key row hf hindex
  · obtain ⟨owner, name, value, hn, hitem⟩ := hops op hop
    exact ⟨owner, name, value, hn, Option.some.inj (hleaves.symm.trans hitem)⟩

/-- Whether the resource's partition holds every tag of some. -/
def Carries (m : Memory) (code : String) (tags : List (String × String)) (id : String) : Prop :=
  ∀ tag ∈ tags, m.items.find? (key (Key.resource code id) tag.1) =
    some (item (Key.resource code id) tag.1 tag.2)

/-- The place of a tag's owner in the index of the tag's value. -/
def place (code name id : String) : Selection.Place :=
  ⟨Key.resource code id, key (Key.resource code id) name⟩

theorem compare_place (code name a b : String) :
    compare (place code name a) (place code name b) = compare a b := by
  rw [place, place, Selection.compare_eq, Selection.compare_key_eq, key, key, Key.compare_resource]
  cases compare a b <;> simp

theorem startPlace?_startAfter (code name value : String) (after : Option String) :
    Selection.startPlace? (after.map (startAfter code name value)) = after.map (place code name) := by
  cases after <;> rfl

/-- What is found in the index of tag values under a tag is an item of that tag. -/
theorem Only.exists_owner {m : Memory} (ht : Only m) (hm : m.Keyed) {name value : String}
    (hn : Key.hasDelimiter name = false) {k : ItemKey} {row : Item} (hf : m.items.find? k = some row)
    (hi : row.text? Attribute.tagIndex = some (Key.tagIndex name value)) :
    ∃ owner, k = key owner name ∧ row = item owner name value := by
  obtain ⟨owner, name', value', hn', rfl⟩ := ht k row hf (by simp [hi])
  rw [text?_item_tagIndex, Option.some.injEq] at hi
  obtain ⟨rfl, rfl⟩ := Key.tagIndex_inj hn' hn hi
  have hk := hm _ _ hf
  rw [key_item, Except.ok.injEq] at hk
  exact ⟨owner, hk.symm, rfl⟩

theorem mem_indexed_tagValue {m : Memory} (hm : m.Keyed) (ht : Only m) {name : String}
    (hn : Key.hasDelimiter name = false) {value code : String} {p : Selection.Place} {row : Item} :
    (p, row) ∈ (Selection.indexed Memory.places .tagValue (Key.tagIndex name value) (Key.stem code)
      m.items.entries).entries ↔
    ∃ id, p = place code name id ∧ row = item (Key.resource code id) name value ∧
      Carries m code [(name, value)] id := by
  rw [Memory.mem_indexed]
  constructor
  · rintro ⟨hf, hh, hr, hb⟩
    obtain ⟨owner, hk, rfl⟩ := ht.exists_owner hm hn hf hh
    rw [Index.range, text?_item_partition, Option.some.injEq] at hr
    obtain ⟨id, hid⟩ := Key.beginsWith_stem_iff.mp hb
    obtain ⟨range, k⟩ := p
    dsimp only at hr hid hk hf
    subst hr hid hk
    exact ⟨id, rfl, rfl, by simpa [Carries] using hf⟩
  · rintro ⟨id, rfl, rfl, hc⟩
    have hf := hc _ List.mem_cons_self
    exact ⟨hf, text?_item_tagIndex .., text?_item_partition .., Key.beginsWith_stem_iff.mpr ⟨id, rfl⟩⟩

theorem mem_beyond {m : Memory} (hm : m.Keyed) (ht : Only m) {name : String}
    (hn : Key.hasDelimiter name = false) {value code : String} {after : Option String}
    {p : Selection.Place} {r : Item} :
    (p, r) ∈ ((Selection.indexed Memory.places .tagValue (Key.tagIndex name value)
      (Key.stem code) m.items.entries).entries.filter fun r =>
        (after.map (place code name)).all fun s => Selection.isBeyond true (compare r.1 s)) ↔
    ∃ id, p = place code name id ∧ r = item (Key.resource code id) name value ∧
      (∀ a ∈ after, a < id) ∧ Carries m code [(name, value)] id := by
  rw [List.mem_filter, mem_indexed_tagValue hm ht hn]
  constructor
  · rintro ⟨⟨id, rfl, rfl, hc⟩, hb⟩
    refine ⟨id, rfl, rfl, ?_, hc⟩
    intro a ha
    cases ha
    simpa [Selection.isBeyond, compare_place, Text.compare_eq_gt_iff] using hb
  · rintro ⟨id, rfl, rfl, ha, hc⟩
    refine ⟨⟨id, rfl, rfl, hc⟩, ?_⟩
    cases after with
    | none => rfl
    | some a => simpa [Selection.isBeyond, compare_place, Text.compare_eq_gt_iff] using ha a rfl

theorem exists_map_eq {α β : Type} {f : β → α} {l : List α} (h : ∀ x ∈ l, ∃ y, x = f y) :
    ∃ ys : List β, l = ys.map f := by
  induction l with
  | nil => exact ⟨[], rfl⟩
  | cons x l ih =>
    obtain ⟨y, rfl⟩ := h x List.mem_cons_self
    obtain ⟨ys, rfl⟩ := ih fun x hx => h x (List.mem_cons_of_mem _ hx)
    exact ⟨y :: ys, rfl⟩

/-- The row of an owner of a tag in a read of the tag's value. -/
def row (code name value id : String) : StartKey × Item :=
  (startAfter code name value id, item (Key.resource code id) name value)

/-- A read of the index of tag values finds the owners of the value that lie beyond the start, in
ascending order of their ids. -/
theorem rows_valueRead {m : Memory} (hm : m.Keyed) (ht : Only m) {name : String}
    (hn : Key.hasDelimiter name = false) (value code : String) (after : Option String) :
    ∃ ids : List String, ids.Pairwise (· < ·) ∧
      (∀ id, id ∈ ids ↔ (∀ a ∈ after, a < id) ∧ Carries m code [(name, value)] id) ∧
      ∀ count, m.rows (valueRead code name value count after) = ids.map (row code name value) := by
  generalize hfound : ((Selection.indexed Memory.places .tagValue (Key.tagIndex name value)
    (Key.stem code) m.items.entries).entries.filter fun r =>
      (after.map (place code name)).all fun s => Selection.isBeyond true (compare r.1 s)) = found
  have hord : Selection.Ordered true Prod.fst found :=
    hfound ▸ List.Pairwise.filter _ (Selection.ordered_entries (SortedMap.sorted _))
  have hmem : ∀ p r, (p, r) ∈ found ↔ ∃ id, p = place code name id ∧
      r = item (Key.resource code id) name value ∧ (∀ a ∈ after, a < id) ∧
      Carries m code [(name, value)] id := fun p r => hfound ▸ mem_beyond hm ht hn
  obtain ⟨ids, hids⟩ : ∃ ids : List String, found =
      ids.map fun id => (place code name id, item (Key.resource code id) name value) := by
    apply exists_map_eq
    rintro ⟨p, r⟩ hx
    obtain ⟨id, rfl, rfl, _⟩ := (hmem p r).mp hx
    exact ⟨id, rfl⟩
  refine ⟨ids, ?_, ?_, ?_⟩
  · rw [hids] at hord
    apply (List.pairwise_map.mp hord).imp
    intro a b hab
    simpa [Selection.isBeyond, compare_place, Text.compare_eq_gt_iff] using hab
  · intro id
    constructor
    · intro hid
      have hin : (place code name id, item (Key.resource code id) name value) ∈ found := by
        rw [hids]
        exact List.mem_map.mpr ⟨id, hid, rfl⟩
      obtain ⟨id', hp, _, ha, hc⟩ := (hmem _ _).mp hin
      have he : id = id' := Key.resource_right_inj.mp (congrArg Selection.Place.range hp)
      exact he ▸ ⟨ha, hc⟩
    · rintro ⟨ha, hc⟩
      have hin := (hmem _ _).mpr ⟨id, rfl, rfl, ha, hc⟩
      rw [hids] at hin
      obtain ⟨id', hid, hp⟩ := List.mem_map.mp hin
      have he : id' = id :=
        Key.resource_right_inj.mp (congrArg (fun p => Selection.Place.range p.1) hp)
      exact he ▸ hid
  · intro count
    rw [valueRead, Memory.rows_index, Selection.directed_true, startPlace?_startAfter, hfound, hids,
      List.map_map]
    rfl

/-- The first ids of some, and the last of them to go on after unless the page is not full. -/
def Found.first (count : Nat) (ids : List String) : Found :=
  ⟨ids.take count, if count ≤ ids.length then (ids.take count).getLast? else Option.none⟩

theorem ids_map_row {code : String} (hc : Key.hasDelimiter code = false) (name value : String)
    (ids : List String) : Listing.ids ((ids.map (row code name value)).map Prod.snd) = ids := by
  induction ids with
  | nil => rfl
  | cons id ids ih =>
    simp only [Listing.ids, List.map_cons, List.filterMap_cons, row, text?_item_partition,
      Option.bind_some, Key.id?_resource hc] at ih ⊢
    rw [ih]

theorem ofIds_take (count : Nat) (ids : List String) :
    Found.ofIds count (ids.take count) = Found.first count ids := by
  unfold Found.ofIds Found.first
  by_cases h : count ≤ ids.length
  · rw [if_neg (by simp; omega), if_pos h, List.take_take, Nat.min_self]
  · rw [if_pos (by simp; omega), if_neg h]

section
variable {code : String} {count : Nat} {tag : String × String} {after : Option String}

/-- Where the first page is the last one, or tells as many ids as are asked for, a search reads no more. -/
theorem search_of_read {σ : Type} [Store σ] {s : σ} {page : Page} (hcount : 0 < count)
    (hread : Store.read s (valueRead code tag.1 tag.2 count after) = .ok page)
    (hfull : page.last.isNone = true ∨ count ≤ (Listing.ids page.items).length) :
    search s code count tag after = .ok (.ofIds count (Listing.ids page.items)) := by
  have hgather : gather s code count tag (Store.size s + 1) [] (after.map (startAfter code tag.1 tag.2)) =
      .ok (Listing.ids page.items) := by
    have hfirst : Store.read s { valueRead code tag.1 tag.2 (count - ([] : List String).length) none with
        start := after.map (startAfter code tag.1 tag.2) } = .ok page := hread
    rw [gather, hfirst]
    simp only [Outcome.mapError_ok, bind, Except.bind, List.nil_append, if_pos hfull.symm, pure, Except.pure]
  rw [search, if_neg (Nat.ne_of_gt hcount)]
  simp only [hgather, bind, Except.bind, pure, Except.pure]

theorem isSome_id?_of_mem_rows {m : Memory} {x : StartKey × Item}
    (hx : x ∈ m.rows (valueRead code tag.1 tag.2 count after)) :
    ((x.2.text? Attribute.partition).bind Key.id?).isSome = true := by
  obtain ⟨_, owner, _, _, howner, hstem⟩ := Memory.of_mem_rows_index hx
  obtain ⟨id, rfl⟩ := Key.beginsWith_stem_iff.mp hstem
  have htext : x.2.text? Attribute.partition = some (Key.resource code id) := howner
  rw [htext]
  exact Key.isSome_id?_resource code id

/-- A page with a position is full, and each of its items tells an id. -/
theorem read_valueRead (m : Memory) (code : String) (tag : String × String) (after : Option String)
    (hcount : 0 < count) : ∃ page, Store.read m (valueRead code tag.1 tag.2 count after) = .ok page ∧
      page.items = ((m.rows (valueRead code tag.1 tag.2 count after)).take count).map Prod.snd ∧
      (page.last.isNone = true ∨ count ≤ (Listing.ids page.items).length) := by
  refine ⟨_, m.read_limited rfl hcount, rfl, ?_⟩
  split
  next hmore =>
    refine .inr (Nat.le_of_eq ?_)
    have hids : ∀ item ∈ ((m.rows (valueRead code tag.1 tag.2 count after)).take count).map Prod.snd,
        ((item.text? Attribute.partition).bind Key.id?).isSome = true := by
      intro item hitem
      obtain ⟨x, hx, rfl⟩ := List.mem_map.mp hitem
      exact isSome_id?_of_mem_rows (List.mem_of_mem_take hx)
    rw [Listing.ids, List.filterMap_length_eq_length.mpr hids, List.length_map, List.length_take,
      Nat.min_eq_left (Nat.le_of_lt hmore)]
  next => exact .inl rfl

/-- A search is a single read of the index. -/
theorem search_rows (m : Memory) (code : String) (tag : String × String) (after : Option String)
    (hcount : 0 < count) : search m code count tag after = .ok (Found.ofIds count (Listing.ids
      (((m.rows (valueRead code tag.1 tag.2 count after)).take count).map Prod.snd))) := by
  obtain ⟨page, hread, hitems, hfull⟩ := read_valueRead m code tag after hcount
  rw [search_of_read hcount hread hfull, hitems]

end

/-- The owners of a tag beyond the start of a search, on however many pages. -/
def owners (m : Memory) (code : String) (after : Option String) (tag : String × String) :
    List String :=
  Listing.ids ((m.rows (valueRead code tag.1 tag.2 1 after)).map Prod.snd)

section
variable {m : Memory} (hm : m.Keyed) (ht : Only m) {code : String}
  (hc : Key.hasDelimiter code = false) {tag : String × String} (hn : Key.hasDelimiter tag.1 = false)
  (after : Option String)
include hm ht hc hn

theorem rows_eq_owners (count : Nat) :
    m.rows (valueRead code tag.1 tag.2 count after) =
      (owners m code after tag).map (row code tag.1 tag.2) := by
  obtain ⟨ids, _, _, hrows⟩ := rows_valueRead hm ht hn tag.2 code after
  rw [owners, hrows, hrows, ids_map_row hc]

theorem owners_ascending : (owners m code after tag).Pairwise (· < ·) := by
  obtain ⟨ids, hp, _, hrows⟩ := rows_valueRead hm ht hn tag.2 code after
  rwa [owners, hrows, ids_map_row hc]

theorem mem_owners {id : String} : id ∈ owners m code after tag ↔
    (∀ a ∈ after, a < id) ∧ Carries m code [tag] id := by
  obtain ⟨ids, _, hmem, hrows⟩ := rows_valueRead hm ht hn tag.2 code after
  rw [owners, hrows, ids_map_row hc]
  exact hmem id

/-- A page of the search for one tag holds the first of its owners beyond the start. -/
theorem search_eq {count : Nat} (hcount : 0 < count) :
    search m code count tag after = .ok (Found.first count (owners m code after tag)) := by
  rw [search_rows m code tag after hcount, rows_eq_owners hm ht hc hn, ← List.map_take,
    ids_map_row hc, ofIds_take]

end

/-- A resource has one item for each tag, so that a tag has no more owners than there are items. -/
theorem length_owners_le {m : Memory} (hm : m.Keyed) (ht : Only m) {code : String}
    (hc : Key.hasDelimiter code = false) {tag : String × String} (hn : Key.hasDelimiter tag.1 = false)
    (after : Option String) : (owners m code after tag).length ≤ m.items.size := by
  have hnodup : ((owners m code after tag).map fun id => key (Key.resource code id) tag.1).Nodup := by
    apply List.pairwise_map.mpr
    apply (owners_ascending hm ht hc hn after).imp
    intro a b hab he
    have hid : a = b := Key.resource_right_inj.mp (congrArg ItemKey.partition he)
    exact String.lt_irrefl b (hid ▸ hab)
  have hsub : ((owners m code after tag).map fun id => key (Key.resource code id) tag.1) ⊆
      m.items.keys := by
    intro k hk
    obtain ⟨id, hid, rfl⟩ := List.mem_map.mp hk
    have hcarries := ((mem_owners hm ht hc hn after).mp hid).2
    exact SortedMap.mem_keys_iff.mpr ⟨_, hcarries tag List.mem_cons_self⟩
  have hle := hnodup.length_le_of_subset hsub
  simpa [SortedMap.keys, SortedMap.size] using hle

end TagStore.Tag
