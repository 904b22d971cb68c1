import TagStore.Proofs.ListingTokens
import TagStore.Proofs.Loading
import TagStore.Proofs.Paging

namespace TagStore

namespace Listing

/-- The id that an item's partition is named for, if there is one. -/
def idOf (item : Item) : String := ((item.text? Attribute.partition).bind Key.id?).getD ""

theorem ids_eq_map {items : List Item}
    (h : ∀ item ∈ items, ((item.text? Attribute.partition).bind Key.id?).isSome = true) :
    ids items = items.map idOf := by
  induction items with
  | nil => rfl
  | cons item items ih =>
    obtain ⟨id, hid⟩ := Option.isSome_iff_exists.mp (h item List.mem_cons_self)
    have hrest := ih fun i hi => h i (List.mem_cons_of_mem _ hi)
    rw [ids] at hrest ⊢
    rw [List.filterMap_cons, hid, hrest, List.map_cons, idOf, hid, Option.getD_some]

theorem mapM_readToken (start : Option StartKey) :
    (start.map token).mapM readToken = .ok start := by
  cases start with
  | none => rfl
  | some s =>
    simp [readToken_token, Functor.map, Except.map]

theorem page_eq (m : Memory) (code : String) {count : Nat} (hcount : 0 < count)
    (start : Option StartKey) : page m code count (start.map token) =
      .ok (ids (((m.rows (canonical code count start)).take count).map Prod.snd),
        if count < (m.rows (canonical code count start)).length then
          (((m.rows (canonical code count start)).take count).getLast?.map Prod.fst).map token
        else none) := by
  have h0 : count ≠ 0 := by omega
  rw [page, if_neg h0, mapM_readToken]
  simp only [Outcome.mapError_ok, m.read_limited (r := canonical code count start) rfl hcount, bind,
    Except.bind, pure, Except.pure]
  split <;> rfl

/-- Where in the index of kinds a resource of the type would stand. -/
def startAfter (code id : String) : StartKey :=
  let key := Key.resource code id
  ⟨key, key, some ⟨code, key⟩⟩

/-- The place of a resource in the index of kinds. -/
def place (code id : String) : Selection.Place :=
  let key := Key.resource code id
  ⟨key, key, key⟩

theorem startPlace?_startAfter (code : String) (after : Option String) :
    Selection.startPlace? (after.map (startAfter code)) = after.map (place code) := by
  cases after <;> rfl

theorem compare_place (code a b : String) :
    compare (place code a) (place code b) = compare a b := by
  rw [place, place, Selection.compare_eq, Selection.compare_key_eq, Key.compare_resource]
  cases compare a b <;> simp

theorem all_isBeyond_iff {code id : String} {after : Option String} :
    ((after.map (place code)).all fun s => Selection.isBeyond true (compare (place code id) s)) = true ↔
      ∀ a ∈ after, a < id := by
  cases after <;> simp [Selection.isBeyond, compare_place, Text.compare_eq_gt_iff]

/-- What lies beyond a start is among all rows, in their order. -/
theorem rows_sublist (m : Memory) (code : String) (start : Option StartKey) :
    (m.rows (canonical code 1 start)).Sublist (m.rows (canonical code 1 none)) := by
  rw [canonical, canonical, Memory.rows_index, Memory.rows_index_whole]
  exact List.filter_sublist.map _

/-- The ids of a type's canonical items beyond a start are what the pages of its listing deal out. -/
theorem page_deals {m : Memory} {code : String}
    (h : ∀ start, ∀ row ∈ m.rows (canonical code 1 start),
      ((row.2.text? Attribute.partition).bind Key.id?).isSome = true)
    {sizes : Nat → Nat} (hsizes : ∀ i, 0 < sizes i) :
    Deals (fun i => page m code (sizes i)) sizes fun token ids =>
      ∃ start, token = start.map Listing.token ∧
        ids = (m.rows (canonical code 1 start)).map fun row => idOf row.2 := by
  rintro i _ _ ⟨start, rfl, rfl⟩
  have hrows : m.rows (canonical code (sizes i) start) = m.rows (canonical code 1 start) := rfl
  have htaken : ids (((m.rows (canonical code 1 start)).take (sizes i)).map Prod.snd) =
      ((m.rows (canonical code 1 start)).map fun row => idOf row.2).take (sizes i) := by
    rw [ids_eq_map, List.map_map, List.map_take]
    · rfl
    · intro item hi
      obtain ⟨row, hrow, rfl⟩ := List.mem_map.mp hi
      exact h start row (List.mem_of_mem_take hrow)
  have hpage := page_eq m code (hsizes i) start
  rw [hrows, htaken] at hpage
  by_cases hmore : sizes i < (m.rows (canonical code 1 start)).length
  · have hafter := m.rows_after_page (canonical code 1 start) (hsizes i) hmore
    obtain ⟨row, hlast⟩ : ∃ row, ((m.rows (canonical code 1 start)).take (sizes i)).getLast? = some row := by
      refine ⟨_, List.getLast?_eq_some_getLast fun hnil => ?_⟩
      have hlength := congrArg List.length hnil
      have hi := hsizes i
      rw [List.length_take, List.length_nil] at hlength
      omega
    rw [hlast] at hpage hafter
    refine .inr ⟨token row.1, hpage.trans (by rw [if_pos hmore]; rfl), ?_, some row.1, rfl, ?_⟩
    · intro hnil
      rw [List.map_eq_nil_iff] at hnil
      rw [hnil] at hmore
      cases hmore
    · rw [← List.map_drop, ← hafter]
      rfl
  · refine .inl ⟨hpage.trans (by rw [if_neg hmore]), ?_⟩
    rw [List.length_map]
    omega

end Listing

namespace Holds
variable {c : Catalog} {m : Memory} {r : Registry} (h : Holds c m r) (hc : c.Sound)
  {t : ResourceType} (ht : c.Has t)
include h hc ht

theorem mem_indexed_kind {p : Selection.Place} {item : Item} :
    (p, item) ∈ (Selection.indexed Memory.places .kind t.code (Key.stem t.code)
      m.items.entries).entries ↔
    ∃ id e, r.entries t.code id = some e ∧
      Resource.canonicalItem t id e.fields e.audit = .ok item ∧
      p = ⟨Key.resource t.code id, Key.resource t.code id, Key.resource t.code id⟩ := by
  rw [Memory.mem_indexed]
  constructor
  · rintro ⟨hf, hkind, hrange, _⟩
    rw [Index.hash] at hkind
    rw [Index.range] at hrange
    rcases h.item_cases hf with ⟨t', id, e, ht', he, hi, hk⟩ | ⟨t', id, name, value, _, _, rfl, _⟩ |
      ⟨t', v, parentId, q, _, _, _, rfl, _⟩
    · rw [Resource.text?_canonical_kind hi, Option.some.injEq] at hkind
      obtain rfl := ht'.eq_of_code ht hkind
      rw [Resource.text?_canonical_sort hi, Option.some.injEq] at hrange
      refine ⟨id, e, he, hi, ?_⟩
      obtain ⟨range, key⟩ := p
      dsimp only at hk hrange ⊢
      rw [hk, ← hrange]
    · rw [Tag.text?_item_kind, Option.some.injEq] at hkind
      exact absurd hkind.symm (hc.code_ne_tagCode ht)
    · rw [Pointer.text?_item_kind, Option.some.injEq] at hkind
      exact absurd hkind.symm (hc.code_ne_pointerCode ht)
  · rintro ⟨id, e, he, hi, rfl⟩
    refine ⟨?_, Resource.text?_canonical_kind hi, Resource.text?_canonical_sort hi,
      Key.beginsWith_stem_iff.mpr ⟨id, rfl⟩⟩
    dsimp only
    rw [h.mirrors.canonical t id ht (h.sound.entry ht he).1]
    exact Registry.canonical?_eq_some_iff.mpr ⟨e, he, hi⟩

theorem isSome_id_of_mem_rows (start : Option StartKey) :
    ∀ row ∈ m.rows (Listing.canonical t.code 1 start),
      ((row.2.text? Attribute.partition).bind Key.id?).isSome = true := by
  intro row hrow
  rw [Listing.canonical, Memory.rows_index] at hrow
  obtain ⟨⟨p, item⟩, hm, rfl⟩ := List.mem_map.mp hrow
  have hin := Selection.mem_directed.mp (List.mem_filter.mp hm).1
  obtain ⟨id, e, _, hi, _⟩ := (h.mem_indexed_kind hc ht).mp hin
  simp only [Memory.indexRow, Resource.text?_canonical_partition hi, Option.bind_some,
    Key.id?_resource (hc.hasDelimiter_code ht), Option.isSome_some]

/-- The index of kinds holds the ids of all resources of a type in ascending order. A read that goes on
after an id finds those beyond it, whether that id itself is there or not. -/
theorem rows_after (after : Option String) :
    let rows := m.rows (Listing.canonical t.code 1 (after.map (Listing.startAfter t.code)))
    (rows.map fun row => Listing.idOf row.2).Pairwise (· < ·) ∧
    (∀ id, id ∈ rows.map (fun row => Listing.idOf row.2) ↔
      (∀ a ∈ after, a < id) ∧ ∃ e, r.entries t.code id = some e) ∧
    ∀ row ∈ rows, row.1 = Listing.startAfter t.code (Listing.idOf row.2) := by
  intro rows
  generalize hfound : ((Selection.indexed Memory.places .kind t.code (Key.stem t.code)
    m.items.entries).entries.filter fun row =>
      (after.map (Listing.place t.code)).all fun s => Selection.isBeyond true (compare row.1 s)) = found
  have hmem : ∀ {p : Selection.Place} {item : Item}, (p, item) ∈ found ↔ ∃ id e,
      r.entries t.code id = some e ∧ Resource.canonicalItem t id e.fields e.audit = .ok item ∧
      p = Listing.place t.code id ∧ ∀ a ∈ after, a < id := by
    intro p item
    rw [← hfound, List.mem_filter, h.mem_indexed_kind hc ht]
    constructor
    · rintro ⟨⟨id, e, he, hi, rfl⟩, hbeyond⟩
      exact ⟨id, e, he, hi, rfl, Listing.all_isBeyond_iff.mp hbeyond⟩
    · rintro ⟨id, e, he, hi, rfl, hbeyond⟩
      exact ⟨⟨id, e, he, hi, rfl⟩, Listing.all_isBeyond_iff.mpr hbeyond⟩
  have hrows : rows = found.map (Memory.indexRow t.code) := by
    have hread := m.rows_index .kind t.code (Key.stem t.code) true (some 1)
      (after.map (Listing.startAfter t.code))
    rwa [Selection.directed_true, Listing.startPlace?_startAfter, hfound] at hread
  have hid : ∀ {id e item}, Resource.canonicalItem t id (Entry.fields e) (Entry.audit e) = .ok item →
      Listing.idOf item = id := by
    intro id e item hi
    rw [Listing.idOf, Resource.text?_canonical_partition hi, Option.bind_some,
      Key.id?_resource (hc.hasDelimiter_code ht), Option.getD_some]
  have hids : rows.map (fun row => Listing.idOf row.2) = found.map fun e => Listing.idOf e.2 := by
    rw [hrows, List.map_map]
    rfl
  rw [hids]
  refine ⟨List.pairwise_map.mpr ?_, fun id => ?_, fun row hrow => ?_⟩
  · have hsorted : found.Pairwise fun x y => compare x.1 y.1 = .lt :=
      hfound ▸ List.Pairwise.filter _ (SortedMap.sorted _)
    apply List.Pairwise.imp_of_mem _ hsorted
    rintro ⟨_, item⟩ ⟨_, item'⟩ hx hy hlt
    obtain ⟨id, e, _, hi, rfl, _⟩ := hmem.mp hx
    obtain ⟨id', e', _, hi', rfl, _⟩ := hmem.mp hy
    dsimp only at hlt ⊢
    rwa [hid hi, hid hi', ← Text.compare_eq_lt_iff, ← Listing.compare_place t.code]
  · constructor
    · intro hin
      obtain ⟨⟨p, item⟩, hm, rfl⟩ := List.mem_map.mp hin
      obtain ⟨id, e, he, hi, _, hbeyond⟩ := hmem.mp hm
      exact (hid hi).symm ▸ ⟨hbeyond, e, he⟩
    · rintro ⟨hbeyond, e, he⟩
      obtain ⟨item, hi⟩ := Registry.canonical_of_sound (h.sound.entry ht he).2 id
      exact List.mem_map.mpr ⟨_, hmem.mpr ⟨id, e, he, hi, rfl, hbeyond⟩, hid hi⟩
  · rw [hrows] at hrow
    obtain ⟨⟨p, item⟩, hm, rfl⟩ := List.mem_map.mp hrow
    obtain ⟨id, e, _, hi, rfl, _⟩ := hmem.mp hm
    rw [Memory.indexRow, hid hi]
    rfl

theorem ids_of_type :
    ((m.rows (Listing.canonical t.code 1 none)).map fun row => Listing.idOf row.2).Pairwise (· < ·) ∧
    ∀ id, id ∈ (m.rows (Listing.canonical t.code 1 none)).map (fun row => Listing.idOf row.2) ↔
      ∃ e, r.entries t.code id = some e := by
  obtain ⟨hasc, hmem, _⟩ := h.rows_after hc ht none
  refine ⟨hasc, fun id => (hmem id).trans ?_⟩
  exact ⟨fun he => he.2, fun he => ⟨fun a ha => absurd ha (by simp), he⟩⟩

end Holds

end TagStore
