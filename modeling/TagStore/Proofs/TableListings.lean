import TagStore.Proofs.Queries
import TagStore.Proofs.TableReads

namespace TagStore

namespace Resource
variable {σ : Type} [Store σ] {setup : Setup} {s : σ} {t : ResourceType}

/-- Whether a store shows a resource, or that it is not there. -/
def Known (setup : Setup) (s : σ) (t : ResourceType) (id : String) : Prop :=
  ∀ e, get setup s t.code id = .error e → e = .notFound t.name id

/-- The resource with an id, if a store shows one. -/
def shown? (setup : Setup) (s : σ) (code id : String) : Option Resource := (get setup s code id).toOption

/-- A resource that is shown, or is not there, has its items read. -/
theorem Known.items (ht : setup.catalog.Has t) {id : String} (h : Known setup s t id) :
    ∃ items, Listing.items s t.code id = .ok items ∧ ofItems t items = .ok (shown? setup s t.code id) := by
  have hget : get setup s t.code id = (load s t id).map Prod.snd := by
    simp only [get, findType_eq_ok_iff.mpr ht, bind, Except.bind]
    cases load s t id <;> rfl
  rw [Known, hget, load] at h
  rw [shown?, hget, load]
  cases hitems : Listing.items s t.code id with
  | error e =>
    rw [hitems] at h
    cases h _ rfl
  | ok items =>
    rw [hitems] at h
    refine ⟨items, rfl, ?_⟩
    cases hof : ofItems t items with
    | error e =>
      simp only [Outcome.mapError_ok, bind, Except.bind, hof, Outcome.mapError_error] at h
      cases h _ rfl
    | ok found =>
      simp only [Outcome.mapError_ok, bind, Except.bind, hof]
      cases found <;> rfl

/-- The groups of known resources make up those that are shown. -/
theorem ofGroups_shown (s' : σ) {found : String → List Item} {ids : List String}
    (h : ∀ id ∈ ids, ofItems t (found id) = .ok (shown? setup s t.code id)) :
    ofGroups setup s' t [] ((ids.map fun id => (id, found id)).filter fun g => !g.2.isEmpty) =
      .ok (ids.filterMap (shown? setup s t.code)) := by
  induction ids with
  | nil => rfl
  | cons id ids ih =>
    have hid := h id List.mem_cons_self
    have hrest := ih fun id hid => h id (List.mem_cons_of_mem _ hid)
    rw [List.map_cons, List.filterMap_cons]
    cases hfound : found id with
    | nil =>
      rw [hfound] at hid
      rw [List.filter_cons_of_neg (by simp), hrest, ← Except.ok.inj hid]
    | cons item items =>
      rw [hfound] at hid
      rw [List.filter_cons_of_pos (by simp), ofGroups, hid]
      cases shown? setup s t.code id with
      | none => exact hrest
      | some r => simp only [Outcome.mapError_ok, bind, Except.bind, attach, hrest, pure, Except.pure]

end Resource

/-- What is found in a table has a row there. -/
theorem Database.mem_keys_of_get {d : Database} {key : ItemKey} {item : Item}
    (h : Store.get (Backend.database d) key = .ok (some item)) : key ∈ d.rows.keys := by
  have h : d.get key = .ok (some item) := h
  rw [get] at h
  cases hf : d.rows.find? key with
  | none =>
    rw [hf] at h
    cases h
  | some row => exact SortedMap.mem_keys_iff.mpr ⟨row, hf⟩

namespace Database.Keeps
variable {c : Catalog} {d : Database} {items : SortedMap ItemKey Item} (h : d.Keeps c items)
include h

/-- A tag is found in a table as it was stored. -/
theorem get_tag {owner name value : String}
    (hf : items.find? (Tag.key owner name) = some (Tag.item owner name value)) :
    Store.get (Backend.database d) (Tag.key owner name) = .ok (some (Tag.item owner name value)) := by
  change d.get (Tag.key owner name) = _
  rw [Database.get, h.rows, SortedMap.find?_map, hf, Option.map_some]
  dsimp only
  rw [item_eq_ok_iff.mpr (Row.item?_of (Tag.readsBack_item owner name value))]
  rfl

/-- The same resources carry a tag as if all items were legible. -/
theorem carries_iff {code name value id : String} :
    Tag.Carries (Memory.readBack items) code [(name, value)] id ↔
      items.find? (Tag.key (Key.resource code id) name) = some (Tag.item (Key.resource code id) name value) := by
  rw [Tag.Carries, List.forall_mem_singleton, Memory.readBack, SortedMap.find?_map]
  constructor
  · intro hcarries
    obtain ⟨item, hf, hback⟩ := Option.map_eq_some_iff.mp hcarries
    have hindex : (item.text? Attribute.tagIndex).isSome = true := by
      rw [← Item.text?_readBack, hback, Tag.text?_item_tagIndex]
      rfl
    obtain ⟨owner, name', value', _, rfl⟩ := (h.proper _ item hf).tag hindex
    rw [hf, ← hback, (Tag.readsBack_item owner name' value').readBack_eq]
  · intro hf
    rw [hf, Option.map_some, (Tag.readsBack_item _ _ _).readBack_eq]

section
variable {setup : Setup} {t : ResourceType} (ht : setup.catalog.Has t)
include ht

theorem legibleIn_of_known {id : String} (hknown : Resource.Known setup (Backend.database d) t id) :
    LegibleIn items (Key.resource t.code id) := by
  obtain ⟨found, hfound, _⟩ := hknown.items ht
  exact h.legibleIn_of_items hfound

/-- Where all rows read back, resources are read as from what the rows read back to. -/
theorem get_decoded (hall : ∀ row ∈ d.rows.values, row.item?.isSome = true) (id : String) :
    Resource.get setup (Backend.database d) t.code id = Resource.get setup d.decoded t.code id := by
  have hload : Resource.load (Backend.database d) t id = Resource.load d.decoded t id := by
    rw [h.load_eq fun key item hf _ => h.legible_of_all hall hf, h.readBack_eq hall]
  simp only [Resource.get, Resource.findType_eq_ok_iff.mpr ht, bind, Except.bind, hload]

/-- A page of ids of known resources is answered with those that are shown. -/
theorem answer_eq {q : ListQuery} (hplain : q.withLatest = false) {ids : List String} (hnodup : ids.Nodup)
    (hfew : ids.length < maxParameters)
    (hknown : ∀ id ∈ ids, Resource.Known setup (Backend.database d) t id) (next : Option String) :
    Resource.answer setup (Backend.database d) t q (ids, next) =
      .ok ⟨ids.filterMap (Resource.shown? setup (Backend.database d) t.code), next⟩ := by
  have hlegible : ∀ id ∈ ids, LegibleIn items (Key.resource t.code id) := fun id hid =>
    h.legibleIn_of_known ht (hknown id hid)
  obtain ⟨read, hread, hgroup⟩ :=
    Listing.group_itemsOf h.keyed_readBack setup.settings.chunk t.code hnodup
  have hmade : ∀ id ∈ ids, Resource.ofItems t ((Memory.readBack items).itemsIn (Key.resource t.code id)) =
      .ok (Resource.shown? setup (Backend.database d) t.code id) := by
    intro id hid
    obtain ⟨found, hfound, hof⟩ := (hknown id hid).items ht
    rw [h.items_eq (hlegible id hid), Memory.listing_items, Except.ok.injEq] at hfound
    exact hfound ▸ hof
  have hattached : q.attached setup t = [] := by rw [ListQuery.attached, hplain]; rfl
  simp only [Resource.answer, h.itemsOf_eq hfew hlegible, hread, hgroup, hattached,
    Resource.ofGroups_shown (Backend.database d) hmade,
    Outcome.mapError_ok, bind, Except.bind, pure, Except.pure]

end

/-- Ids are found by one tag as if all items were legible. -/
theorem pageOfIds_eq {code : String} (hcode : Text.NoNull (Key.stem code)) {count : Nat}
    (hcount : count + 1 < Nat.pow 2 63) {tags : Tags} {tag : String × String} (htag : tags.entries = [tag])
    (token : Option String) :
    Resource.pageOfIds (Backend.database d) code count tags token =
      Tag.idPage (Memory.readBack items) code tags count token := by
  have hempty : tags.isEmpty = false := by rw [SortedMap.isEmpty, htag]; rfl
  have hsearch : Tag.searchAll (Backend.database d) code count tags token =
      Tag.searchAll (Memory.readBack items) code count tags token := by
    simp only [Tag.searchAll, htag, h.search_eq hcode hcount]
  rw [Resource.pageOfIds, hempty, Tag.idPage, hsearch]
  cases Tag.searchAll (Memory.readBack items) code count tags token <;> rfl

/-- A page of a listing by one tag shows the resources of a page of ids. -/
theorem list_eq {setup : Setup} {t : ResourceType} (ht : setup.catalog.Has t)
    (hcode : Text.NoNull (Key.stem t.code)) {q : ListQuery} (hq : q.Fits setup t) (hplain : q.withLatest = false)
    (hcount : q.pageSize setup + 1 < Nat.pow 2 63) {tag : String × String} (htag : q.wanted.entries = [tag])
    {ids : List String} {next : Option String}
    (hpage : Tag.idPage (Memory.readBack items) t.code q.wanted (q.pageSize setup) q.token = .ok (ids, next))
    (hnodup : ids.Nodup) (hfew : ids.length < maxParameters)
    (hknown : ∀ id ∈ ids, Resource.Known setup (Backend.database d) t id) :
    Resource.list setup (Backend.database d) t.code q =
      .ok ⟨ids.filterMap (Resource.shown? setup (Backend.database d) t.code), next⟩ := by
  refine (Resource.list_eq_ok_iff ht).mpr ⟨hq, Outcome.bind_eq_ok_iff.mpr ⟨(ids, next), ?_, ?_⟩⟩
  · rw [h.pageOfIds_eq hcode hcount htag, hpage]
  · exact h.answer_eq ht hplain hnodup hfew hknown next

end Database.Keeps

/-- What is read for an id is the resource with that id. -/
theorem Resource.id_of_get {setup : Setup} {d : Database} {items : SortedMap ItemKey Item}
    (h : d.Keeps setup.catalog items) {t : ResourceType} (ht : setup.catalog.Has t) {id : String} {r : Resource}
    (hget : get setup (Backend.database d) t.code id = .ok r) : r.id = id := by
  have hknown : Known setup (Backend.database d) t id := fun e he => by
    rw [hget] at he
    cases he
  obtain ⟨read, hread, hof⟩ := hknown.items ht
  rw [h.items_eq (h.legibleIn_of_known ht hknown), Memory.listing_items, Except.ok.injEq] at hread
  subst hread
  rw [shown?, hget] at hof
  obtain ⟨canonical, hfind, hcanonical⟩ := ofItems_eq_some hof
  obtain ⟨hid, _⟩ := ofCanonical_inv hcanonical
  have hkind : canonical.text? Attribute.kind = some t.code := by
    have his := List.find?_some hfind
    simp only [isCanonical, Bool.and_eq_true, decide_eq_true_eq] at his
    exact his.1.1
  obtain ⟨sort, hf⟩ := Memory.mem_itemsIn.mp (List.mem_of_find?_eq_some hfind)
  rw [Memory.readBack, SortedMap.find?_map] at hf
  obtain ⟨item, hin, rfl⟩ := Option.map_eq_some_iff.mp hf
  rw [Item.text?_readBack] at hid hkind
  have hkey := (Item.key_eq_ok_iff.mp (h.keyed _ item hin)).1
  rw [(h.proper _ item hin).id t r.id ht hkind hid, Option.some.injEq] at hkey
  exact Key.resource_right_inj.mp hkey

end TagStore
