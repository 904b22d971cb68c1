import TagStore.Proofs.Creating
import TagStore.Proofs.Survivors

namespace TagStore

theorem ResourceType.mem_linksTo_parent {t : ResourceType} {link : ParentLink}
    (hl : t.parent = some link) : link.field ∈ t.linksTo link.code := by
  rw [linksTo, hl, Option.filter_some, if_pos (decide_eq_true rfl)]
  exact List.mem_append_left _ List.mem_cons_self

theorem ResourceType.mem_linksTo_versioning {t : ResourceType} {v : Versioning}
    (hv : t.versioning = some v) : v.parentField ∈ t.linksTo v.parentCode := by
  simp only [linksTo, hv, Option.filter_some, decide_true, if_true, Option.map_some,
    Option.toList_some, List.mem_append, List.mem_filter, List.mem_singleton, true_and,
    decide_eq_true_eq]
  exact Classical.em _

theorem ResourceType.mem_parentFields_of_linksTo {t : ResourceType} {code field : String}
    (h : field ∈ t.linksTo code) : field ∈ t.parentFields := by
  simp only [linksTo, List.mem_append, List.mem_filter, Option.mem_toList, Option.map_eq_some_iff,
    Option.filter_eq_some_iff] at h
  rw [parentFields, List.mem_append, Option.mem_toList, Option.mem_toList]
  rcases h with ⟨link, ⟨hl, _⟩, hf⟩ | ⟨⟨v, ⟨hv, _⟩, hf⟩, _⟩
  · exact .inl (by rw [hl, Option.map_some, hf])
  · exact .inr (by rw [hv, Option.map_some, hf])

theorem Catalog.mem_children_iff {c : Catalog} (hc : c.Checked) {t : ResourceType} {code field : String} :
    (t, field) ∈ c.children code ↔ c.Has t ∧ field ∈ t.linksTo code := by
  simp only [children, List.mem_flatMap, List.mem_map, Prod.mk.injEq]
  constructor
  · rintro ⟨t', ht', field', hf, rfl, rfl⟩
    obtain ⟨code', hcode⟩ := SortedMap.mem_values_iff.mp ht'
    exact ⟨hc.has hcode, hf⟩
  · rintro ⟨ht, hf⟩
    exact ⟨t, SortedMap.mem_values_iff.mpr ⟨t.code, ht⟩, field, hf, rfl, rfl⟩

/-- Whether no resource names a parent with the code and the id in a field that links it to one. -/
def Registry.Childless (c : Catalog) (r : Registry) (code id : String) : Prop :=
  ∀ t field, c.Has t → field ∈ t.linksTo code → ∀ i e, r.entries t.code i = some e →
    Checks.requiredText e.fields field ≠ .ok id

namespace Resource

theorem checkChildless_spec {m : Memory} {t : ResourceType} {id : String}
    {links : List (ResourceType × String)} (h : checkChildless m t id links = .ok ()) :
    ∀ link ∈ links, ∃ found, Tag.search m link.1.code 1 (Key.reserved link.2, id) none = .ok found ∧
      found.ids = [] := by
  induction links with
  | nil => exact nofun
  | cons link links ih =>
    rw [checkChildless] at h
    obtain ⟨found, hfound, h⟩ := Outcome.bind_eq_ok_iff.mp h
    split at h
    · cases h
    next hempty =>
      intro l hl
      rcases List.mem_cons.mp hl with rfl | hl
      · exact ⟨found, hfound, by simpa using hempty⟩
      · exact ih h l hl

/-- The search for children finds every resource that names its parent in a tag. -/
theorem checkChildless_complete {c : Catalog} (hc : c.Checked) {m : Memory} (hm : m.Keyed)
    (honly : Tag.Only m) {t : ResourceType} {id : String}
    (h : checkChildless m t id (c.children t.code) = .ok ()) {t' : ResourceType} (ht' : c.Has t')
    {field : String} (hf : field ∈ t'.linksTo t.code) (i : String) :
    m.items.find? (Tag.key (Key.resource t'.code i) (Key.reserved field)) ≠
      some (Tag.item (Key.resource t'.code i) (Key.reserved field) id) := by
  intro htag
  obtain ⟨found, hfound, hnone⟩ :=
    checkChildless_spec h (t', field) ((Catalog.mem_children_iff hc).mpr ⟨ht', hf⟩)
  have hsearchable := (ResourceType.check_spec (hc.checked t' ht')).2.2.2 field
    (ResourceType.mem_parentFields_of_linksTo hf)
  have hname : Key.hasDelimiter (Key.reserved field, id).1 = false := by
    rw [Key.hasDelimiter_reserved]
    exact hc.hasDelimiter_searchable ht' hsearchable
  have howner : i ∈ Tag.owners m t'.code none (Key.reserved field, id) := by
    refine (Tag.mem_owners hm honly (hc.hasDelimiter_code ht') hname none).mpr ⟨fun n hn => ?_, ?_⟩
    · cases hn
    · simpa [Tag.Carries] using htag
  rw [Tag.search_eq hm honly (hc.hasDelimiter_code ht') hname none Nat.one_pos,
    Except.ok.injEq] at hfound
  rw [← hfound, Tag.Found.first] at hnone
  rcases List.take_eq_nil_iff.mp hnone with hzero | hempty
  · cases hzero
  · rw [hempty] at howner
    cases howner

/-- A text that has to be there is the value of the tag of its field. -/
theorem searchText?_of_requiredText {fields : Item} {field text : String}
    (h : Checks.requiredText fields field = .ok text) : searchText? fields field = some text := by
  obtain ⟨htext, hne⟩ := Checks.requiredText_eq_ok_iff.mp h
  rw [Item.text?, Option.bind_eq_some_iff] at htext
  obtain ⟨value, hv, hs⟩ := htext
  cases value <;> simp only [Json.string?, Option.some.injEq, reduceCtorEq] at hs
  subst hs
  simp [searchText?, hv, scalarText?, hne]

/-- A resource whose deletion is planned is named by none of its children. -/
theorem childless {c : Catalog} (hc : c.Sound) {m : Memory} {r : Registry} (h : Stands c m r)
    {t : ResourceType} {id : String} (hchildless : checkChildless m t id (c.children t.code) = .ok ()) :
    r.Childless c t.code id := by
  intro t' field ht' hf i e he hid
  have hsearchable := (ResourceType.check_spec (hc.checked t' ht')).2.2.2 field
    (ResourceType.mem_parentFields_of_linksTo hf)
  have htag : r.tag? t' i (Key.reserved field) = some id := by
    refine (h.sound.tag?_eq_some_iff hc ht').mpr (.inr ⟨e, he, ?_⟩)
    rw [Entry.find?_allTags_reserved (h.sound.entry ht' he).2.tags hsearchable]
    exact searchText?_of_requiredText hid
  apply checkChildless_complete hc.toChecked h.keyed (h.only hc) hchildless ht' hf i
  rw [h.mirrors.tags t' i _ ht', htag]
  rfl

end Resource

namespace Registry.Childless
variable {c : Catalog} (hc : c.Sound) {r : Registry} {t : ResourceType} {id : String}
  (hnone : r.Childless c t.code id)
include hc hnone

/-- No resource has one without children for its parent. -/
theorem parent_ne (code i : String) (d : Entry) (t' : ResourceType) (link : ParentLink)
    (ht' : c.types.find? code = some t') (hd : r.entries code i = some d)
    (hl : t'.parent = some link) (hcode : link.code = t.code) :
    Checks.requiredText d.fields link.field ≠ .ok id := by
  obtain rfl := hc.code code t' ht'
  exact hnone t' link.field ht' (hcode ▸ ResourceType.mem_linksTo_parent hl) i d hd

omit hc in
/-- One without children has no newest child. -/
theorem pointers (hr : r.Sound c) {t' : ResourceType} (ht' : c.Has t') {v : Versioning}
    (hv : t'.versioning = some v) (hcode : v.parentCode = t.code) : r.pointers t'.code id = none := by
  cases hp : r.pointers t'.code id with
  | none => rfl
  | some p =>
    obtain ⟨d, hd, hs⟩ := hr.pointee ht' hv hp
    exact absurd (Resource.standing_eq_ok_iff.mp hs).1
      (hnone t' v.parentField ht' (hcode ▸ ResourceType.mem_linksTo_versioning hv) _ d hd)

end Registry.Childless

theorem Memory.Keyed.keys_itemsIn {m : Memory} (hm : m.Keyed) (partition : String) :
    (m.itemsIn partition).map Item.key = (m.keysIn partition).map .ok := by
  rw [Memory.itemsIn, Memory.keysIn, List.map_map, List.map_map]
  apply List.map_congr_left
  intro e he
  exact hm e.1 e.2 (SortedMap.mem_entries_iff.mp (List.mem_filter.mp he).1)

namespace Resource

/-- Where the newest child is gone, the pointer of its parent is set to the one that succeeds it. -/
theorem mirrors_repoint_removed {c : Catalog} (hc : c.Sound) {items : SortedMap ItemKey Item}
    {r : Registry} {t : ResourceType} (ht : c.Has t) {v : Versioning} (hv : t.versioning = some v)
    {parentId : String} {p : Pointer} (hp : r.pointers t.code parentId = some p) {b : Batch}
    (hmirrors : Mirrors c (b.effect items) (r.setEntry t.code p.child none)) {next : Option Pointer}
    (hnext : r.Succeeds t v parentId p.child next) (guard : Condition) :
    Mirrors c ((Version.repoint b t.code (Pointer.key t.code v parentId) (some p) next guard).effect items)
      ((r.setEntry t.code p.child none).setPointer t.code parentId next) := by
  rw [← hp]
  apply hmirrors.repoint hc ht hv next
  · intro q d hq hd
    obtain rfl := Option.some.inj (hp.symm.trans hq)
    rw [Registry.entries_setEntry_self] at hd
    cases hd
  · intro q hq
    obtain ⟨hne, d, hd, hs⟩ := hnext.child q hq
    exact ⟨d, q.ordering,
      (Registry.entries_setEntry_of_ne _ _ _ _ fun hself => hne hself.2).trans hd, hs⟩

/-- The deletes of all items of a partition leave it empty, and no other partition is touched. -/
theorem deleteAll_itemsIn {m : Memory} (hm : m.Keyed) (partition : String) :
    ∃ b, deleteAll .empty (m.itemsIn partition) = .ok b ∧ b.Keyed ∧
      (∀ key, key.partition ≠ partition → b.find? key = none) ∧
      (∀ key, key.partition = partition → b.effect m.items key = none) ∧
      ∀ key op, b.find? key = some op → op.leaves = none := by
  obtain ⟨b, hb, hkeyed, heffect, hfind⟩ := deleteAll_spec (hm.keys_itemsIn partition) Batch.keyed_empty
  refine ⟨b, hb, hkeyed, fun key hpartition => ?_, fun key hpartition => ?_, fun key op hop => ?_⟩
  · exact (hfind key fun hin => hpartition (Memory.mem_keysIn.mp hin).1).trans rfl
  · rw [heffect]
    split
    · rfl
    next hnot =>
      rw [Memory.mem_keysIn, hpartition] at hnot
      simpa [Batch.effect_empty] using hnot
  · have hleaves : b.effect .empty key = op.leaves := by rw [Batch.effect, hop]
    rw [← hleaves, heffect]
    split <;> rfl

section
variable {c : Catalog} (hc : c.Sound) {m : Memory} {r : Registry} (h : Stands c m r)
  {t : ResourceType} (ht : c.Has t) {id : String} {e : Entry} (he : r.entries t.code id = some e)
  (hnone : r.Childless c t.code id)
include hc h ht he hnone

omit he in
/-- The items of a resource without children are its own. -/
theorem own_key {key : ItemKey} {item : Item} (hf : m.items.find? key = some item)
    (hpartition : key.partition = Key.resource t.code id) :
    key = ⟨Key.resource t.code id, Key.resource t.code id⟩ ∨
      ∃ name, key = Tag.key (Key.resource t.code id) name := by
  rcases h.item_cases hf with ⟨t', i, _, ht', _, _, rfl⟩ | ⟨t', i, name, _, ht', _, _, rfl⟩ |
    ⟨t', v, parentId, p, ht', hv, hp, _, rfl⟩
  · obtain ⟨rfl, rfl⟩ := hc.canonicalKey_inj ht' ht hpartition
    exact .inl rfl
  · obtain ⟨rfl, rfl⟩ := hc.canonicalKey_inj ht' ht hpartition
    exact .inr ⟨name, rfl⟩
  · obtain ⟨hcode, rfl⟩ := Key.resource_inj (hc.plain t' v ht' hv) (hc.hasDelimiter_code ht) hpartition
    rw [hnone.pointers h.sound ht' hv hcode] at hp
    cases hp

omit he in
/-- A resource without children is gone once a batch has taken all items out of its partition. -/
theorem mirrors_removed (hid : c.Apart t.code id) {b : Batch}
    (hkept : ∀ key, key.partition ≠ Key.resource t.code id → b.find? key = none)
    (hgone : ∀ key, key.partition = Key.resource t.code id → b.effect m.items key = none) :
    Mirrors c (b.effect m.items) (r.setEntry t.code id none) := by
  apply h.mirrors.setEntry hc ht hid
  · rw [hgone _ rfl, Registry.canonical?, Registry.entries_setEntry_self]
    rfl
  · intro name
    rw [hgone _ rfl, Registry.tag?_of_none (Registry.entries_setEntry_self _ _ _ _)]
    rfl
  · intro key hk hname
    by_cases hpartition : key.partition = Key.resource t.code id
    · rw [hgone key hpartition]
      cases hf : m.items.find? key with
      | none => rfl
      | some item =>
        rcases own_key hc h ht hnone hf hpartition with hcanonical | ⟨name, htag⟩
        · exact absurd hcanonical hk
        · exact absurd htag (hname name)
    · rw [Batch.effect, hkept key hpartition]

theorem deleteAll_resource : ∃ b, deleteAll .empty (m.itemsIn (Key.resource t.code id)) = .ok b ∧
    b.Keyed ∧ (∀ key, key.partition ≠ Key.resource t.code id → b.find? key = none) ∧
    Mirrors c (b.effect m.items) (r.setEntry t.code id none) := by
  obtain ⟨b, hb, hkeyed, hkept, hgone, _⟩ := deleteAll_itemsIn h.keyed (Key.resource t.code id)
  exact ⟨b, hb, hkeyed, hkept, mirrors_removed hc h ht hnone (h.sound.entry ht he).1 hkept hgone⟩

end

/-- The batches that delete a resource by the deletes of its items: with the work that sets the pointer of
its parent, if that names it. -/
inductive Deletes {σ : Type} [Store σ] (m : σ) (t : ResourceType) (id : String) (fields : Item)
    (deletes : Batch) : Batch → Prop where
  | unversioned (hv : t.versioning = none) : Deletes m t id fields deletes deletes
  | unnamed {v : Versioning} {parentId : String} {old : Option Pointer} (hv : t.versioning = some v)
    (hparent : Checks.requiredText fields v.parentField = .ok parentId)
    (hold : Pointer.find? m (Pointer.key t.code v parentId) = .ok old)
    (hne : ∀ p, old = some p → p.child ≠ id) : Deletes m t id fields deletes deletes
  | newest {v : Versioning} {parentId ordering : String} {next : Option Pointer} (hv : t.versioning = some v)
    (hparent : Checks.requiredText fields v.parentField = .ok parentId)
    (hold : Pointer.find? m (Pointer.key t.code v parentId) = .ok (some ⟨id, ordering⟩))
    (hnext : Version.search m deletes id (Store.size m + 1)
      (Walk.ofRead (Version.newestFirst t.code v parentId)) = .ok next) :
    Deletes m t id fields deletes (Version.repoint deletes t.code (Pointer.key t.code v parentId)
      (some ⟨id, ordering⟩) next (Version.names id))

theorem Deletes.keyed {σ : Type} [Store σ] {m : σ} {t : ResourceType} {id : String} {fields : Item}
    {deletes b : Batch} (h : Deletes m t id fields deletes b) (hkeyed : deletes.Keyed) : b.Keyed := by
  cases h with
  | unversioned _ => exact hkeyed
  | unnamed _ _ _ _ => exact hkeyed
  | newest _ _ _ _ => exact Version.keyed_repoint hkeyed

/-- The writes of a deletion that can be planned delete all items that were loaded, and set the pointer of
the parent if it has to be. -/
theorem planDelete_deletes {σ : Type} [Store σ] {setup : Setup} {m : σ} {t : ResourceType} {id : String}
    {ops : List WriteOp} (hp : planDelete setup m t id = .ok ops) :
    ∃ items existing deletes b, load m t id = .ok (items, existing) ∧
      checkChildless m t id (setup.catalog.children t.code) = .ok () ∧
      deleteAll .empty items = .ok deletes ∧ ops = Batch.ops b ∧
      Deletes m t id existing.fields deletes b := by
  obtain ⟨⟨items, existing⟩, hload, hp⟩ := Outcome.bind_eq_ok_iff.mp hp
  obtain ⟨_, hchildless, hp⟩ := Outcome.bind_eq_ok_iff.mp hp
  obtain ⟨deletes, hdelete, hp⟩ := Outcome.bind_eq_ok_iff.mp hp
  rw [Outcome.mapError_eq_ok_iff] at hdelete
  cases hv : t.versioning with
  | none =>
    rw [hv] at hp
    cases hp
    exact ⟨items, existing, deletes, _, hload, hchildless, hdelete, rfl, .unversioned hv⟩
  | some v =>
    rw [hv] at hp
    obtain ⟨parentId, hparent, hp⟩ := Outcome.bind_eq_ok_iff.mp hp
    obtain ⟨b, hremove, hp⟩ := Outcome.bind_eq_ok_iff.mp hp
    rw [Outcome.mapError_eq_ok_iff] at hparent hremove
    cases hp
    refine ⟨items, existing, deletes, b, hload, hchildless, hdelete, rfl, ?_⟩
    rcases Version.removeChild_inv hremove with ⟨old, hold, hne, rfl⟩ |
      ⟨⟨child, ordering⟩, next, hold, rfl, hnext, rfl⟩
    · exact .unnamed hv hparent hold hne
    · exact .newest hv hparent hold hnext

end Resource

/-- What a registry comes to where a resource goes: the pointer that names it is set to the first of its
siblings. -/
inductive Registry.Delists (r : Registry) (t : ResourceType) (id : String) : Registry → Prop where
  | unnamed (hnot : ∀ parentId p, r.pointers t.code parentId = some p → p.child ≠ id) :
    Delists r t id (r.setEntry t.code id none)
  | newest {v : Versioning} {parentId : String} {p : Pointer} {next : Option Pointer} (hv : t.versioning = some v)
    (hp : r.pointers t.code parentId = some p) (hid : p.child = id) (hnext : r.Heads t v parentId id next) :
    Delists r t id ((r.setEntry t.code id none).setPointer t.code parentId next)

theorem Registry.Delists.entries_eq {r r' : Registry} {t : ResourceType} {id : String}
    (h : r.Delists t id r') : r'.entries = (r.setEntry t.code id none).entries := by
  cases h <;> rfl

theorem Registry.Every.delists {r r' : Registry} {P : Entry → Prop} (hr : r.Every P) {t : ResourceType}
    {id : String} (h : r.Delists t id r') : r'.Every P := by
  have hgone : (r.setEntry t.code id none).Every P := hr.setEntry nofun
  intro code i e he
  rw [h.entries_eq] at he
  exact hgone code i e he

namespace Resource

section
variable {setup : Setup} (hc : setup.catalog.Sound) {m : Memory} {r : Registry}
  (h : Stands setup.catalog m r)
include hc h

/-- What can be planned to be deleted is there and has no children. The writes are the deletes of its items
and, if the pointer of its parent names it, those that set the pointer to the child that succeeds it. -/
theorem planDelete_cases {t : ResourceType} (ht : setup.catalog.Has t) {id : String}
    {ops : List WriteOp} (hp : planDelete setup m t id = .ok ops) :
    ∃ e b, r.entries t.code id = some e ∧ r.Childless setup.catalog t.code id ∧
      deleteAll .empty (m.itemsIn (Key.resource t.code id)) = .ok b ∧
      ((∀ parentId p, r.pointers t.code parentId = some p → p.child ≠ id) ∧ ops = b.ops ∨
        ∃ v parentId p next, t.versioning = some v ∧ r.pointers t.code parentId = some p ∧ p.child = id ∧
          r.Heads t v parentId id next ∧ ops = (Version.repoint b t.code
            (Pointer.key t.code v parentId) (some p) next (Version.names id)).ops) := by
  obtain ⟨items, existing, b, b', hload, hchildless, hdelete, rfl, hdeletes⟩ := planDelete_deletes hp
  clear hp
  have hnone := childless hc h hchildless
  obtain ⟨rfl, e, he, hread⟩ := h.load_inv hc ht hload
  refine ⟨e, b, he, hnone, hdelete, ?_⟩
  have hsound := (h.sound.entry ht he).2
  cases hdeletes with
  | unversioned hv =>
    refine .inl ⟨fun parentId p hp => ?_, rfl⟩
    obtain ⟨t', v, _, ht', hv', _⟩ := h.sound.pointers _ _ p hp
    obtain rfl := Option.some.inj (ht.symm.trans ht')
    rw [hv] at hv'
    cases hv'
  | @unnamed v parentId old hv hparent hold hne =>
    obtain rfl := Except.ok.inj ((h.find?_pointer ht hv parentId).symm.trans hold)
    obtain ⟨_, ordering, hs⟩ := hsound.standing v hv
    rw [hread.fields] at hparent
    obtain rfl := Except.ok.inj ((standing_eq_ok_iff.mp hs).1.symm.trans hparent)
    refine .inl ⟨fun pid p hp hid => ?_, rfl⟩
    obtain rfl := h.sound.eq_parent ht hv he hs hp hid
    exact hne p hp hid
  | @newest v parentId ordering next hv _ hold hnext =>
    have hp := Except.ok.inj ((h.find?_pointer ht hv parentId).symm.trans hold)
    have hstays : ∀ i, i ≠ id → b.deletes ⟨Key.resource t.code i, Key.resource t.code i⟩ = false := by
      intro i hi
      obtain ⟨b', hb', _, hkept, _⟩ := deleteAll_itemsIn h.keyed (Key.resource t.code id)
      obtain rfl := Except.ok.inj (hdelete.symm.trans hb')
      rw [Batch.deletes, hkept _ fun hk => hi (Key.resource_right_inj.mp hk)]
      rfl
    obtain ⟨next', hsearch, hheads⟩ := h.search_newest hc ht hv parentId b id hstays
    obtain rfl := Except.ok.inj (hnext.symm.trans hsearch)
    exact .inr ⟨v, parentId, ⟨id, ordering⟩, next, hv, hp, rfl, hheads, rfl⟩

/-- The writes of a deletion leave the items of a registry in which the resource is gone. -/
theorem planDelete_spec {t : ResourceType} (ht : setup.catalog.Has t) {id : String}
    {ops : List WriteOp} (hp : planDelete setup m t id = .ok ops) :
    ∃ e b r', r.entries t.code id = some e ∧ r.Childless setup.catalog t.code id ∧
      ops = Batch.ops b ∧ b.Keyed ∧ r.Delists t id r' ∧ r'.Sound setup.catalog ∧
      Mirrors setup.catalog (b.effect m.items) r' := by
  obtain ⟨e, b, he, hnone, hdelete, hcases⟩ := planDelete_cases hc h ht hp
  obtain ⟨b', hb', hkeyed, _, hmirrors⟩ := deleteAll_resource hc h ht he hnone
  obtain rfl := Except.ok.inj (hdelete.symm.trans hb')
  rcases hcases with ⟨hnot, rfl⟩ | ⟨v, parentId, p, next, hv, hnamed, rfl, hnext, rfl⟩
  · exact ⟨e, b, _, he, hnone, rfl, hkeyed, .unnamed hnot,
      h.sound.remove_unnamed (hnone.parent_ne hc) hnot, hmirrors⟩
  · exact ⟨e, _, _, he, hnone, rfl, Version.keyed_repoint hkeyed, .newest hv hnamed rfl hnext,
      h.sound.remove_newest ht (hnone.parent_ne hc) hv hnamed rfl hnext.toSucceeds,
      mirrors_repoint_removed hc ht hv hnamed hmirrors hnext.toSucceeds _⟩

/-- Deleting a resource either fails and changes no item, or leaves everything but it; then it had no
children. -/
theorem delete_delists (code id : String) :
    ((∃ err, (delete setup m code id).1 = .error err) ∧
      (delete setup m code id).2.items = m.items) ∨
    ∃ t e r', setup.catalog.Has t ∧ t.code = code ∧ r.entries code id = some e ∧
      r.Childless setup.catalog code id ∧ (delete setup m code id).1 = .ok () ∧ r.Delists t id r' ∧
      Stands setup.catalog (delete setup m code id).2 r' := by
  unfold delete
  dsimp only
  split
  next err _ => exact .inl ⟨⟨err, rfl⟩, rfl⟩
  next ops hplan =>
    obtain ⟨t, ht, hops⟩ := Outcome.bind_eq_ok_iff.mp hplan
    rw [findType_eq_ok_iff] at ht
    obtain rfl := hc.code code t ht
    obtain ⟨e, b, r', he, hnone, rfl, hkeyed, hdelists, hsound, hmirrors⟩ :=
      planDelete_spec hc h ht hops
    rcases Commit.batch_cases setup.settings.attempts hkeyed m with ⟨err, m', hcommit, hitems⟩ |
      ⟨m', hcommit, _, heffect⟩
    · rw [hcommit]
      exact .inl ⟨⟨err, rfl⟩, hitems⟩
    · rw [hcommit]
      exact .inr ⟨t, e, r', ht, rfl, he, hnone, rfl, hdelists, hsound, heffect ▸ hmirrors⟩

end

/-- Deleting a resource leaves a store that can be read as it was. -/
theorem delete_cases {setup : Setup} (hc : setup.catalog.Sound) {m : Memory} {r : Registry}
    (h : Holds setup.catalog m r) (code id : String) :
    ((∃ err, (delete setup m code id).1 = .error err) ∧
      (delete setup m code id).2.items = m.items) ∨
    ∃ e r', r.entries code id = some e ∧ r.Childless setup.catalog code id ∧
      (delete setup m code id).1 = .ok () ∧ r'.entries = (r.setEntry code id none).entries ∧
      Holds setup.catalog (delete setup m code id).2 r' := by
  rcases delete_delists hc h.toStands code id with hfail |
    ⟨t, e, r', ht, rfl, he, hnone, hok, hdelists, h'⟩
  · exact .inl hfail
  · exact .inr ⟨e, r', he, hnone, hok, hdelists.entries_eq, h', h.legible.delists hdelists⟩

end Resource

end TagStore
