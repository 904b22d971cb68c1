import TagStore.Proofs.Registry
import TagStore.Resource.Find

namespace TagStore

theorem Checks.tagName_spec {name : String} (h : tagName name = .ok ()) :
    Key.hasDelimiter name = false ∧ Key.isReserved name = false := by
  cases hd : Key.hasDelimiter name with
  | true =>
    simp [tagName, tagDelimiter, hd, bind, Except.bind, throw, throwThe, MonadExceptOf.throw] at h
    split at h <;> cases h
  | false =>
    cases hr : Key.isReserved name with
    | true =>
      simp [tagName, tagDelimiter, hd, hr, bind, Except.bind, pure, Except.pure, throw, throwThe,
        MonadExceptOf.throw] at h
      split at h <;> cases h
    | false => exact ⟨rfl, rfl⟩

theorem Resource.mem_reservedTags {t : ResourceType} {fields : Item} {name value : String} :
    (name, value) ∈ reservedTags t fields ↔
      ∃ field ∈ t.searchable, name = Key.reserved field ∧ searchText? fields field = some value := by
  simp only [reservedTags, List.mem_filterMap, Option.map_eq_some_iff, Prod.mk.injEq]
  constructor
  · rintro ⟨field, hf, value, hv, rfl, rfl⟩
    exact ⟨field, hf, rfl, hv⟩
  · rintro ⟨field, hf, rfl, hv⟩
    exact ⟨field, hf, value, hv, rfl, rfl⟩

theorem Tag.ofItem?_item (owner name value : String) :
    ofItem? (item owner name value) = if Key.isReserved name then none else some (name, value) := by
  have hreserved : Text.beginsWith (Key.tagSort name) (Key.tagSort Key.reservedStem) =
      Key.isReserved name := by
    rw [Bool.eq_iff_iff, Key.isReserved_iff, Text.beginsWith_iff]
    simp only [Key.tagSort_eq_resource, Key.resource_eq_append, String.append_assoc,
      String.append_right_inj, Key.reserved]
  rw [ofItem?, text?_item_kind, text?_item_sort, text?_item_tagName, text?_item_tagValue, Option.any_some,
    hreserved]
  cases Key.isReserved name <;> rfl

theorem Tag.ofItem?_of_kind {item : Item} (h : item.text? Attribute.kind ≠ some Key.tagCode) :
    ofItem? item = none := by
  have hguard : (guard (item.text? Attribute.kind = some Key.tagCode) : Option Unit) = none := if_neg h
  rw [ofItem?, hguard]
  rfl

namespace Entry
variable {t : ResourceType} {e : Entry}
  (h : ∀ name value, e.tags.find? name = some value → Checks.tagName name = .ok ())
include h

theorem find?_of_reserved {name : String} (hname : Key.isReserved name = true) :
    e.tags.find? name = none := by
  cases hf : e.tags.find? name with
  | none => rfl
  | some value =>
    rw [(Checks.tagName_spec (h _ _ hf)).2] at hname
    cases hname

/-- A resource has the tags that its users see and those that are kept for its fields. -/
theorem find?_allTags {name value : String} : (e.allTags t).find? name = some value ↔
    e.tags.find? name = some value ∨ ∃ field ∈ t.searchable, name = Key.reserved field ∧
      Resource.searchText? e.fields field = some value := by
  rw [allTags, ← Resource.mem_reservedTags]
  by_cases hin : ∃ w, (name, w) ∈ Resource.reservedTags t e.fields
  · obtain ⟨w, hw⟩ := hin
    obtain ⟨field, _, rfl, hv⟩ := Resource.mem_reservedTags.mp hw
    have hu : ∀ x, (Key.reserved field, x) ∈ Resource.reservedTags t e.fields → x = w := by
      intro x hx
      obtain ⟨field', _, hf, hv'⟩ := Resource.mem_reservedTags.mp hx
      rw [← Key.reserved_inj.mp hf, hv] at hv'
      exact (Option.some.inj hv').symm
    rw [SortedMap.find?_insertAll_of_mem _ hw hu, find?_of_reserved h (Key.isReserved_reserved field),
      Option.some.injEq]
    constructor
    · rintro rfl
      exact .inr hw
    · rintro (hx | hx)
      · cases hx
      · exact (hu _ hx).symm
  · rw [SortedMap.find?_insertAll_of_ne]
    · constructor
      · exact .inl
      · rintro (hx | hx)
        · exact hx
        · exact absurd ⟨value, hx⟩ hin
    · rintro ⟨k, w⟩ hw rfl
      exact hin ⟨w, hw⟩

theorem find?_allTags_of_user {name : String} (hn : Key.isReserved name = false) :
    (e.allTags t).find? name = e.tags.find? name := by
  apply Option.ext
  intro value
  rw [find?_allTags h]
  constructor
  · rintro (hv | ⟨field, _, rfl, _⟩)
    · exact hv
    · rw [Key.isReserved_reserved] at hn
      cases hn
  · exact .inl

theorem find?_allTags_reserved {field : String} (hf : field ∈ t.searchable) :
    (e.allTags t).find? (Key.reserved field) = Resource.searchText? e.fields field := by
  apply Option.ext
  intro value
  rw [find?_allTags h]
  constructor
  · rintro (hv | ⟨field', _, hr, hv⟩)
    · rw [find?_of_reserved h (Key.isReserved_reserved field)] at hv
      cases hv
    · rwa [Key.reserved_inj.mp hr]
  · exact fun hv => .inr ⟨field, hf, rfl, hv⟩

/-- A reserved tag that is kept for no field is not there. -/
theorem find?_allTags_unkept {name : String} (hname : Key.isReserved name = true)
    (hnot : ∀ field ∈ t.searchable, name ≠ Key.reserved field) : (e.allTags t).find? name = none := by
  cases hf : (e.allTags t).find? name with
  | none => rfl
  | some value =>
    rcases (find?_allTags h).mp hf with hu | ⟨field, hfield, hkept, _⟩
    · rw [find?_of_reserved h hname] at hu
      cases hu
    · exact absurd hkept (hnot field hfield)

theorem find?_allTags_latestTag {c : Catalog} (hc : c.Sound) (ht : c.Has t) :
    (e.allTags t).find? Key.latestTag = none :=
  find?_allTags_unkept h Key.isReserved_latestTag fun field hf => (hc.unflagged t ht field hf).symm

end Entry

namespace Catalog.Checked
variable {c : Catalog} (hc : c.Checked) {t t' : ResourceType} (ht : c.Has t) (ht' : c.Has t')
include hc ht

theorem canonicalKey_ne_tagKey (id owner name : String) :
    (⟨Key.resource t.code id, Key.resource t.code id⟩ : ItemKey) ≠ Tag.key owner name := by
  intro h
  have hsort := congrArg ItemKey.sort h
  exact hc.code_ne_tagCode ht (Key.resource_inj (hc.hasDelimiter_code ht) (by decide) hsort).1

theorem tagKey_ne_pointerKey (owner name : String) (v : Versioning) (parentId : String) :
    Tag.key owner name ≠ Pointer.key t.code v parentId := by
  intro h
  have hsort := congrArg ItemKey.sort h
  exact hc.code_ne_tagCode ht
    (Key.resource_inj (by decide) (hc.hasDelimiter_code ht) hsort).1.symm

include ht'

theorem canonicalKey_inj {id id' : String}
    (h : Key.resource t.code id = Key.resource t'.code id') : t = t' ∧ id = id' := by
  obtain ⟨hcode, hid⟩ :=
    Key.resource_inj (hc.hasDelimiter_code ht) (hc.hasDelimiter_code ht') h
  exact ⟨ht.eq_of_code ht' hcode, hid⟩

theorem tagKey_inj {id id' name name' : String}
    (h : Tag.key (Key.resource t.code id) name = Tag.key (Key.resource t'.code id') name') :
    t = t' ∧ id = id' ∧ name = name' := by
  obtain ⟨hcode, hid⟩ := hc.canonicalKey_inj ht ht' (congrArg ItemKey.partition h)
  exact ⟨hcode, hid, Key.tagSort_inj.mp (congrArg ItemKey.sort h)⟩

theorem pointerKey_inj {v v' : Versioning} (hv : t.versioning = some v) (hv' : t'.versioning = some v')
    {parentId parentId' : String}
    (h : Pointer.key t.code v parentId = Pointer.key t'.code v' parentId') :
    t = t' ∧ parentId = parentId' := by
  have hcode := (Key.resource_inj (hc.hasDelimiter_code ht) (hc.hasDelimiter_code ht')
    (congrArg ItemKey.sort h)).1
  obtain rfl := ht.eq_of_code ht' hcode
  obtain rfl := Option.some.inj (hv.symm.trans hv')
  exact ⟨rfl, Key.resource_right_inj.mp (congrArg ItemKey.partition h)⟩

/-- Pointers are found by an id that no other resource has. -/
theorem canonicalKey_ne_pointerKey_of_ne {id : String} (hid : id ≠ Key.latestMark) (v : Versioning)
    (parentId : String) :
    (⟨Key.resource t.code id, Key.resource t.code id⟩ : ItemKey) ≠ Pointer.key t'.code v parentId := by
  intro h
  have hsort := congrArg ItemKey.sort h
  exact hid (Key.resource_inj (hc.hasDelimiter_code ht) (hc.hasDelimiter_code ht') hsort).2

end Catalog.Checked

theorem Catalog.Sound.canonicalKey_ne_pointerKey {c : Catalog} (hc : c.Sound) {t t' : ResourceType}
    (ht : c.Has t) (ht' : c.Has t') {id : String} (hid : c.Apart t.code id) {v : Versioning}
    (hv : t'.versioning = some v) (parentId : String) :
    (⟨Key.resource t.code id, Key.resource t.code id⟩ : ItemKey) ≠ Pointer.key t'.code v parentId := by
  rcases hid with hid | hid
  · exact hc.canonicalKey_ne_pointerKey_of_ne ht ht' hid v parentId
  · intro h
    have hcode := (Key.resource_inj (hc.hasDelimiter_code ht) (hc.hasDelimiter_code ht')
      (congrArg ItemKey.sort h)).1
    have hparent := (Key.resource_inj (hc.hasDelimiter_code ht) (hc.plain t' v ht' hv)
      (congrArg ItemKey.partition h)).1
    exact hid t' v ht' hcode.symm hv hparent.symm

namespace Registry
variable {c : Catalog} {r : Registry}

theorem canonical?_eq_some_iff {t : ResourceType} {id : String} {item : Item} :
    r.canonical? t id = some item ↔ ∃ e, r.entries t.code id = some e ∧
      Resource.canonicalItem t id e.fields e.audit = .ok item := by
  simp only [canonical?, Option.bind_eq_some_iff]
  constructor
  · rintro ⟨e, he, hi⟩
    refine ⟨e, he, ?_⟩
    cases hcan : Resource.canonicalItem t id e.fields e.audit with
    | error cause => simp [hcan, Except.toOption] at hi
    | ok i => simpa [hcan, Except.toOption] using hi
  · rintro ⟨e, he, hi⟩
    exact ⟨e, he, by simp [hi, Except.toOption]⟩

/-- A sound entry's canonical item can be made. -/
theorem canonical_of_sound {t : ResourceType} {e : Entry} (he : e.Sound r t)
    (id : String) : ∃ item, Resource.canonicalItem t id e.fields e.audit = .ok item := by
  cases hv : t.versioning with
  | none =>
    exact ⟨_, Resource.canonicalItem_eq_ok_iff.mpr ⟨[], by simp [Resource.placement, hv], rfl⟩⟩
  | some v =>
    obtain ⟨parentId, ordering, hs⟩ := he.standing v hv
    refine ⟨_, Resource.canonicalItem_eq_ok_iff.mpr
      ⟨Version.placement t.code v parentId ordering, ?_, rfl⟩⟩
    simp [Resource.placement, hv, hs, bind, Except.bind, pure, Except.pure]

theorem isNewest_iff {t : ResourceType} {v : Versioning} (hv : t.versioning = some v) {id : String} :
    r.isNewest t id = true ↔ ∃ e parentId ordering p, r.entries t.code id = some e ∧
      Resource.standing v e.fields = .ok (parentId, ordering) ∧
      r.pointers t.code parentId = some p ∧ p.child = id := by
  rw [isNewest, Option.any_eq_true]
  constructor
  · rintro ⟨e, he, hn⟩
    rw [hv, Option.any_some] at hn
    split at hn
    next parentId ordering hs =>
      obtain ⟨p, hp, hid⟩ := (Option.any_eq_true _ _).mp hn
      exact ⟨e, parentId, ordering, p, he, hs, hp, of_decide_eq_true hid⟩
    · cases hn
  · rintro ⟨e, parentId, ordering, p, he, hs, hp, rfl⟩
    exact ⟨e, he, by simp [hv, hs, hp]⟩

theorem isNewest_unversioned {t : ResourceType} (hv : t.versioning = none) (id : String) :
    r.isNewest t id = false := by
  simp [isNewest, hv]

namespace Sound
variable (hr : r.Sound c) (hc : c.Sound)
include hr hc

omit hc in
theorem entry {t : ResourceType} (ht : c.Has t) {id : String} {e : Entry}
    (he : r.entries t.code id = some e) : c.Apart t.code id ∧ e.Sound r t := by
  obtain ⟨t', ht', hid, hs⟩ := hr.entries t.code id e he
  obtain rfl := Option.some.inj (ht.symm.trans ht')
  exact ⟨hid, hs⟩

/-- A tag of a resource is the one of newest children, one that its users see, or one that is kept for
a searchable field. -/
theorem tag?_eq_some_iff {t : ResourceType} (ht : c.Has t) {id name value : String} :
    r.tag? t id name = some value ↔
      (name = Key.latestTag ∧ value = Key.latestValue ∧ r.isNewest t id = true) ∨
      ∃ e, r.entries t.code id = some e ∧ (e.allTags t).find? name = some value := by
  unfold tag?
  by_cases hname : name = Key.latestTag
  · subst hname
    simp only [if_true, true_and]
    constructor
    · intro h
      split at h
      next hn => exact .inl ⟨(Option.some.inj h).symm, hn⟩
      · cases h
    · rintro (⟨rfl, hn⟩ | ⟨e, he, hf⟩)
      · rw [if_pos hn]
      · rw [Entry.find?_allTags_latestTag (hr.entry ht he).2.tags hc ht] at hf
        cases hf
  · simp only [hname, if_false, false_and, false_or, Option.bind_eq_some_iff]

omit hc in
/-- What a pointer names is there, and a child of the pointer's parent. -/
theorem pointee {t : ResourceType} (ht : c.Has t) {v : Versioning} (hv : t.versioning = some v)
    {parentId : String} {p : Pointer} (hp : r.pointers t.code parentId = some p) :
    ∃ e, r.entries t.code p.child = some e ∧ Resource.standing v e.fields = .ok (parentId, p.ordering) := by
  obtain ⟨t', v', e, ht', hv', he, hs⟩ := hr.pointers _ _ p hp
  obtain rfl := Option.some.inj (ht.symm.trans ht')
  obtain rfl := Option.some.inj (hv.symm.trans hv')
  exact ⟨e, he, hs⟩

omit hc in
theorem child_ne {code id : String} (hnone : r.entries code id = none) {parentId : String} {p : Pointer}
    (hp : r.pointers code parentId = some p) : p.child ≠ id := by
  rintro rfl
  obtain ⟨_, _, e, _, _, he, _⟩ := hr.pointers _ _ p hp
  rw [hnone] at he
  cases he

omit hc in
/-- The newest children are those that pointers name. -/
theorem isNewest_iff_named {t : ResourceType} (ht : c.Has t) {id : String} : r.isNewest t id = true ↔
    ∃ parentId p, r.pointers t.code parentId = some p ∧ p.child = id := by
  constructor
  · intro hnewest
    cases hv : t.versioning with
    | none =>
      rw [isNewest_unversioned hv] at hnewest
      cases hnewest
    | some v =>
      obtain ⟨_, parentId, _, p, _, _, hp, hid⟩ := (isNewest_iff hv).mp hnewest
      exact ⟨parentId, p, hp, hid⟩
  · rintro ⟨parentId, p, hp, rfl⟩
    obtain ⟨t', v, e, ht', hv, he, hs⟩ := hr.pointers _ _ p hp
    obtain rfl := Option.some.inj (ht.symm.trans ht')
    exact (isNewest_iff hv).mpr ⟨e, parentId, p.ordering, p, he, hs, hp, rfl⟩

theorem hasDelimiter_of_tag? {t : ResourceType} (ht : c.Has t) {id name value : String}
    (h : r.tag? t id name = some value) : Key.hasDelimiter name = false := by
  rcases (hr.tag?_eq_some_iff hc ht).mp h with ⟨rfl, _⟩ | ⟨e, he, hf⟩
  · decide
  · have hs := (hr.entry ht he).2
    rcases (Entry.find?_allTags hs.tags).mp hf with hu | ⟨field, hfield, rfl, _⟩
    · exact (Checks.tagName_spec (hs.tags _ _ hu)).1
    · rw [Key.hasDelimiter_reserved]
      exact hc.hasDelimiter_searchable ht hfield

theorem entry_of_tag? {t : ResourceType} (ht : c.Has t) {id name value : String}
    (h : r.tag? t id name = some value) : ∃ e, r.entries t.code id = some e := by
  rcases (hr.tag?_eq_some_iff hc ht).mp h with ⟨_, _, hn⟩ | ⟨e, he, _⟩
  · obtain ⟨e, he, _⟩ := (Option.any_eq_true _ _).mp hn
    exact ⟨e, he⟩
  · exact ⟨e, he⟩

end Sound

end Registry

theorem Resource.readTime_eq {item : Item} {name text : String} {i : Instant}
    (ht : item.text? name = some text) (hi : Rfc3339.read text = .ok i) :
    readTime item name = .ok (some i) := by
  rw [readTime, ht]
  simp only [hi]

/-- What was stored of a resource is read back, if its times can be. -/
theorem Resource.ofCanonical_canonical {t : ResourceType} {id : String} {fields : Item} {audit : Audit}
    {item : Item} (hi : canonicalItem t id fields audit = .ok item) (hfields : Checks.Unmanaged fields)
    (hcreated : Rfc3339.read (storedTime audit.createdAt) = .ok audit.createdAt)
    (hupdated : ∀ u ∈ audit.updated, Rfc3339.read (storedTime u.1) = .ok u.1) (tags : Tags) :
    ofCanonical t item tags = .ok ⟨id, t.code, fields, tags, audit.createdAt, audit.createdBy,
      audit.updated.map Prod.fst, audit.updated.map Prod.snd, []⟩ := by
  have hcreated := readTime_eq (text?_canonical_createdAt hi) hcreated
  obtain ⟨hat, hby⟩ := text?_canonical_updated hi hfields
  have hupdated : readTime item Attribute.updatedAt = .ok (audit.updated.map Prod.fst) := by
    cases hu : audit.updated with
    | none =>
      rw [hu] at hat
      rw [readTime, hat]
      rfl
    | some u =>
      rw [hu] at hat
      exact readTime_eq hat (hupdated u hu)
  rw [ofCanonical, text?_canonical_id hi]
  simp only [hcreated, hupdated, hby, text?_canonical_createdBy hi, filter_canonical hi hfields, bind,
    Except.bind, pure, Except.pure]
  rfl

/-- What is read of a canonical item and some tags. -/
theorem Resource.ofCanonical_inv {t : ResourceType} {item : Item} {tags : Tags} {r : Resource}
    (h : ofCanonical t item tags = .ok r) : item.text? Attribute.id = some r.id ∧ r.code = t.code ∧
    r.fields = (item.filter fun name _ => !Checks.isManaged name) ∧ r.tags = tags ∧
      readTime item Attribute.createdAt = .ok (some r.createdAt) ∧
      r.createdBy = (item.text? Attribute.createdBy).getD "" := by
  unfold ofCanonical at h
  split at h
  · cases h
  next id hid =>
    obtain ⟨created, hcreated, h⟩ := Outcome.bind_eq_ok_iff.mp h
    cases created with
    | none => cases h
    | some createdAt =>
      obtain ⟨updatedAt, _, h⟩ := Outcome.bind_eq_ok_iff.mp h
      cases h
      exact ⟨hid, rfl, rfl, rfl, hcreated, rfl⟩

theorem Resource.readTime_inv {item : Item} {name text : String} {i : Instant}
    (ht : item.text? name = some text) (h : readTime item name = .ok (some i)) : Rfc3339.read text = .ok i := by
  unfold readTime at h
  rw [ht] at h
  dsimp only at h
  split at h
  · cases h
    assumption
  · cases h

theorem Resource.load_of_ofItems {m : Memory} {t : ResourceType} {id : String} {r : Resource}
    (h : ofItems t (m.itemsIn (Key.resource t.code id)) = .ok (some r)) :
    load m t id = .ok (m.itemsIn (Key.resource t.code id), r) := by
  simp only [load, m.listing_items, h, Outcome.mapError_ok, bind, Except.bind, pure, Except.pure]

/-- The canonical item of a resource is the one whose partition is also its sort key. -/
theorem Memory.Keyed.find?_isCanonical {m : Memory} (hm : m.Keyed) (t : ResourceType) (id : String) :
    (m.itemsIn (Key.resource t.code id)).find? (Resource.isCanonical t) =
      (m.items.find? ⟨Key.resource t.code id, Key.resource t.code id⟩).filter fun item =>
        item.text? Attribute.kind = some t.code := by
  have hall : ∀ item ∈ m.itemsIn (Key.resource t.code id), Resource.isCanonical t item = true →
      m.items.find? ⟨Key.resource t.code id, Key.resource t.code id⟩ = some item ∧
        item.text? Attribute.kind = some t.code := by
    intro item hitem hcanonical
    obtain ⟨sort, hf⟩ := Memory.mem_itemsIn.mp hitem
    obtain ⟨hpartition, hsort⟩ := Item.key_eq_ok_iff.mp (hm _ item hf)
    simp only [Resource.isCanonical, hpartition, hsort, Option.isSome_some, Option.some.injEq,
      Bool.and_eq_true, decide_eq_true_eq, and_true] at hcanonical
    obtain ⟨hkind, rfl⟩ := hcanonical
    exact ⟨hf, hkind⟩
  apply Option.ext
  intro item
  rw [Option.filter_eq_some_iff, decide_eq_true_eq]
  constructor
  · intro hfind
    exact hall item (List.mem_of_find?_eq_some hfind) (List.find?_some hfind)
  · intro hstored
    obtain ⟨hf, hkind⟩ := hstored
    have hcanonical : Resource.isCanonical t item = true := by
      obtain ⟨hpartition, hsort⟩ := Item.key_eq_ok_iff.mp (hm _ item hf)
      simp [Resource.isCanonical, hkind, hpartition, hsort]
    cases hfind : (m.itemsIn (Key.resource t.code id)).find? (Resource.isCanonical t) with
    | none =>
      have hin := Memory.mem_itemsIn.mpr ⟨_, hf⟩
      exact absurd hcanonical (List.find?_eq_none.mp hfind item hin)
    | some item' =>
      have hsame := (hall item' (List.mem_of_find?_eq_some hfind) (List.find?_some hfind)).1
      rw [hf] at hsame
      exact hsame.symm

/-- What a store has of a resource besides its tags. -/
structure Memory.Stores (m : Memory) (t : ResourceType) (id : String) (fields : Item)
    (audit : Resource.Audit) : Prop where
  unmanaged : Checks.Unmanaged fields
  stored : ∃ item, Resource.canonicalItem t id fields audit = .ok item ∧
    m.items.find? ⟨Key.resource t.code id, Key.resource t.code id⟩ = some item

namespace Memory.Stores
variable {m : Memory} {t : ResourceType} {id : String} {fields : Item} {audit : Resource.Audit}
  (hs : m.Stores t id fields audit) (hm : m.Keyed)
include hs hm

theorem find?_isCanonical : ∃ item, Resource.canonicalItem t id fields audit = .ok item ∧
    (m.itemsIn (Key.resource t.code id)).find? (Resource.isCanonical t) = some item := by
  obtain ⟨item, hitem, hf⟩ := hs.stored
  have hkind : decide (item.text? Attribute.kind = some t.code) = true := by
    simp [Resource.text?_canonical_kind hitem]
  exact ⟨item, hitem, by rw [hm.find?_isCanonical, hf, Option.filter_some, if_pos hkind]⟩

variable (hcreated : Rfc3339.read (Resource.storedTime audit.createdAt) = .ok audit.createdAt)
  (hupdated : ∀ u ∈ audit.updated, Rfc3339.read (Resource.storedTime u.1) = .ok u.1)
include hcreated hupdated

theorem ofItems : Resource.ofItems t (m.itemsIn (Key.resource t.code id)) =
    .ok (some ⟨id, t.code, fields, Tag.assemble (m.itemsIn (Key.resource t.code id)) .empty,
      audit.createdAt, audit.createdBy, audit.updated.map Prod.fst, audit.updated.map Prod.snd, []⟩) := by
  obtain ⟨item, hitem, hfind⟩ := hs.find?_isCanonical hm
  simp only [Resource.ofItems, hfind,
    Resource.ofCanonical_canonical hitem hs.unmanaged hcreated hupdated]
  rfl

/-- What is stored of a resource is loaded, if its times can be read back. -/
theorem load : ∃ r, Resource.load m t id = .ok (m.itemsIn (Key.resource t.code id), r) :=
  ⟨_, Resource.load_of_ofItems (hs.ofItems hm hcreated hupdated)⟩

end Memory.Stores

/-- Whether a resource is what is read of an entry: it is as it was stored, and was created when the text that
is stored for that says. -/
structure Entry.ReadAs (t : ResourceType) (id : String) (e : Entry) (found : Resource) : Prop where
  id : found.id = id
  code : found.code = t.code
  fields : found.fields = e.fields
  tags : found.tags = e.tags
  createdAt : Rfc3339.read (Resource.storedTime e.audit.createdAt) = .ok found.createdAt
  createdBy : found.createdBy = e.audit.createdBy

/-- A store whose items are those of a sound registry. -/
structure Stands (c : Catalog) (m : Memory) (r : Registry) : Prop where
  sound : r.Sound c
  mirrors : Mirrors c m.items.find? r

/-- Such a store that can be read. -/
structure Holds (c : Catalog) (m : Memory) (r : Registry) : Prop extends Stands c m r where
  legible : r.Every Entry.Legible

namespace Stands
variable {c : Catalog} {m : Memory} {r : Registry} (h : Stands c m r) (hc : c.Sound)
include h hc

omit hc in
/-- Every stored item is the canonical item of a resource, the item of one of its tags, or a pointer. -/
theorem item_cases {key : ItemKey} {item : Item} (hf : m.items.find? key = some item) :
    (∃ t id e, c.Has t ∧ r.entries t.code id = some e ∧
      Resource.canonicalItem t id e.fields e.audit = .ok item ∧
      key = ⟨Key.resource t.code id, Key.resource t.code id⟩) ∨
    (∃ t id name value, c.Has t ∧ r.tag? t id name = some value ∧
      item = Tag.item (Key.resource t.code id) name value ∧
      key = Tag.key (Key.resource t.code id) name) ∨
    ∃ t v parentId p, c.Has t ∧ t.versioning = some v ∧ r.pointers t.code parentId = some p ∧
      item = p.item key ∧ key = Pointer.key t.code v parentId := by
  rcases h.mirrors.only key item hf with ⟨t, id, ht, hid, rfl⟩ | ⟨t, id, name, ht, rfl⟩ |
    ⟨t, v, parentId, ht, hv, rfl⟩
  · rw [h.mirrors.canonical t id ht hid] at hf
    obtain ⟨e, he, hi⟩ := Registry.canonical?_eq_some_iff.mp hf
    exact .inl ⟨t, id, e, ht, he, hi, rfl⟩
  · rw [h.mirrors.tags t id name ht] at hf
    obtain ⟨value, hv, hi⟩ := Option.map_eq_some_iff.mp hf
    exact .inr (.inl ⟨t, id, name, value, ht, hv, hi.symm, rfl⟩)
  · rw [h.mirrors.pointers t v parentId ht hv] at hf
    obtain ⟨p, hp, hi⟩ := Option.map_eq_some_iff.mp hf
    exact .inr (.inr ⟨t, v, parentId, p, ht, hv, hp, hi.symm, rfl⟩)

omit hc in
theorem keyed : m.Keyed := by
  intro key item hf
  rcases h.item_cases hf with ⟨t, id, e, _, _, hi, rfl⟩ | ⟨t, id, name, value, _, _, rfl, rfl⟩ |
    ⟨t, v, parentId, p, _, _, _, rfl, rfl⟩
  · exact Resource.key_canonical hi
  · exact Tag.key_item _ _ _
  · exact Pointer.key_item _ _

theorem only : Tag.Only m := by
  intro key item hf hindex
  rcases h.item_cases hf with ⟨t, id, e, ht, he, hi, _⟩ | ⟨t, id, name, value, ht, hv, rfl, _⟩ |
    ⟨t, v, parentId, p, _, _, _, rfl, _⟩
  · rw [Resource.text?_canonical_tagIndex hi (h.sound.entry ht he).2.fields] at hindex
    cases hindex
  · exact ⟨_, name, value, h.sound.hasDelimiter_of_tag? hc ht hv, rfl⟩
  · rw [Pointer.text?_item_tagIndex] at hindex
    cases hindex

/-- The items of a resource's partition: its canonical one, those of its tags, and pointers. -/
theorem mem_itemsIn_cases {t : ResourceType} (ht : c.Has t) {id : String} {item : Item}
    (hi : item ∈ m.itemsIn (Key.resource t.code id)) :
    (∃ e, r.entries t.code id = some e ∧
      Resource.canonicalItem t id e.fields e.audit = .ok item) ∨
    (∃ name value, r.tag? t id name = some value ∧
      item = Tag.item (Key.resource t.code id) name value) ∨
    ∃ t' v parentId p, c.Has t' ∧ t'.versioning = some v ∧ r.pointers t'.code parentId = some p ∧
      Key.resource v.parentCode parentId = Key.resource t.code id ∧
      item = p.item (Pointer.key t'.code v parentId) := by
  obtain ⟨sort, hf⟩ := Memory.mem_itemsIn.mp hi
  rcases h.item_cases hf with ⟨t', id', e, ht', he, hcan, hk⟩ |
    ⟨t', id', name, value, ht', hv, rfl, hk⟩ | ⟨t', v, parentId, p, ht', hv, hp, rfl, hk⟩
  · obtain ⟨rfl, rfl⟩ := hc.canonicalKey_inj ht ht' (congrArg ItemKey.partition hk)
    exact .inl ⟨e, he, hcan⟩
  · obtain ⟨rfl, rfl⟩ := hc.canonicalKey_inj ht ht' (congrArg ItemKey.partition hk)
    exact .inr (.inl ⟨name, value, hv, rfl⟩)
  · exact .inr (.inr ⟨t', v, parentId, p, ht', hv, hp, (congrArg ItemKey.partition hk).symm, hk ▸ rfl⟩)

theorem isCanonical_iff {t : ResourceType} (ht : c.Has t) {id : String} {item : Item}
    (hi : item ∈ m.itemsIn (Key.resource t.code id)) :
    Resource.isCanonical t item = true ↔ ∃ e, r.entries t.code id = some e ∧
      Resource.canonicalItem t id e.fields e.audit = .ok item := by
  constructor
  · intro hcan
    have hkind : item.text? Attribute.kind = some t.code := by
      simp only [Resource.isCanonical, Bool.and_eq_true, decide_eq_true_eq] at hcan
      exact hcan.1.1
    rcases h.mem_itemsIn_cases hc ht hi with hcase | ⟨name, value, _, rfl⟩ |
      ⟨t', v, parentId, p, _, _, _, _, rfl⟩
    · exact hcase
    · rw [Tag.text?_item_kind, Option.some.injEq] at hkind
      exact absurd hkind.symm (hc.code_ne_tagCode ht)
    · rw [Pointer.text?_item_kind, Option.some.injEq] at hkind
      exact absurd hkind.symm (hc.code_ne_pointerCode ht)
  · rintro ⟨e, _, hcan⟩
    exact Resource.isCanonical_canonical hcan

/-- The tags that users see, among the items of a resource. -/
theorem mem_ofItem?_iff {t : ResourceType} (ht : c.Has t) {id : String} {e : Entry}
    (he : r.entries t.code id = some e) {name value : String} :
    (name, value) ∈ (m.itemsIn (Key.resource t.code id)).filterMap Tag.ofItem? ↔
      e.tags.find? name = some value := by
  have hsound := (h.sound.entry ht he).2
  rw [List.mem_filterMap]
  constructor
  · rintro ⟨item, hi, hof⟩
    rcases h.mem_itemsIn_cases hc ht hi with ⟨e', _, hcan⟩ | ⟨n, v, hv, rfl⟩ |
      ⟨t', v, parentId, p, _, _, _, _, rfl⟩
    · have hkind : ¬ item.text? Attribute.kind = some Key.tagCode := by
        rw [Resource.text?_canonical_kind hcan, Option.some.injEq]
        exact hc.code_ne_tagCode ht
      rw [Tag.ofItem?_of_kind hkind] at hof
      cases hof
    · rw [Tag.ofItem?_item] at hof
      split at hof
      · cases hof
      next hres =>
        cases hof
        rcases (h.sound.tag?_eq_some_iff hc ht).mp hv with ⟨rfl, _⟩ | ⟨e', he', hf⟩
        · exact absurd (by decide) hres
        · obtain rfl := Option.some.inj (he.symm.trans he')
          rwa [Entry.find?_allTags_of_user hsound.tags (by simpa using hres)] at hf
    · rw [Tag.ofItem?_of_kind (by rw [Pointer.text?_item_kind]; decide)] at hof
      cases hof
  · intro hf
    have hname := (Checks.tagName_spec (hsound.tags _ _ hf)).2
    refine ⟨Tag.item (Key.resource t.code id) name value, ?_, by rw [Tag.ofItem?_item, hname]; rfl⟩
    refine Memory.mem_itemsIn.mpr ⟨Key.tagSort name, ?_⟩
    have htags := h.mirrors.tags t id name ht
    have htag : r.tag? t id name = some value := (h.sound.tag?_eq_some_iff hc ht).mpr
      (.inr ⟨e, he, (Entry.find?_allTags_of_user hsound.tags hname).trans hf⟩)
    rw [htag] at htags
    exact htags

theorem assemble {t : ResourceType} (ht : c.Has t) {id : String} {e : Entry}
    (he : r.entries t.code id = some e) :
    Tag.assemble (m.itemsIn (Key.resource t.code id)) .empty = e.tags := by
  apply SortedMap.ext_find?
  intro name
  apply Option.ext
  intro value
  rw [Tag.assemble, ← SortedMap.ofList_eq_insertAll, ← SortedMap.mem_entries_iff,
    SortedMap.mem_entries_ofList, h.mem_ofItem?_iff hc ht he]
  intro n v w hv hw
  rw [h.mem_ofItem?_iff hc ht he] at hv hw
  exact Option.some.inj (hw.symm.trans hv)

omit hc in
/-- The canonical item of an entry is stored. -/
theorem stores {t : ResourceType} (ht : c.Has t) {id : String} {e : Entry}
    (he : r.entries t.code id = some e) : m.Stores t id e.fields e.audit := by
  obtain ⟨hid, hsound⟩ := h.sound.entry ht he
  obtain ⟨item, hcan⟩ := Registry.canonical_of_sound hsound id
  refine ⟨hsound.fields, item, hcan, ?_⟩
  rw [h.mirrors.canonical t id ht hid]
  exact Registry.canonical?_eq_some_iff.mpr ⟨e, he, hcan⟩

/-- What is read of a resource is told by its entry alone. -/
theorem ofItems_eq {t : ResourceType} (ht : c.Has t) {id : String} {e : Entry}
    (he : r.entries t.code id = some e) {item : Item}
    (hcan : Resource.canonicalItem t id e.fields e.audit = .ok item) :
    Resource.ofItems t (m.itemsIn (Key.resource t.code id)) =
      (Resource.ofCanonical t item e.tags).map some := by
  obtain ⟨item', hcan', hfind⟩ := (h.stores ht he).find?_isCanonical h.keyed
  obtain rfl := Except.ok.inj (hcan.symm.trans hcan')
  rw [Resource.ofItems, hfind, h.assemble hc ht he]

theorem find?_isCanonical_none {t : ResourceType} (ht : c.Has t) {id : String}
    (he : r.entries t.code id = none) :
    (m.itemsIn (Key.resource t.code id)).find? (Resource.isCanonical t) = none := by
  apply List.find?_eq_none.mpr
  intro item hi hcan
  obtain ⟨e, he', _⟩ := (h.isCanonical_iff hc ht hi).mp hcan
  rw [he] at he'
  cases he'

theorem ofItems_none {t : ResourceType} (ht : c.Has t) {id : String}
    (he : r.entries t.code id = none) :
    Resource.ofItems t (m.itemsIn (Key.resource t.code id)) = .ok none := by
  rw [Resource.ofItems, h.find?_isCanonical_none hc ht he]

/-- A resource that is loaded is there, and is what is read of its entry. -/
theorem load_inv {t : ResourceType} (ht : c.Has t) {id : String} {items : List Item} {found : Resource}
    (hload : Resource.load m t id = .ok (items, found)) :
    items = m.itemsIn (Key.resource t.code id) ∧ ∃ e, r.entries t.code id = some e ∧ e.ReadAs t id found := by
  simp only [Resource.load, m.listing_items, Outcome.mapError_ok, bind, Except.bind] at hload
  cases he : r.entries t.code id with
  | none =>
    rw [h.ofItems_none hc ht he] at hload
    cases hload
  | some e =>
    have hsound := (h.sound.entry ht he).2
    obtain ⟨item, hcan⟩ := Registry.canonical_of_sound hsound id
    rw [h.ofItems_eq hc ht he hcan] at hload
    cases hof : Resource.ofCanonical t item e.tags with
    | error cause =>
      rw [hof] at hload
      cases hload
    | ok found' =>
      rw [hof] at hload
      cases hload
      obtain ⟨hid, hcode, hfields, htags, hcreated, hby⟩ := Resource.ofCanonical_inv hof
      have hid := hid.symm.trans (Resource.text?_canonical_id hcan)
      refine ⟨rfl, e, rfl, Option.some.inj hid, hcode,
        hfields.trans (Resource.filter_canonical hcan hsound.fields), htags,
        Resource.readTime_inv (Resource.text?_canonical_createdAt hcan) hcreated, ?_⟩
      rw [hby, Resource.text?_canonical_createdBy hcan]
      rfl

theorem load_none {t : ResourceType} (ht : c.Has t) {id : String}
    (he : r.entries t.code id = none) :
    Resource.load m t id = .error (.notFound t.name id) := by
  simp only [Resource.load, m.listing_items, h.ofItems_none hc ht he, Outcome.mapError_ok, bind,
    Except.bind, throw, throwThe, MonadExceptOf.throw]

omit hc in
theorem carries_iff {t : ResourceType} (ht : c.Has t) {tags : List (String × String)} {id : String} :
    Tag.Carries m t.code tags id ↔ ∀ tag ∈ tags, r.tag? t id tag.1 = some tag.2 := by
  unfold Tag.Carries
  have hone : ∀ name value, m.items.find? (Tag.key (Key.resource t.code id) name) =
      some (Tag.item (Key.resource t.code id) name value) ↔ r.tag? t id name = some value := by
    intro name value
    rw [h.mirrors.tags t id name ht, Option.map_eq_some_iff]
    constructor
    · rintro ⟨value', hv, hi⟩
      have hvalue := congrArg (fun i => Item.text? i Attribute.tagValue) hi
      simp only [Tag.text?_item_tagValue, Option.some.injEq] at hvalue
      exact hvalue ▸ hv
    · exact fun hv => ⟨value, hv, rfl⟩
  simp only [hone]

omit hc in
/-- The tag of newest children stands with those that are. -/
theorem find?_flag {t : ResourceType} (ht : c.Has t) (id : String) :
    m.items.find? (Version.latestKey t.code id) =
      if r.isNewest t id then some (Version.latestItem t.code id) else none := by
  rw [Version.latestKey, h.mirrors.tags t id _ ht, Registry.tag?, if_pos rfl]
  split <;> rfl

omit hc in
theorem find?_pointer {t : ResourceType} (ht : c.Has t) {v : Versioning} (hv : t.versioning = some v)
    (parentId : String) :
    Pointer.find? m (Pointer.key t.code v parentId) = .ok (r.pointers t.code parentId) := by
  have hget : Store.get m (Pointer.key t.code v parentId) =
      .ok (m.items.find? (Pointer.key t.code v parentId)) := rfl
  rw [Pointer.find?, hget, h.mirrors.pointers t v parentId ht hv]
  cases r.pointers t.code parentId with
  | none => rfl
  | some p =>
    simp only [Option.map_some, Pointer.ofItem_item, Outcome.mapError_ok, bind, Except.bind, pure,
      Except.pure]

section
variable {t : ResourceType} (ht : c.Has t) {id : String} {e : Entry} (he : r.entries t.code id = some e)
  (hlegible : e.Legible)
include ht he hlegible

theorem ofItems_legible :
    Resource.ofItems t (m.itemsIn (Key.resource t.code id)) = .ok (some (e.resource t id)) := by
  rw [(h.stores ht he).ofItems h.keyed hlegible.created hlegible.updated, h.assemble hc ht he]
  rfl

/-- A resource that is there is loaded as it was stored, if its times can be read back. -/
theorem load_legible :
    Resource.load m t id = .ok (m.itemsIn (Key.resource t.code id), e.resource t id) :=
  Resource.load_of_ofItems (h.ofItems_legible hc ht he hlegible)

end

end Stands

namespace Holds
variable {c : Catalog} {m : Memory} {r : Registry} (h : Holds c m r) (hc : c.Sound) {t : ResourceType}
  (ht : c.Has t) {id : String} {e : Entry} (he : r.entries t.code id = some e)
include h hc ht he

theorem ofItems_some :
    Resource.ofItems t (m.itemsIn (Key.resource t.code id)) = .ok (some (e.resource t id)) :=
  h.ofItems_legible hc ht he (h.legible _ _ e he)

/-- A resource that is there is loaded as it was stored. -/
theorem load_some : Resource.load m t id = .ok (m.itemsIn (Key.resource t.code id), e.resource t id) :=
  h.load_legible hc ht he (h.legible _ _ e he)

end Holds

end TagStore
