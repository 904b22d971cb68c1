import TagStore.Proofs.BatchEffects
import TagStore.Proofs.Loading

namespace TagStore

/-- An item that is found under a key in a store that only calls have changed: that of a resource, of one
of its tags, or of a pointer. The resource has not the id that pointers are found by, and was created at a
time that the clock may have shown. -/
inductive Kept (c : Catalog) (clock : Instant → Prop) : ItemKey → Item → Prop where
  | canonical {t : ResourceType} {id : String} {fields : Item} {audit : Resource.Audit} {item : Item}
    (ht : c.Has t) (hid : id ≠ Key.latestMark) (hfields : Checks.Unmanaged fields)
    (hclock : clock audit.createdAt) (hitem : Resource.canonicalItem t id fields audit = .ok item) :
    Kept c clock ⟨Key.resource t.code id, Key.resource t.code id⟩ item
  | tag {t : ResourceType} (id : String) {name : String} (value : String) (ht : c.Has t)
    (hname : Key.hasDelimiter name = false) :
    Kept c clock (Tag.key (Key.resource t.code id) name) (Tag.item (Key.resource t.code id) name value)
  | pointer {t : ResourceType} {v : Versioning} (parentId : String) (p : Pointer) (ht : c.Has t)
    (hv : t.versioning = some v) :
    Kept c clock (Pointer.key t.code v parentId) (p.item (Pointer.key t.code v parentId))

/-- The fields of a stored resource: what its canonical item holds that users can name. -/
def Memory.fieldsOf? (m : Memory) (t : ResourceType) (id : String) : Option Item :=
  ((m.itemsIn (Key.resource t.code id)).find? (Resource.isCanonical t)).map fun item =>
    item.filter fun name _ => !Checks.isManaged name

/-- A store of such items only. -/
def Memory.Keeps (c : Catalog) (clock : Instant → Prop) (m : Memory) : Prop :=
  ∀ key item, m.items.find? key = some item → Kept c clock key item

namespace Kept
variable {c : Catalog} {clock : Instant → Prop} {key : ItemKey} {item : Item} (h : Kept c clock key item)
include h

theorem key_eq : item.key = .ok key := by
  cases h with
  | canonical _ _ _ _ hitem => exact Resource.key_canonical hitem
  | tag id value _ _ => exact Tag.key_item _ _ _
  | pointer parentId p _ _ => exact Pointer.key_item _ _

/-- Only tags are found by their values. -/
theorem eq_tag (hindex : (item.text? Attribute.tagIndex).isSome = true) :
    ∃ owner name value, Key.hasDelimiter name = false ∧ item = Tag.item owner name value := by
  cases h with
  | canonical _ _ hfields _ hitem =>
    rw [Resource.text?_canonical_tagIndex hitem hfields] at hindex
    cases hindex
  | tag id value _ hname => exact ⟨_, _, value, hname, rfl⟩
  | pointer parentId p _ _ =>
    rw [Pointer.text?_item_tagIndex] at hindex
    cases hindex

/-- An item of a type's kind is the canonical item of a resource. -/
theorem eq_canonical (hc : c.Checked) {t : ResourceType} (ht : c.Has t) {id : String}
    (hkey : key = ⟨Key.resource t.code id, Key.resource t.code id⟩)
    (hkind : item.text? Attribute.kind = some t.code) : ∃ fields audit, id ≠ Key.latestMark ∧
      Checks.Unmanaged fields ∧ clock audit.createdAt ∧
      Resource.canonicalItem t id fields audit = .ok item := by
  cases h with
  | canonical ht' hid hfields hclock hitem =>
    obtain ⟨rfl, rfl⟩ := hc.canonicalKey_inj ht' ht (congrArg ItemKey.partition hkey)
    exact ⟨_, _, hid, hfields, hclock, hitem⟩
  | tag id' value _ _ => exact absurd hkey.symm (hc.canonicalKey_ne_tagKey ht id _ _)
  | pointer parentId p _ _ =>
    rw [Pointer.text?_item_kind, Option.some.injEq] at hkind
    exact absurd hkind.symm (hc.code_ne_pointerCode ht)

end Kept

namespace Resource

theorem ofItems_eq_some {t : ResourceType} {items : List Item} {r : Resource}
    (h : ofItems t items = .ok (some r)) : ∃ item, items.find? (isCanonical t) = some item ∧
      ofCanonical t item (Tag.assemble items .empty) = .ok r := by
  unfold ofItems at h
  split at h
  next hfind => cases h
  next item hfind =>
    refine ⟨item, hfind, ?_⟩
    cases hof : ofCanonical t item (Tag.assemble items .empty) with
    | error e =>
      rw [hof] at h
      cases h
    | ok r' =>
      rw [hof] at h
      cases h
      rfl

/-- What is loaded of a resource is read of its partition. -/
theorem of_load {σ : Type} [Store σ] {s : σ} {t : ResourceType} {id : String} {items : List Item} {r : Resource}
    (h : load s t id = .ok (items, r)) :
    Listing.items s t.code id = .ok items ∧ ofItems t items = .ok (some r) := by
  obtain ⟨items', hitems, h⟩ := Outcome.bind_eq_ok_iff.mp h
  obtain ⟨found, hfound, h⟩ := Outcome.bind_eq_ok_iff.mp h
  rw [Outcome.mapError_eq_ok_iff] at hitems hfound
  cases found with
  | none => cases h
  | some r' =>
    cases h
    exact ⟨hitems, hfound⟩

/-- No field that is read of a resource is one of the store's own attributes. -/
theorem unmanaged_of_ofItems {t : ResourceType} {items : List Item} {r : Resource}
    (h : ofItems t items = .ok (some r)) : Checks.Unmanaged r.fields := by
  obtain ⟨item, _, hof⟩ := ofItems_eq_some h
  obtain ⟨_, _, hfields, _⟩ := ofCanonical_inv hof
  intro name value hv
  rw [hfields, SortedMap.find?_filter, Option.filter_eq_some_iff] at hv
  simpa using hv.2

end Resource

namespace Memory.Keeps
variable {c : Catalog} {clock : Instant → Prop} {m : Memory} (h : m.Keeps c clock)
include h

theorem keyed : m.Keyed := fun key item hf => (h key item hf).key_eq

theorem only : Tag.Only m := fun key item hf hindex => (h key item hf).eq_tag hindex

variable (hc : c.Checked) {t : ResourceType} (ht : c.Has t) {id : String}
include hc ht

/-- The item that is found for a resource is the canonical item of its fields. -/
theorem find?_isCanonical {item : Item}
    (hf : (m.itemsIn (Key.resource t.code id)).find? (Resource.isCanonical t) = some item) :
    ∃ fields audit, id ≠ Key.latestMark ∧ clock audit.createdAt ∧ m.Stores t id fields audit ∧
      Resource.canonicalItem t id fields audit = .ok item := by
  rw [h.keyed.find?_isCanonical, Option.filter_eq_some_iff, decide_eq_true_eq] at hf
  obtain ⟨hf, hkind⟩ := hf
  obtain ⟨fields, audit, hid, hfields, hclock, hitem⟩ := (h _ _ hf).eq_canonical hc ht rfl hkind
  exact ⟨fields, audit, hid, hclock, ⟨hfields, item, hitem, hf⟩, hitem⟩

omit hc ht in
theorem fieldsOf?_of_stores {fields : Item} {audit : Resource.Audit} (hs : m.Stores t id fields audit) :
    m.fieldsOf? t id = some fields := by
  obtain ⟨item, hitem, hfind⟩ := hs.find?_isCanonical h.keyed
  rw [Memory.fieldsOf?, hfind, Option.map_some, Resource.filter_canonical hitem hs.unmanaged]

theorem fieldsOf?_eq_some {fields : Item} (hf : m.fieldsOf? t id = some fields) :
    ∃ audit, id ≠ Key.latestMark ∧ m.Stores t id fields audit := by
  obtain ⟨item, hfind, rfl⟩ := Option.map_eq_some_iff.mp hf
  obtain ⟨fields, audit, hid, _, hs, hitem⟩ := h.find?_isCanonical hc ht hfind
  rw [Resource.filter_canonical hitem hs.unmanaged]
  exact ⟨audit, hid, hs⟩

/-- What is loaded of a resource is what is stored of it. -/
theorem load_inv {items : List Item} {r : Resource} (hload : Resource.load m t id = .ok (items, r)) :
    items = m.itemsIn (Key.resource t.code id) ∧ id ≠ Key.latestMark ∧ ∃ audit,
      m.Stores t id r.fields audit ∧ clock audit.createdAt ∧
      Rfc3339.read (Resource.storedTime audit.createdAt) = .ok r.createdAt := by
  obtain ⟨hitems, hfound⟩ := Resource.of_load hload
  rw [m.listing_items, Except.ok.injEq] at hitems
  subst hitems
  obtain ⟨item, hfind, hof⟩ := Resource.ofItems_eq_some hfound
  obtain ⟨fields, audit, hid, hclock, hs, hitem⟩ := h.find?_isCanonical hc ht hfind
  obtain ⟨_, _, hfields, _, hcreated, _⟩ := Resource.ofCanonical_inv hof
  rw [Resource.filter_canonical hitem hs.unmanaged] at hfields
  refine ⟨rfl, hid, audit, hfields ▸ hs, hclock, ?_⟩
  exact Resource.readTime_inv (Resource.text?_canonical_createdAt hitem) hcreated

end Memory.Keeps

end TagStore
