import TagStore.Proofs.CanonicalItems
import TagStore.Proofs.TagStream
import TagStore.Settings
import TagStore.Version.Upkeep

namespace TagStore

namespace Pointer

theorem find?_item (key : ItemKey) (p : Pointer) (a : String) :
    (item key p).find? a =
      if a = Attribute.ordering then some (.string p.ordering)
      else if a = Attribute.id then some (.string p.child)
      else if a = Attribute.kind then some (.string Key.pointerCode)
      else if a = Attribute.sort then some (.string key.sort)
      else if a = Attribute.partition then some (.string key.partition)
      else none := by
  simp only [item, SortedMap.ofList_eq_insertAll, SortedMap.insertAll_cons,
    SortedMap.insertAll_nil, SortedMap.find?_insert, SortedMap.find?_empty]

section
variable (key : ItemKey) (p : Pointer)

@[simp] theorem key_item : (item key p).key = .ok key := by
  simp +decide [Item.key, Item.text?, find?_item, Json.string?]

@[simp] theorem text?_item_kind : (item key p).text? Attribute.kind = some Key.pointerCode := by
  simp +decide [Item.text?, find?_item, Json.string?]

@[simp] theorem text?_item_tagIndex : (item key p).text? Attribute.tagIndex = none := by
  simp +decide [Item.text?, find?_item]

@[simp] theorem text?_item_parent : (item key p).text? Attribute.parent = none := by
  simp +decide [Item.text?, find?_item]

@[simp] theorem ofItem_item (key' : ItemKey) : ofItem key' (item key p) = .ok p := by
  simp +decide [ofItem, Item.text?, find?_item, Json.string?]

end

theorem item_inj {key : ItemKey} {p q : Pointer} (h : item key p = item key q) : p = q := by
  have hread := congrArg (ofItem key) h
  rw [ofItem_item, ofItem_item] at hread
  exact Except.ok.inj hread

end Pointer

theorem ResourceType.check_spec {t : ResourceType} (h : t.check = .ok ()) :
    isCode t.code = true ∧ t.code ∉ internalCodes ∧
      (∀ f ∈ t.searchable, Key.hasDelimiter f = false) ∧ ∀ f ∈ t.parentFields, f ∈ t.searchable := by
  unfold check at h
  simp only [bind, Except.bind, pure, Except.pure, throw, throwThe, MonadExceptOf.throw] at h
  split at h
  · cases h
  next hcode =>
    split at h
    · cases h
    next hinternal =>
      split at h
      · cases h
      next hplain =>
        split at h
        · cases h
        next hparent =>
          refine ⟨by simpa using hcode, hinternal, fun f hf => ?_, fun f hf => ?_⟩
          · simpa using List.find?_eq_none.mp (Option.eq_none_iff_forall_ne_some.mpr hplain) f hf
          · simpa using List.find?_eq_none.mp (Option.eq_none_iff_forall_ne_some.mpr hparent) f hf

theorem ResourceType.not_hasDelimiter_of_isCode {code : String} (h : isCode code = true) :
    Key.hasDelimiter code = false := by
  simp only [isCode, Bool.and_eq_true, List.all_eq_true] at h
  rw [Key.hasDelimiter_eq_false_iff]
  intro hd
  have hc := h.2 _ hd
  revert hc
  decide

namespace Catalog

def Has (c : Catalog) (t : ResourceType) : Prop := c.types.find? t.code = some t

/-- What registering types ensures. -/
structure Checked (c : Catalog) : Prop where
  code : ∀ code t, c.types.find? code = some t → t.code = code
  checked : ∀ t, c.Has t → t.check = .ok ()

/-- A catalog that was checked, and where no searchable field is kept in the tag of newest children nor a
pointer in the partition of a code with a delimiter. -/
structure Sound (c : Catalog) : Prop extends Checked c where
  unflagged : ∀ t, c.Has t → ∀ field ∈ t.searchable, Key.reserved field ≠ Key.latestTag
  plain : ∀ t v, c.Has t → t.versioning = some v → Key.hasDelimiter v.parentCode = false

/-- Whether no pointer can stand where the resource's canonical item does. It could only for one type:
one whose resources are the newest children of each other. -/
def Apart (c : Catalog) (code id : String) : Prop :=
  id ≠ Key.latestMark ∨ ∀ t v, c.Has t → t.code = code → t.versioning = some v → v.parentCode ≠ code

namespace Checked
variable {c : Catalog} (hc : c.Checked) {t : ResourceType} (ht : c.Has t)
include hc ht

theorem hasDelimiter_code : Key.hasDelimiter t.code = false :=
  ResourceType.not_hasDelimiter_of_isCode (ResourceType.check_spec (hc.checked t ht)).1

theorem code_ne_tagCode : t.code ≠ Key.tagCode := by
  intro h
  have hinternal := (ResourceType.check_spec (hc.checked t ht)).2.1
  rw [h] at hinternal
  exact hinternal (by decide)

theorem code_ne_pointerCode : t.code ≠ Key.pointerCode := by
  intro h
  have hinternal := (ResourceType.check_spec (hc.checked t ht)).2.1
  rw [h] at hinternal
  exact hinternal (by decide)

theorem hasDelimiter_searchable {field : String} (hf : field ∈ t.searchable) :
    Key.hasDelimiter field = false :=
  (ResourceType.check_spec (hc.checked t ht)).2.2.1 field hf

end Checked

theorem Has.eq_of_code {c : Catalog} {t t' : ResourceType} (ht : c.Has t) (ht' : c.Has t')
    (h : t.code = t'.code) : t = t' := by
  unfold Has at ht ht'
  rw [h, ht'] at ht
  exact (Option.some.inj ht).symm

theorem Checked.has {c : Catalog} (hc : c.Checked) {code : String} {t : ResourceType}
    (h : c.types.find? code = some t) : c.Has t := by
  rw [Has, hc.code code t h]
  exact h

theorem standard_types {code : String} {t : ResourceType} (h : standard.types.find? code = some t) :
    (t = group ∨ t = region ∨ t = polygon ∨ t = state) ∧ t.code = code := by
  rw [← SortedMap.mem_entries_iff] at h
  have hentries : standard.types.entries =
      [("g", group), ("p", polygon), ("r", region), ("s", state)] := by decide
  rw [hentries] at h
  simp only [List.mem_cons, Prod.mk.injEq, List.not_mem_nil, or_false] at h
  rcases h with ⟨rfl, rfl⟩ | ⟨rfl, rfl⟩ | ⟨rfl, rfl⟩ | ⟨rfl, rfl⟩ <;> simp +decide

/-- Of the standard types, only states are versioned. -/
theorem eq_state_of_versioning {t : ResourceType} (h : standard.Has t) {v : Versioning}
    (hv : t.versioning = some v) : t = state ∧ v = ⟨"p", "polygonId", "timestamp"⟩ := by
  rcases (standard_types h).1 with rfl | rfl | rfl | rfl <;> cases hv
  exact ⟨rfl, rfl⟩

theorem state_childless {t : ResourceType} (ht : standard.Has t) : t.linksTo state.code = [] := by
  rcases (standard_types ht).1 with rfl | rfl | rfl | rfl <;> decide

theorem standard_sound : standard.Sound := by
  refine ⟨⟨fun code t h => (standard_types h).2, fun t h => ?_⟩, fun t h => ?_, fun t v h hv => ?_⟩
  · rcases (standard_types h).1 with rfl | rfl | rfl | rfl <;> rfl
  · rcases (standard_types h).1 with rfl | rfl | rfl | rfl <;> decide
  · obtain ⟨rfl, rfl⟩ := eq_state_of_versioning h hv
    decide

/-- The catalogs that come of none or of the standard one by registering types. -/
inductive Registered : Catalog → Prop where
  | empty : Registered .empty
  | standard : Registered .standard
  | register {c c' : Catalog} {t : ResourceType} (h : Registered c) (hadd : c.register t = .ok c') :
    Registered c'

theorem Registered.checked {c : Catalog} (h : c.Registered) : c.Checked := by
  induction h with
  | empty => exact ⟨nofun, nofun⟩
  | standard => exact standard_sound.toChecked
  | @register c c' t h hadd ih =>
    obtain ⟨_, hcheck, hadd⟩ := Outcome.bind_eq_ok_iff.mp hadd
    cases hadd
    refine ⟨fun code t' ht' => ?_, fun t' ht' => ?_⟩
    · rw [SortedMap.find?_insert] at ht'
      split at ht'
      next hcode =>
        cases ht'
        exact hcode.symm
      next => exact ih.code code t' ht'
    · rw [Has, SortedMap.find?_insert] at ht'
      split at ht'
      next hcode =>
        cases ht'
        exact hcheck
      next => exact ih.checked t' ht'

/-- No state is the newest child of a state. -/
theorem standard_apart (code id : String) : standard.Apart code id := by
  refine .inr fun t v ht hcode hv => ?_
  obtain ⟨rfl, rfl⟩ := eq_state_of_versioning ht hv
  rw [← hcode]
  decide

end Catalog

/-- What is stored of a resource. -/
structure Entry where
  fields : Item
  tags : Tags
  audit : Resource.Audit

/-- The resource that an entry is for. -/
def Entry.resource (e : Entry) (t : ResourceType) (id : String) : Resource :=
  ⟨id, t.code, e.fields, e.tags, e.audit.createdAt, e.audit.createdBy, e.audit.updated.map Prod.fst,
    e.audit.updated.map Prod.snd, []⟩

/-- The tags of a resource, those included that are kept for its fields. -/
def Entry.allTags (e : Entry) (t : ResourceType) : Tags :=
  e.tags.insertAll (Resource.reservedTags t e.fields)

/-- What a store's items stand for: resources by their codes and ids, and pointers by the codes of
children and the ids of their parents. -/
structure Registry where
  entries : String → String → Option Entry
  pointers : String → String → Option Pointer

namespace Registry

def empty : Registry := ⟨fun _ _ => none, fun _ _ => none⟩

/-- Whether the pointer of a resource's parent names it. -/
def isNewest (r : Registry) (t : ResourceType) (id : String) : Bool :=
  (r.entries t.code id).any fun e => t.versioning.any fun v =>
    match Resource.standing v e.fields with
    | .ok (parentId, _) => (r.pointers t.code parentId).any fun p => p.child = id
    | .error _ => false

/-- The value of a resource's tag. -/
def tag? (r : Registry) (t : ResourceType) (id name : String) : Option String :=
  if name = Key.latestTag then if r.isNewest t id then some Key.latestValue else none
  else (r.entries t.code id).bind fun e => (e.allTags t).find? name

/-- The canonical item of a resource. -/
def canonical? (r : Registry) (t : ResourceType) (id : String) : Option Item :=
  (r.entries t.code id).bind fun e => (Resource.canonicalItem t id e.fields e.audit).toOption

end Registry

/-- An entry that could have been written: its fields and tags are well named, it has its place among its
parent's children, and its parent is there. -/
structure Entry.Sound (r : Registry) (t : ResourceType) (e : Entry) : Prop where
  fields : Checks.Unmanaged e.fields
  tags : ∀ name value, e.tags.find? name = some value → Checks.tagName name = .ok ()
  standing : ∀ v, t.versioning = some v →
    ∃ parentId ordering, Resource.standing v e.fields = .ok (parentId, ordering)
  parent : ∀ link, t.parent = some link → ∃ parentId,
    Checks.requiredText e.fields link.field = .ok parentId ∧ (r.entries link.code parentId).isSome

/-- An entry with times that can be read back. -/
structure Entry.Legible (e : Entry) : Prop where
  created : Rfc3339.read (Resource.storedTime e.audit.createdAt) = .ok e.audit.createdAt
  updated : ∀ u ∈ e.audit.updated, Rfc3339.read (Resource.storedTime u.1) = .ok u.1

/-- Whether every entry has some property. -/
def Registry.Every (r : Registry) (P : Entry → Prop) : Prop := ∀ code id e, r.entries code id = some e → P e

/-- Every entry is sound, and pointers are to greatest children: to one for each parent that has
children. -/
structure Registry.Sound (c : Catalog) (r : Registry) : Prop where
  entries : ∀ code id e, r.entries code id = some e →
    ∃ t, c.types.find? code = some t ∧ c.Apart code id ∧ e.Sound r t
  pointers : ∀ code parentId p, r.pointers code parentId = some p →
    ∃ t v e, c.types.find? code = some t ∧ t.versioning = some v ∧
      r.entries code p.child = some e ∧ Resource.standing v e.fields = .ok (parentId, p.ordering)
  greatest : ∀ t v id e parentId ordering, c.Has t → t.versioning = some v →
    r.entries t.code id = some e → Resource.standing v e.fields = .ok (parentId, ordering) →
    ∃ p, r.pointers t.code parentId = some p ∧ ¬ p.ordering < ordering

/-- Whether a pointer is to a greatest of a parent's children but one, if there are others. -/
structure Registry.Succeeds (r : Registry) (t : ResourceType) (v : Versioning) (parentId gone : String)
    (next : Option Pointer) : Prop where
  child : ∀ p, next = some p → p.child ≠ gone ∧ ∃ e, r.entries t.code p.child = some e ∧
    Resource.standing v e.fields = .ok (parentId, p.ordering)
  greatest : ∀ id e ordering, r.entries t.code id = some e → id ≠ gone →
    Resource.standing v e.fields = .ok (parentId, ordering) →
    ∃ p, next = some p ∧ ¬ p.ordering < ordering

/-- Items, by their keys, are those that a registry asks for, and no others. -/
structure Mirrors (c : Catalog) (items : ItemKey → Option Item) (r : Registry) : Prop where
  canonical : ∀ t id, c.Has t → c.Apart t.code id →
    items ⟨Key.resource t.code id, Key.resource t.code id⟩ = r.canonical? t id
  tags : ∀ t id name, c.Has t → items (Tag.key (Key.resource t.code id) name) =
    (r.tag? t id name).map (Tag.item (Key.resource t.code id) name)
  pointers : ∀ t v parentId, c.Has t → t.versioning = some v →
    items (Pointer.key t.code v parentId) =
      (r.pointers t.code parentId).map (Pointer.item (Pointer.key t.code v parentId))
  only : ∀ key item, items key = some item →
    (∃ t id, c.Has t ∧ c.Apart t.code id ∧ key = ⟨Key.resource t.code id, Key.resource t.code id⟩) ∨
    (∃ t id name, c.Has t ∧ key = Tag.key (Key.resource t.code id) name) ∨
    ∃ t v parentId, c.Has t ∧ t.versioning = some v ∧ key = Pointer.key t.code v parentId

end TagStore
