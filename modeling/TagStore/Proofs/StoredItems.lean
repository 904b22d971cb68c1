import TagStore.Proofs.Runs

namespace TagStore

/-- Whether a store's items are those that its resources ask for. -/
structure ItemsMirror (setup : Setup) (m : Memory) : Prop where
  /-- Every item is the canonical item of a stored resource, the item of one of its tags, or the pointer
  of a stored polygon. -/
  owned : ∀ key item, m.items.find? key = some item →
    (∃ t id e, setup.catalog.Has t ∧ Resource.get setup m t.code id = .ok (Entry.resource e t id) ∧
      Resource.canonicalItem t id e.fields e.audit = .ok item ∧
      key = ⟨Key.resource t.code id, Key.resource t.code id⟩) ∨
    (∃ t id s name value, setup.catalog.Has t ∧ Resource.get setup m t.code id = .ok s ∧
      item = Tag.item (Key.resource t.code id) name value ∧
      key = Tag.key (Key.resource t.code id) name) ∨
    ∃ polygonId s p, Resource.get setup m "p" polygonId = .ok s ∧ item = Pointer.item key p ∧
      key = ⟨Key.resource "p" polygonId, Key.pointerSort "s"⟩
  /-- The tags of a resource are those that its users see and those of its searchable fields. -/
  tags : ∀ t id s, setup.catalog.Has t → Resource.get setup m t.code id = .ok s →
    ∀ name, name ≠ Key.latestTag → ∀ item,
      m.items.find? (Tag.key (Key.resource t.code id) name) = some item ↔
        ∃ value, item = Tag.item (Key.resource t.code id) name value ∧
          (s.tags.find? name = some value ∨ ∃ field ∈ t.searchable, name = Key.reserved field ∧
            (s.fields.find? field).bind Resource.scalarText? = some value)
  /-- Only states may have the tag of newest children. -/
  latest : ∀ t id, setup.catalog.Has t → m.items.find? (Version.latestKey t.code id) = none ∨
    t = Catalog.state ∧ m.items.find? (Version.latestKey t.code id) = some (Version.latestItem t.code id)

namespace Holds
variable {settings : Settings} {m : Memory} {r : Registry} (h : Holds Catalog.standard m r)
include h

/-- The polygon of a pointer is there, for a state that names it is. -/
theorem polygon_of_pointer {t : ResourceType} (ht : Catalog.standard.Has t) {v : Versioning}
    (hv : t.versioning = some v) {parentId : String} {p : Pointer}
    (hp : r.pointers t.code parentId = some p) : ∃ e, r.entries "p" parentId = some e := by
  obtain ⟨e, he, hs⟩ := h.sound.pointee ht hv hp
  obtain ⟨rfl, rfl⟩ := Catalog.eq_state_of_versioning ht hv
  obtain ⟨polygonId, hid, hsome⟩ := (h.sound.entry ht he).2.parent ⟨"p", "polygonId"⟩ rfl
  obtain rfl := Except.ok.inj ((Resource.standing_eq_ok_iff.mp hs).1.symm.trans hid)
  exact Option.isSome_iff_exists.mp hsome

theorem itemsMirror : ItemsMirror ⟨.standard, settings⟩ m := by
  have hc := Catalog.standard_sound
  have hget : ∀ {t id e}, Catalog.standard.Has t → r.entries t.code id = some e →
      Resource.get ⟨.standard, settings⟩ m t.code id = .ok (e.resource t id) := fun ht he =>
    Resource.get_some h hc ht he
  refine ⟨fun key item hf => ?_, fun t id s ht hs name hname item => ?_, fun t id ht => ?_⟩
  · rcases h.item_cases hf with ⟨t, id, e, ht, he, hi, rfl⟩ | ⟨t, id, name, value, ht, hv, rfl, rfl⟩ |
      ⟨t, v, parentId, p, ht, hv, hp, rfl, rfl⟩
    · exact .inl ⟨t, id, e, ht, hget ht he, hi, rfl⟩
    · obtain ⟨e, he⟩ := h.sound.entry_of_tag? hc ht hv
      exact .inr (.inl ⟨t, id, _, name, value, ht, hget ht he, rfl, rfl⟩)
    · obtain ⟨e, he⟩ := h.polygon_of_pointer ht hv hp
      obtain ⟨rfl, rfl⟩ := Catalog.eq_state_of_versioning ht hv
      have hpolygon : Catalog.standard.Has Catalog.polygon := rfl
      exact .inr (.inr ⟨parentId, _, p, hget hpolygon he, rfl, rfl⟩)
  · obtain ⟨t', e, ht', he, rfl⟩ := Resource.get_eq_ok h hc hs
    obtain rfl := Option.some.inj (ht.symm.trans ht')
    have hsound := (h.sound.entry ht he).2
    rw [h.mirrors.tags t id name ht, Option.map_eq_some_iff]
    constructor
    · rintro ⟨value, hv, rfl⟩
      refine ⟨value, rfl, ?_⟩
      rcases (h.sound.tag?_eq_some_iff hc ht).mp hv with ⟨hlatest, _⟩ | ⟨e', he', hf⟩
      · exact absurd hlatest hname
      · obtain rfl := Option.some.inj (he.symm.trans he')
        exact (Entry.find?_allTags hsound.tags).mp hf
    · rintro ⟨value, rfl, hv⟩
      refine ⟨value, (h.sound.tag?_eq_some_iff hc ht).mpr (.inr ⟨e, he, ?_⟩), rfl⟩
      exact (Entry.find?_allTags hsound.tags).mpr hv
  · rw [Version.latestKey, h.mirrors.tags t id _ ht, Registry.tag?, if_pos rfl]
    split
    next hnewest =>
      cases hv : t.versioning with
      | none =>
        rw [Registry.isNewest_unversioned hv] at hnewest
        cases hnewest
      | some v => exact .inr ⟨(Catalog.eq_state_of_versioning ht hv).1, rfl⟩
    · exact .inl rfl

end Holds

/-- Whatever calls are made, items and resources go on to mirror each other. -/
theorem Call.runAll_itemsMirror (settings : Settings) {calls : List Call}
    (htimely : ∀ call ∈ calls, call.Timely) :
    ItemsMirror ⟨.standard, settings⟩ (runAll ⟨.standard, settings⟩ calls) := by
  obtain ⟨r, h⟩ := @runAll_holds ⟨.standard, settings⟩ Catalog.standard_sound Catalog.standard_apart
    calls htimely
  exact h.itemsMirror

theorem Call.runAll_itemsMirror_of_group :
    let calls : List Call :=
      [.create ⟨0, 0⟩ ⟨some "a", 0⟩ "g" ⟨.ofList [("name", .string "Alps")], .ofList [("area", "wide")]⟩ "u",
        .inject .conflict, .delete "g" "b", .update ⟨1, 0⟩ "g" "a" ⟨.ofList [("name", .null)], .empty⟩ "u"]
    (∀ call ∈ calls, call.Timely) ∧ ItemsMirror ⟨.standard, {}⟩ (runAll ⟨.standard, {}⟩ calls) := by
  intro calls
  have htimely : ∀ call ∈ calls, call.Timely := by
    simp only [calls, List.forall_mem_cons, List.not_mem_nil, false_implies, implies_true, and_true]
    exact ⟨⟨by decide, by decide, by decide⟩, trivial, trivial, by decide, by decide, by decide⟩
  exact ⟨htimely, runAll_itemsMirror {} htimely⟩

end TagStore
