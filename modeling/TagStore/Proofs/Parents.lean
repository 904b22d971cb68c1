import TagStore.Proofs.Effects
import TagStore.Proofs.Runs

namespace TagStore

namespace Memory

/-- Whether a resource with some fields is found by the ids that link it to others, and its parent is
there. -/
structure LinkedAt (c : Catalog) (m : Memory) (t : ResourceType) (id : String) (fields : Item) :
    Prop where
  named : ∀ field ∈ t.parentFields, ∃ parentId, Checks.requiredText fields field = .ok parentId
  indexed : ∀ field ∈ t.parentFields, Indexes m.items.find? t id fields field
  parent : ∀ link, t.parent = some link → ∃ parentId parentType,
    Checks.requiredText fields link.field = .ok parentId ∧
    c.types.find? link.code = some parentType ∧ (m.fieldsOf? parentType parentId).isSome = true

def Linked (c : Catalog) (m : Memory) : Prop :=
  ∀ t id fields, c.Has t → m.fieldsOf? t id = some fields → m.LinkedAt c t id fields

end Memory

namespace ResourceType

theorem mem_parentFields_iff {t : ResourceType} {field : String} : field ∈ t.parentFields ↔
    (∃ link, t.parent = some link ∧ link.field = field) ∨
      ∃ v, t.versioning = some v ∧ v.parentField = field := by
  simp [parentFields]

theorem mem_fixedFields_of_parentFields {t : ResourceType} {field : String}
    (h : field ∈ t.parentFields) : field ∈ t.fixedFields := by
  rcases mem_parentFields_iff.mp h with ⟨link, hl, rfl⟩ | ⟨v, hv, rfl⟩
  · simp [fixedFields, hl]
  · simp [fixedFields, hv]

end ResourceType

section
variable {c : Catalog} (hc : c.Checked) {clock : Instant → Prop} {m m' : Memory} (hm : m.Keeps c clock)
  (hm' : m'.Keeps c clock) {t : ResourceType} (ht : c.Has t) {id : String}
  (hothers : ∀ key, ¬ Touches t id key → m'.items.find? key = m.items.find? key)
include hc hm hm' ht hothers

/-- The fields of other resources stay as they are. -/
theorem Memory.fieldsOf?_of_ne {t' : ResourceType} (ht' : c.Has t') {i : String} (hne : ¬(t' = t ∧ i = id)) :
    m'.fieldsOf? t' i = m.fieldsOf? t' i := by
  by_cases hi : i = Key.latestMark
  · have hnone : ∀ {m : Memory}, m.Keeps c clock → m.fieldsOf? t' i = none := by
      intro m hm
      cases hf : m.fieldsOf? t' i with
      | none => rfl
      | some fields =>
        obtain ⟨_, hne, _⟩ := hm.fieldsOf?_eq_some hc ht' hf
        exact absurd hi hne
    rw [hnone hm, hnone hm']
  · rw [fieldsOf?, fieldsOf?, hm.keyed.find?_isCanonical, hm'.keyed.find?_isCanonical, hothers]
    exact fun h => hne (h.eq_of_canonical hc ht ht' hi)

/-- Links are kept by a call whose own resource is linked afterwards, and still there if others name it
for their parent. -/
theorem Memory.Linked.step (hplain : ∀ t, c.Has t → ∀ field ∈ t.searchable, Key.reserved field ≠ Key.latestTag)
    (h : m.Linked c) (hown : ∀ fields, m'.fieldsOf? t id = some fields → m'.LinkedAt c t id fields)
    (hstays : (m'.fieldsOf? t id).isSome = true ∨ ∀ t' i fields link, c.Has t' →
      m.fieldsOf? t' i = some fields → t'.parent = some link → link.code = t.code →
      Checks.requiredText fields link.field ≠ .ok id) : m'.Linked c := by
  intro t' i fields ht' hf
  by_cases hself : t' = t ∧ i = id
  · obtain ⟨rfl, rfl⟩ := hself
    exact hown fields hf
  rw [Memory.fieldsOf?_of_ne hc hm hm' ht hothers ht' hself] at hf
  obtain ⟨hnamed, hindexed, hparent⟩ := h t' i fields ht' hf
  refine ⟨hnamed, fun field hfield => ?_, fun link hl => ?_⟩
  · have hsearchable := (ResourceType.check_spec (hc.checked t' ht')).2.2.2 field hfield
    rw [Indexes, hothers]
    · exact hindexed field hfield
    · exact fun hk => hself (hk.eq_of_tag hc ht ht' (hplain t' ht' field hsearchable))
  · obtain ⟨parentId, parentType, hp, hfound, hsome⟩ := hparent link hl
    refine ⟨parentId, parentType, hp, hfound, ?_⟩
    -- The call may be on the parent itself: then it has to be there still.
    by_cases hgone : parentType = t ∧ parentId = id
    · obtain ⟨rfl, rfl⟩ := hgone
      rcases hstays with hstays | hnone
      · exact hstays
      · exact absurd hp (hnone t' i fields link ht' hf hl (hc.code _ _ hfound).symm)
    · rw [Memory.fieldsOf?_of_ne hc hm hm' ht hothers (hc.has hfound) hgone]
      exact hsome

/-- What is there stays there if the call's own resource does. -/
theorem Memory.isSome_fieldsOf? (hstored : (m'.fieldsOf? t id).isSome = true) {t' : ResourceType}
    (ht' : c.Has t') {i : String} (h : (m.fieldsOf? t' i).isSome = true) :
    (m'.fieldsOf? t' i).isSome = true := by
  by_cases hself : t' = t ∧ i = id
  · obtain ⟨rfl, rfl⟩ := hself
    exact hstored
  · rw [Memory.fieldsOf?_of_ne hc hm hm' ht hothers ht' hself]
    exact h

end

/-- A store in which resources and their parents find each other. No clock is trusted. -/
structure Memory.Intact (c : Catalog) (m : Memory) : Prop where
  keeps : m.Keeps c fun _ => True
  linked : m.Linked c

namespace Memory.Intact
variable {setup : Setup} (hc : setup.catalog.Checked)
  (hplain : ∀ t, setup.catalog.Has t → ∀ field ∈ t.searchable, Key.reserved field ≠ Key.latestTag)
  {m : Memory} (h : m.Intact setup.catalog)

theorem empty (c : Catalog) : Memory.empty.Intact c :=
  ⟨nofun, fun _ _ _ _ hf => by cases hf⟩

include h

/-- A stored resource names its parent, and the parent is stored. -/
theorem parent_stored {t : ResourceType} (ht : setup.catalog.Has t) {id : String} {fields : Item}
    (hf : m.fieldsOf? t id = some fields) {link : ParentLink} (hl : t.parent = some link) :
    ∃ parentId parentType, fields.text? link.field = some parentId ∧ parentId ≠ "" ∧
      setup.catalog.types.find? link.code = some parentType ∧
      (m.fieldsOf? parentType parentId).isSome = true := by
  obtain ⟨parentId, parentType, hp, hfound, hthere⟩ := (h.linked t id fields ht hf).parent link hl
  obtain ⟨htext, hne⟩ := Checks.requiredText_eq_ok_iff.mp hp
  exact ⟨parentId, parentType, htext, by simpa using hne, hfound, hthere⟩

theorem of_items_eq {m' : Memory} (hitems : m'.items = m.items) : m'.Intact setup.catalog := by
  obtain ⟨items, faults⟩ := m
  obtain ⟨items', faults'⟩ := m'
  cases hitems
  refine ⟨h.keeps, fun t id fields ht hf => ?_⟩
  obtain ⟨hnamed, hindexed, hparent⟩ := h.linked t id fields ht hf
  exact ⟨hnamed, hindexed, hparent⟩

include hc

/-- What is to be deleted without children is named by none that is stored. -/
theorem requiredText_ne {t : ResourceType} {id : String}
    (hchildless : Resource.checkChildless m t id (setup.catalog.children t.code) = .ok ())
    {t' : ResourceType} (ht' : setup.catalog.Has t') {i : String} {fields : Item}
    (hf : m.fieldsOf? t' i = some fields) {field : String} (hfield : field ∈ t'.linksTo t.code) :
    Checks.requiredText fields field ≠ .ok id := by
  intro hid
  apply Resource.checkChildless_complete hc h.keeps.keyed h.keeps.only hchildless ht' hfield i
  rw [(h.linked t' i fields ht' hf).indexed field (ResourceType.mem_parentFields_of_linksTo hfield),
    Resource.searchText?_of_requiredText hid]
  rfl

/-- A resource that is gone after a call that deletes one is named by none that is stored. -/
theorem text?_ne_of_deleted {code id : String} (hok : (Resource.delete setup m code id).1 = .ok ())
    {t : ResourceType} (ht : setup.catalog.Has t) {i : String} (hbefore : (m.fieldsOf? t i).isSome = true)
    (hafter : (Resource.delete setup m code id).2.fieldsOf? t i = none) {t' : ResourceType}
    (ht' : setup.catalog.Has t') {i' : String} {fields : Item} (hf : m.fieldsOf? t' i' = some fields)
    {field : String} (hfield : field ∈ t'.linksTo t.code) : fields.text? field ≠ some i := by
  rcases Resource.delete_gone hc h.keeps code id with ⟨⟨err, herr⟩, _⟩ |
    ⟨t₀, ht₀, _, hchildless, hkeeps, _, hothers⟩
  · rw [herr] at hok
    cases hok
  obtain ⟨rfl, rfl⟩ : t = t₀ ∧ i = id := Classical.byContradiction fun hne => by
    rw [Memory.fieldsOf?_of_ne hc h.keeps hkeeps ht₀ hothers ht hne] at hafter
    rw [hafter] at hbefore
    cases hbefore
  intro htext
  obtain ⟨parentId, hp⟩ := (h.linked t' i' fields ht' hf).named field
    (ResourceType.mem_parentFields_of_linksTo hfield)
  obtain ⟨hsame, _⟩ := Checks.requiredText_eq_ok_iff.mp hp
  obtain rfl := Option.some.inj (hsame.symm.trans htext)
  exact h.requiredText_ne hc hchildless ht' hf hfield hp

include hplain

theorem create {ids : Ids} (hid : ids.take.1 ≠ Key.latestMark) (now : Instant) (code : String)
    (new : NewResource) (user : String) :
    (Resource.create setup now ids m code new user).2.2.Intact setup.catalog := by
  rcases Resource.create_written hc h.keeps trivial hid code new user with
    ⟨_, hitems⟩ | ⟨t, fields, ht, rfl, hfields, hw, htags⟩
  · exact h.of_items_eq hitems
  have hstored := hw.keeps.fieldsOf?_of_stores hw.stores
  have hsome := Option.isSome_of_eq_some hstored
  refine ⟨hw.keeps, h.linked.step hc h.keeps hw.keeps ht hw.others hplain ?_ (.inl hsome)⟩
  intro fields' hf
  obtain rfl := Option.some.inj (hstored.symm.trans hf)
  obtain ⟨_, hparent⟩ := Resource.newFields_parent hc h.keeps hfields
  have hnamed : ∀ field ∈ t.parentFields, ∃ parentId, Checks.requiredText fields field = .ok parentId := by
    intro field hfield
    rcases ResourceType.mem_parentFields_iff.mp hfield with ⟨link, hl, rfl⟩ | ⟨v, hv, rfl⟩
    · obtain ⟨parentId, _, hp, _⟩ := hparent link hl
      exact ⟨parentId, hp⟩
    · obtain ⟨item, hitem, _⟩ := hw.stores.stored
      obtain ⟨parentId, ordering, hs⟩ := Resource.standing_of_canonical hitem hv
      exact ⟨parentId, (Resource.standing_eq_ok_iff.mp hs).1⟩
  refine ⟨hnamed, fun field hfield => ?_, fun link hl => ?_⟩
  · obtain ⟨parentId, hp⟩ := hnamed field hfield
    have hsearchable := (ResourceType.check_spec (hc.checked t ht)).2.2.2 field hfield
    apply htags field hsearchable (hplain t ht field hsearchable)
    rw [Resource.searchText?_of_requiredText hp]
    rfl
  · obtain ⟨parentId, parentType, hp, hfound, hthere⟩ := hparent link hl
    exact ⟨parentId, parentType, hp, hfound,
      Memory.isSome_fieldsOf? hc h.keeps hw.keeps ht hw.others hsome (hc.has hfound) hthere⟩

theorem update (now : Instant) (code id : String) (change : ResourceUpdate) (user : String) :
    (Resource.update setup now m code id change user).2.Intact setup.catalog := by
  rcases Resource.update_written hc h.keeps (fun _ _ _ _ => trivial) now code id
    change user with ⟨_, hitems⟩ | ⟨t, existing, ht, rfl, hold, hfixed, hw, htags⟩
  · exact h.of_items_eq hitems
  have hstored := hw.keeps.fieldsOf?_of_stores hw.stores
  have hsome := Option.isSome_of_eq_some hstored
  refine ⟨hw.keeps, h.linked.step hc h.keeps hw.keeps ht hw.others hplain ?_ (.inl hsome)⟩
  intro fields hf
  obtain rfl := Option.some.inj (hstored.symm.trans hf)
  obtain ⟨hnamed, hindexed, hparent⟩ := h.linked t id _ ht hold
  refine ⟨fun field hfield => ?_, fun field hfield => ?_, fun link hl => ?_⟩
  · obtain ⟨parentId, hp⟩ := hnamed field hfield
    exact ⟨parentId, Resource.requiredText_merge hfixed
      (ResourceType.mem_fixedFields_of_parentFields hfield) hp⟩
  · have hsearchable := (ResourceType.check_spec (hc.checked t ht)).2.2.2 field hfield
    exact htags field hsearchable (hindexed field hfield)
  · obtain ⟨parentId, parentType, hp, hfound, hthere⟩ := hparent link hl
    have hfield := ResourceType.mem_fixedFields_of_parentFields
      (ResourceType.mem_parentFields_iff.mpr (.inl ⟨link, hl, rfl⟩))
    exact ⟨parentId, parentType, Resource.requiredText_merge hfixed hfield hp, hfound,
      Memory.isSome_fieldsOf? hc h.keeps hw.keeps ht hw.others hsome (hc.has hfound) hthere⟩

theorem delete (code id : String) : (Resource.delete setup m code id).2.Intact setup.catalog := by
  rcases Resource.delete_gone hc h.keeps code id with ⟨_, hitems⟩ |
    ⟨t, ht, rfl, hchildless, hkeeps, hgone, hothers⟩
  · exact h.of_items_eq hitems
  refine ⟨hkeeps, h.linked.step hc h.keeps hkeeps ht hothers hplain ?_ (.inr ?_)⟩
  · intro fields hf
    rw [hgone] at hf
    cases hf
  · intro t' i fields link ht' hf hl hcode
    exact h.requiredText_ne hc hchildless ht' hf (hcode ▸ ResourceType.mem_linksTo_parent hl)

theorem run {call : Call} (hfresh : call.Fresh) : (call.run setup m).Intact setup.catalog := by
  cases call with
  | create now ids code new user => exact h.create hc hplain hfresh now code new user
  | update now code id change user => exact h.update hc hplain now code id change user
  | delete code id => exact h.delete hc hplain code id
  | inject fault => exact h.of_items_eq rfl

end Memory.Intact

/-- After any calls every resource of a type with parents names one that is stored, and a resource that is
deleted is named for its parent by none, whether as such or in the field by which newest children are
told. -/
theorem Call.runAll_parentsStored {setup : Setup} (hc : setup.catalog.Registered)
    (hplain : ∀ t, setup.catalog.Has t → "isLatest" ∉ t.searchable) {calls : List Call}
    (hfresh : ∀ call ∈ calls, call.Fresh) :
    let m := runAll setup calls
    (∀ t id fields link, setup.catalog.Has t → m.fieldsOf? t id = some fields → t.parent = some link →
      ∃ parentId parentType, fields.text? link.field = some parentId ∧ parentId ≠ "" ∧
        setup.catalog.types.find? link.code = some parentType ∧
        (m.fieldsOf? parentType parentId).isSome = true) ∧
    ∀ code id, (Resource.delete setup m code id).1 = .ok () → ∀ t i, setup.catalog.Has t →
      (m.fieldsOf? t i).isSome = true → (Resource.delete setup m code id).2.fieldsOf? t i = none →
      ∀ t' i' fields, setup.catalog.Has t' → m.fieldsOf? t' i' = some fields →
        (∀ link, t'.parent = some link → link.code = t.code → fields.text? link.field ≠ some i) ∧
        ∀ v, t'.versioning = some v → v.parentCode = t.code → fields.text? v.parentField ≠ some i := by
  have hchecked := hc.checked
  have hunflagged : ∀ t, setup.catalog.Has t → ∀ field ∈ t.searchable,
      Key.reserved field ≠ Key.latestTag := by
    intro t ht field hf hname
    obtain rfl : field = "isLatest" := Key.reserved_inj.mp hname
    exact hplain t ht hf
  intro m
  have h : m.Intact setup.catalog := by
    apply runAll_induction (fun m => m.Intact setup.catalog) (.empty _)
    exact fun m hm call hcall => hm.run hchecked hunflagged (hfresh call hcall)
  constructor
  · intro t id fields link ht hf hl
    exact h.parent_stored ht hf hl
  · intro code id hok t i ht hbefore hafter t' i' fields ht' hf
    have hnamed : ∀ field ∈ t'.linksTo t.code, fields.text? field ≠ some i := fun field hfield =>
      h.text?_ne_of_deleted hchecked hok ht hbefore hafter ht' hf hfield
    constructor
    · intro link hl hcode
      exact hnamed _ (hcode ▸ ResourceType.mem_linksTo_parent hl)
    · intro v hv hcode
      exact hnamed _ (hcode ▸ ResourceType.mem_linksTo_versioning hv)

/-- The group `a` is there for the region `b`, which can be deleted, for no polygon names it. -/
theorem Call.runAll_parentsStored_region :
    let setup : Setup := ⟨.standard, {}⟩
    let calls : List Call :=
      [.create ⟨0, 0⟩ ⟨some "a", 0⟩ "g" ⟨.ofList [("name", .string "Alps")], .empty⟩ "u",
        .create ⟨0, 0⟩ ⟨some "b", 0⟩ "r" ⟨.ofList [("groupId", .string "a")], .empty⟩ "u",
        .delete "g" "a"]
    let m := runAll setup calls
    (∀ call ∈ calls, call.Fresh) ∧
      (∃ fields parentId parentType, m.fieldsOf? Catalog.region "b" = some fields ∧
        fields.text? "groupId" = some parentId ∧ Catalog.standard.types.find? "g" = some parentType ∧
        (m.fieldsOf? parentType parentId).isSome = true) ∧
      (Resource.delete setup m "r" "b").1 = .ok () ∧
      ∀ t i fields, Catalog.standard.Has t → m.fieldsOf? t i = some fields →
        ∀ link, t.parent = some link → link.code = "r" → fields.text? link.field ≠ some "b" := by
  intro setup calls m
  have hplain : ∀ t, Catalog.standard.Has t → "isLatest" ∉ t.searchable := by
    intro t ht
    rcases (Catalog.standard_types ht).1 with rfl | rfl | rfl | rfl <;> decide
  have hfresh : ∀ call ∈ calls, call.Fresh := by
    simp [calls, Fresh, Ids.take, Key.latestMark]
  have hstandard : setup.catalog.Registered := .standard
  obtain ⟨hparents, hdeletes⟩ := runAll_parentsStored hstandard hplain hfresh
  have hregion : Catalog.standard.Has Catalog.region := rfl
  have hthere : (m.fieldsOf? Catalog.region "b").isSome = true := by decide +kernel
  have hgone : ((Resource.delete setup m "r" "b").2.fieldsOf? Catalog.region "b").isSome = false := by
    decide +kernel
  have hok : (Resource.delete setup m "r" "b").1 = .ok () := by
    have hdone : (Resource.delete setup m "r" "b").1.isOk = true := by decide +kernel
    obtain ⟨_, hanswer⟩ := Outcome.isOk_iff.mp hdone
    exact hanswer
  refine ⟨hfresh, ?_, hok, fun t i fields ht hf => ?_⟩
  · obtain ⟨fields, hf⟩ := Option.isSome_iff_exists.mp hthere
    obtain ⟨parentId, parentType, htext, _, hfound, hstored⟩ :=
      hparents _ _ fields _ hregion hf (show Catalog.region.parent = some ⟨"g", "groupId"⟩ from rfl)
    exact ⟨fields, parentId, parentType, hf, htext, hfound, hstored⟩
  · have hnone := Option.isSome_eq_false_iff.mp hgone
    exact (hdeletes "r" "b" hok Catalog.region "b" hregion hthere (Option.isNone_iff_eq_none.mp hnone)
      t i fields ht hf).1

end TagStore
