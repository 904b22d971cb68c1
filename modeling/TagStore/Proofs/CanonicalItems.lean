import TagStore.Proofs.KeyParts
import TagStore.Proofs.Lookup
import TagStore.Proofs.Outcome
import TagStore.Resource.Items
import TagStore.Version.Pointer

namespace TagStore

namespace Checks

/-- Whether all fields have names that users may give them. -/
def Unmanaged (fields : Item) : Prop :=
  ∀ name value, fields.find? name = some value → isManaged name = false

end Checks

namespace Resource

theorem standing_eq_ok_iff {v : Versioning} {fields : Item} {parentId ordering : String} :
    standing v fields = .ok (parentId, ordering) ↔
      Checks.requiredText fields v.parentField = .ok parentId ∧
        ∃ text, fields.find? v.orderField = some (.string text) ∧
          Version.orderingText (.string text) = .ok ordering := by
  rw [standing, Outcome.bind_eq_ok_iff]
  constructor
  · rintro ⟨p, hp, hrest⟩
    cases hv : fields.find? v.orderField with
    | none => simp [hv, throw, throwThe, MonadExceptOf.throw] at hrest
    | some value =>
      rw [hv] at hrest
      obtain ⟨o, ho, hpair⟩ := Outcome.bind_eq_ok_iff.mp hrest
      cases hpair
      cases value with
      | string text => exact ⟨hp, text, rfl, ho⟩
      | _ => cases ho
  · rintro ⟨hp, text, ht, ho⟩
    exact ⟨parentId, hp, by simp [ht, ho, bind, Except.bind, pure, Except.pure]⟩

/-- The attributes that a canonical item has besides its fields. -/
def marks (t : ResourceType) (id : String) (audit : Audit) (place : List (String × String)) :
    List (String × Json) :=
  [(Attribute.partition, .string (Key.resource t.code id)),
    (Attribute.sort, .string (Key.resource t.code id)),
    (Attribute.kind, .string t.code), (Attribute.id, .string id)] ++
  audit.attributes ++ place.map fun (name, value) => (name, .string value)

theorem canonicalItem_eq_ok_iff {t : ResourceType} {id : String} {fields : Item} {audit : Audit}
    {item : Item} : canonicalItem t id fields audit = .ok item ↔
      ∃ place, placement t fields = .ok place ∧ fields.insertAll (marks t id audit place) = item := by
  rw [canonicalItem, Outcome.bind_eq_ok_iff]
  simp only [pure, Except.pure, Except.ok.injEq]
  rfl

theorem placement_cases {t : ResourceType} {fields : Item} {place : List (String × String)}
    (h : placement t fields = .ok place) :
    t.versioning = none ∧ place = [] ∨ ∃ v parentId ordering, t.versioning = some v ∧
      standing v fields = .ok (parentId, ordering) ∧
      place = Version.placement t.code v parentId ordering := by
  unfold placement at h
  split at h
  · cases h
    exact .inl ⟨by assumption, rfl⟩
  next v hv =>
    obtain ⟨⟨parentId, ordering⟩, hs, hp⟩ := Outcome.bind_eq_ok_iff.mp h
    cases hp
    exact .inr ⟨v, parentId, ordering, hv, hs, rfl⟩

theorem isManaged_of_mem_marks {t : ResourceType} {id : String} {fields : Item} {audit : Audit}
    {place : List (String × String)} (h : placement t fields = .ok place) {e : String × Json}
    (he : e ∈ marks t id audit place) : Checks.isManaged e.1 = true := by
  have hplace : ∀ p ∈ place, Checks.isManaged p.1 = true := by
    rcases placement_cases h with ⟨_, rfl⟩ | ⟨v, parentId, ordering, _, _, rfl⟩
    · simp
    · intro p hp
      simp only [Version.placement, List.mem_cons, List.not_mem_nil, or_false] at hp
      rcases hp with rfl | rfl <;> rfl
  have haudit : ∀ p ∈ audit.attributes, Checks.isManaged p.1 = true := by
    intro p hp
    obtain ⟨createdAt, createdBy, updated⟩ := audit
    cases updated <;>
      simp only [Audit.attributes, List.cons_append, List.nil_append, List.mem_cons, List.not_mem_nil,
        or_false] at hp
    · rcases hp with rfl | rfl <;> rfl
    · rcases hp with rfl | rfl | rfl | rfl <;> rfl
  rw [marks, List.append_assoc] at he
  rcases List.mem_append.mp he with he | he
  · simp only [List.mem_cons, List.not_mem_nil, or_false] at he
    rcases he with rfl | rfl | rfl | rfl <;> rfl
  · rcases List.mem_append.mp he with he | he
    · exact haudit e he
    · obtain ⟨p, hp, rfl⟩ := List.mem_map.mp he
      exact hplace p hp

/-- No attribute is set twice. -/
theorem nodup_marks {t : ResourceType} {id : String} {fields : Item} {audit : Audit}
    {place : List (String × String)} (h : placement t fields = .ok place) :
    ((marks t id audit place).map Prod.fst).Nodup := by
  obtain ⟨createdAt, createdBy, updated⟩ := audit
  rcases placement_cases h with ⟨_, rfl⟩ | ⟨v, parentId, ordering, _, _, rfl⟩ <;> cases updated <;>
    simp only [marks, Audit.attributes, Version.placement, List.cons_append, List.nil_append,
      List.append_nil, List.map_cons, List.map_nil] <;>
    decide

section
variable {t : ResourceType} {id : String} {fields : Item} {audit : Audit} {item : Item}
  (h : canonicalItem t id fields audit = .ok item)
include h

theorem find?_canonical_of_unmanaged {name : String} (hn : Checks.isManaged name = false) :
    item.find? name = fields.find? name := by
  obtain ⟨place, hp, rfl⟩ := canonicalItem_eq_ok_iff.mp h
  apply SortedMap.find?_insertAll_of_ne
  rintro e he rfl
  rw [isManaged_of_mem_marks hp he] at hn
  cases hn

/-- The fields of a resource are what its canonical item holds that users can name. -/
theorem filter_canonical (hf : Checks.Unmanaged fields) :
    (item.filter fun name _ => !Checks.isManaged name) = fields := by
  apply SortedMap.ext_find?
  intro name
  rw [SortedMap.find?_filter]
  cases hm : Checks.isManaged name with
  | false =>
    rw [find?_canonical_of_unmanaged h hm]
    cases fields.find? name <;> rfl
  | true =>
    cases hfind : fields.find? name with
    | none => cases item.find? name <;> rfl
    | some value =>
      rw [hf name value hfind] at hm
      cases hm

theorem find?_canonical_of_mark {place : List (String × String)} (hp : placement t fields = .ok place)
    {name : String} {value : Json} (hm : (name, value) ∈ marks t id audit place) :
    item.find? name = some value := by
  obtain ⟨place', hp', rfl⟩ := canonicalItem_eq_ok_iff.mp h
  obtain rfl := Except.ok.inj (hp.symm.trans hp')
  apply SortedMap.find?_insertAll_of_mem _ hm
  intro w hw
  exact SortedMap.snd_eq_of_nodup (nodup_marks hp) hw hm

theorem text?_canonical_of_mark {place : List (String × String)} (hp : placement t fields = .ok place)
    {name value : String} (hm : (name, .string value) ∈ marks t id audit place) :
    item.text? name = some value := by
  rw [Item.text?, find?_canonical_of_mark h hp hm]
  rfl

/-- An attribute that is set neither by a user nor as a mark is not there. -/
theorem find?_canonical_of_not_mark (hf : Checks.Unmanaged fields) {place : List (String × String)}
    (hp : placement t fields = .ok place) {name : String} (hn : Checks.isManaged name = true)
    (hm : name ∉ (marks t id audit place).map Prod.fst) : item.find? name = none := by
  obtain ⟨place', hp', rfl⟩ := canonicalItem_eq_ok_iff.mp h
  obtain rfl := Except.ok.inj (hp.symm.trans hp')
  have hne : ∀ e ∈ marks t id audit place, e.1 ≠ name := fun e he hk =>
    hm (List.mem_map.mpr ⟨e, he, hk⟩)
  rw [SortedMap.find?_insertAll_of_ne fields hne]
  cases hv : fields.find? name with
  | none => rfl
  | some value =>
    rw [hf name value hv] at hn
    cases hn

theorem text?_canonical_of_not_mark (hf : Checks.Unmanaged fields) {place : List (String × String)}
    (hp : placement t fields = .ok place) {name : String} (hn : Checks.isManaged name = true)
    (hm : name ∉ (marks t id audit place).map Prod.fst) : item.text? name = none := by
  rw [Item.text?, find?_canonical_of_not_mark h hf hp hn hm]
  rfl

theorem text?_canonical_partition : item.text? Attribute.partition = some (Key.resource t.code id) := by
  obtain ⟨place, hp, _⟩ := canonicalItem_eq_ok_iff.mp h
  exact text?_canonical_of_mark h hp (by simp [marks])

theorem text?_canonical_sort : item.text? Attribute.sort = some (Key.resource t.code id) := by
  obtain ⟨place, hp, _⟩ := canonicalItem_eq_ok_iff.mp h
  exact text?_canonical_of_mark h hp (by simp [marks])

theorem text?_canonical_kind : item.text? Attribute.kind = some t.code := by
  obtain ⟨place, hp, _⟩ := canonicalItem_eq_ok_iff.mp h
  exact text?_canonical_of_mark h hp (by simp [marks])

theorem text?_canonical_id : item.text? Attribute.id = some id := by
  obtain ⟨place, hp, _⟩ := canonicalItem_eq_ok_iff.mp h
  exact text?_canonical_of_mark h hp (by simp [marks])

theorem key_canonical : item.key = .ok ⟨Key.resource t.code id, Key.resource t.code id⟩ := by
  rw [Item.key, text?_canonical_partition h, text?_canonical_sort h]

theorem isCanonical_canonical : isCanonical t item = true := by
  simp [isCanonical, text?_canonical_kind h, text?_canonical_partition h, text?_canonical_sort h]

theorem text?_canonical_createdAt :
    item.text? Attribute.createdAt = some (storedTime audit.createdAt) := by
  obtain ⟨place, hp, _⟩ := canonicalItem_eq_ok_iff.mp h
  exact text?_canonical_of_mark h hp (by simp [marks, Audit.attributes])

theorem text?_canonical_createdBy : item.text? Attribute.createdBy = some audit.createdBy := by
  obtain ⟨place, hp, _⟩ := canonicalItem_eq_ok_iff.mp h
  exact text?_canonical_of_mark h hp (by simp [marks, Audit.attributes])

theorem text?_canonical_place {v : Versioning} (hv : t.versioning = some v) {parentId ordering : String}
    (hs : standing v fields = .ok (parentId, ordering)) :
    item.text? Attribute.parent = some (Key.resource v.parentCode parentId) ∧
      item.text? Attribute.order = some (Key.join t.code [ordering]) := by
  have hp : placement t fields = .ok (Version.placement t.code v parentId ordering) := by
    simp [placement, hv, hs, bind, Except.bind, pure, Except.pure]
  exact ⟨text?_canonical_of_mark h hp (by simp [marks, Version.placement]),
    text?_canonical_of_mark h hp (by simp [marks, Version.placement])⟩

variable (hf : Checks.Unmanaged fields)
include hf

theorem text?_canonical_tagIndex : item.text? Attribute.tagIndex = none := by
  obtain ⟨place, hp, _⟩ := canonicalItem_eq_ok_iff.mp h
  apply text?_canonical_of_not_mark h hf hp rfl
  obtain ⟨createdAt, createdBy, updated⟩ := audit
  rcases placement_cases hp with ⟨_, rfl⟩ | ⟨v, parentId, ordering, _, _, rfl⟩ <;> cases updated <;>
    simp only [marks, Audit.attributes, Version.placement, List.cons_append, List.nil_append,
      List.append_nil, List.map_cons, List.map_nil] <;>
    decide

theorem text?_canonical_updated :
    item.text? Attribute.updatedAt = audit.updated.map (fun u => storedTime u.1) ∧
      item.text? Attribute.updatedBy = audit.updated.map Prod.snd := by
  obtain ⟨place, hp, _⟩ := canonicalItem_eq_ok_iff.mp h
  obtain ⟨createdAt, createdBy, updated⟩ := audit
  cases updated with
  | some u =>
    exact ⟨text?_canonical_of_mark h hp (by simp [marks, Audit.attributes]),
      text?_canonical_of_mark h hp (by simp [marks, Audit.attributes])⟩
  | none =>
    constructor <;> apply text?_canonical_of_not_mark h hf hp rfl <;>
      rcases placement_cases hp with ⟨_, rfl⟩ | ⟨v, parentId, ordering, _, _, rfl⟩ <;>
      simp only [marks, Audit.attributes, Version.placement, List.cons_append, List.nil_append,
        List.append_nil, List.map_cons, List.map_nil] <;>
      decide

/-- Where a resource stands among its siblings is marked as its fields have it, and not at all if it stands
nowhere. -/
theorem find?_canonical_place {place : List (String × String)} (hp : placement t fields = .ok place)
    {name : String} (hname : name = Attribute.parent ∨ name = Attribute.order) :
    item.find? name = (place.lookup name).map .string := by
  rcases placement_cases hp with ⟨_, rfl⟩ | ⟨v, parentId, ordering, _, _, rfl⟩
  · have hmanaged : Checks.isManaged name = true := by rcases hname with rfl | rfl <;> rfl
    apply find?_canonical_of_not_mark h hf hp hmanaged
    obtain ⟨createdAt, createdBy, updated⟩ := audit
    rcases hname with rfl | rfl <;> cases updated <;>
      simp only [marks, Audit.attributes, List.cons_append, List.nil_append, List.append_nil, List.map_cons,
        List.map_nil] <;>
      decide
  · rcases hname with rfl | rfl <;>
      exact find?_canonical_of_mark h hp (by simp [marks, Version.placement])

theorem text?_canonical_parent_unversioned (hv : t.versioning = none) :
    item.text? Attribute.parent = none := by
  obtain ⟨place, hp, _⟩ := canonicalItem_eq_ok_iff.mp h
  rcases placement_cases hp with ⟨_, rfl⟩ | ⟨v, _, _, hsome, _, _⟩
  · rw [Item.text?, find?_canonical_place h hf hp (.inl rfl)]
    rfl
  · rw [hv] at hsome
    cases hsome

end

end Resource

end TagStore
