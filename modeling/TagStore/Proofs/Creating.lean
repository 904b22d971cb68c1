import TagStore.Proofs.Repointing
import TagStore.Proofs.SoundSteps
import TagStore.Proofs.Timestamps
import TagStore.Resource.Create

namespace TagStore

namespace Checks

theorem each_eq_ok_iff {check : String → Except Refusal Unit} {names : List String} :
    each check names = .ok () ↔ ∀ name ∈ names, check name = .ok () := by
  induction names with
  | nil => exact ⟨fun _ => nofun, fun _ => rfl⟩
  | cons n names ih =>
    rw [each, Outcome.bind_eq_ok_iff, ih, List.forall_mem_cons]
    constructor
    · rintro ⟨_, hn, hrest⟩
      exact ⟨hn, hrest⟩
    · rintro ⟨hn, hrest⟩
      exact ⟨(), hn, hrest⟩

theorem fieldName_spec {name : String} (h : fieldName name = .ok ()) : isManaged name = false := by
  cases hm : isManaged name with
  | false => rfl
  | true =>
    simp [fieldName, hm, bind, Except.bind, throw, throwThe, MonadExceptOf.throw] at h
    split at h <;> cases h

theorem requiredText_eq_ok_iff {fields : Item} {name text : String} :
    requiredText fields name = .ok text ↔ fields.text? name = some text ∧ text.isEmpty = false := by
  unfold requiredText
  cases fields.text? name with
  | none => simp
  | some s =>
    cases hs : s.isEmpty with
    | true =>
      simp only [hs, if_true, Option.some.injEq]
      constructor
      · intro h
        cases h
      · rintro ⟨rfl, he⟩
        rw [hs] at he
        cases he
    | false =>
      simp only [hs, Bool.false_eq_true, if_false, Except.ok.injEq, Option.some.injEq]
      constructor
      · rintro rfl
        exact ⟨rfl, hs⟩
      · exact fun h => h.1

end Checks

namespace Resource

theorem findType_eq_ok_iff {setup : Setup} {code : String} {t : ResourceType} :
    findType setup code = .ok t ↔ setup.catalog.types.find? code = some t := by
  rw [findType, Outcome.mapError_eq_ok_iff, Catalog.get]
  cases setup.catalog.types.find? code with
  | none => simp
  | some t' => simp

/-- Some fields with a field of a parent, unless they have it themselves. -/
def inheritField (parent fields : Item) (field : String) : Item :=
  if fields.contains field then fields
  else match parent.find? field with
    | some value => fields.insert field value
    | none => fields

theorem find?_inheritField (parent fields : Item) (field name : String) :
    (inheritField parent fields field).find? name =
      (fields.find? name).or (if name = field then parent.find? name else none) := by
  unfold inheritField
  cases hcontains : fields.contains field with
  | true =>
    rw [if_pos rfl]
    by_cases hname : name = field
    · subst hname
      obtain ⟨value, hv⟩ := Option.isSome_iff_exists.mp hcontains
      rw [hv]
      rfl
    · rw [if_neg hname, Option.or_none]
  | false =>
    have hnone := SortedMap.contains_eq_false_iff.mp hcontains
    rw [if_neg Bool.false_ne_true]
    by_cases hname : name = field
    · subst hname
      rw [if_pos rfl, hnone, Option.none_or]
      cases parent.find? name with
      | none => exact hnone
      | some value => exact SortedMap.find?_insert_self fields name value
    · rw [if_neg hname, Option.or_none]
      cases parent.find? field with
      | none => rfl
      | some value => exact SortedMap.find?_insert_of_ne fields hname value

/-- Fields that are given stay, and searchable ones that are not are taken over. -/
theorem find?_inherit (searchable : List String) (parent fields : Item) (name : String) :
    (inherit searchable parent fields).find? name =
      (fields.find? name).or (if name ∈ searchable then parent.find? name else none) := by
  induction searchable generalizing fields with
  | nil => simp [inherit]
  | cons field searchable ih =>
    have hstep : inherit (field :: searchable) parent fields =
        inherit searchable parent (inheritField parent fields field) := rfl
    rw [hstep, ih, find?_inheritField, Option.or_assoc]
    congr 1
    by_cases hname : name = field
    · cases parent.find? name <;> simp [hname]
    · simp [hname]

theorem unmanaged_inherit (searchable : List String) {parent fields : Item}
    (hparent : Checks.Unmanaged parent) (hfields : Checks.Unmanaged fields) :
    Checks.Unmanaged (inherit searchable parent fields) := by
  intro name value hv
  rw [find?_inherit] at hv
  cases hf : fields.find? name with
  | some x => exact hfields name x hf
  | none =>
    rw [hf, Option.none_or] at hv
    split at hv
    · exact hparent name value hv
    · cases hv

theorem requiredText_inherit (searchable : List String) (parent : Item) {fields : Item}
    {field value : String} (h : Checks.requiredText fields field = .ok value) :
    Checks.requiredText (inherit searchable parent fields) field = .ok value := by
  rw [Checks.requiredText_eq_ok_iff] at h ⊢
  obtain ⟨htext, hne⟩ := h
  refine ⟨?_, hne⟩
  unfold Item.text? at htext ⊢
  obtain ⟨x, hx, hs⟩ := Option.bind_eq_some_iff.mp htext
  rw [find?_inherit, hx]
  exact hs

/-- A resource that is read is there, and is what is read of its entry. -/
theorem get_entry {setup : Setup} {m : Memory} {r : Registry} (h : Stands setup.catalog m r)
    (hc : setup.catalog.Sound) {code id : String} {found : Resource}
    (hg : get setup m code id = .ok found) : ∃ t e, setup.catalog.types.find? code = some t ∧
      r.entries code id = some e ∧ e.ReadAs t id found := by
  obtain ⟨t, ht, hload⟩ := Outcome.bind_eq_ok_iff.mp hg
  obtain ⟨⟨items, found'⟩, hl, hfound⟩ := Outcome.bind_eq_ok_iff.mp hload
  rw [findType_eq_ok_iff] at ht
  obtain rfl := hc.code code t ht
  cases hfound
  obtain ⟨_, e, he, hread⟩ := h.load_inv hc ht hl
  exact ⟨t, e, ht, he, hread⟩

theorem get_legible {setup : Setup} {m : Memory} {r : Registry} (h : Stands setup.catalog m r)
    (hc : setup.catalog.Sound) {t : ResourceType} (ht : setup.catalog.Has t) {id : String} {e : Entry}
    (he : r.entries t.code id = some e) (hlegible : e.Legible) :
    get setup m t.code id = .ok (e.resource t id) := by
  rw [get, findType_eq_ok_iff.mpr ht]
  simp only [h.load_legible hc ht he hlegible, bind, Except.bind, pure, Except.pure]

theorem get_some {setup : Setup} {m : Memory} {r : Registry} (h : Holds setup.catalog m r)
    (hc : setup.catalog.Sound) {t : ResourceType} (ht : setup.catalog.Has t) {id : String} {e : Entry}
    (he : r.entries t.code id = some e) : get setup m t.code id = .ok (e.resource t id) :=
  get_legible h.toStands hc ht he (h.legible _ _ e he)

theorem get_eq_ok {setup : Setup} {m : Memory} {r : Registry} (h : Holds setup.catalog m r)
    (hc : setup.catalog.Sound) {code id : String} {found : Resource}
    (hg : get setup m code id = .ok found) : ∃ t e, setup.catalog.types.find? code = some t ∧
      r.entries code id = some e ∧ found = e.resource t id := by
  obtain ⟨t, e, ht, he, _⟩ := get_entry h.toStands hc hg
  obtain rfl := hc.code code t ht
  rw [get_some h hc ht he] at hg
  exact ⟨t, e, ht, he, (Except.ok.inj hg).symm⟩

/-- The fields of a new resource and its tags are well named, and it is given what it lacks of its
parent's. -/
theorem newFields_inv {σ : Type} [Store σ] {setup : Setup} {m : σ} {t : ResourceType} {new : NewResource}
    {fields : Item} (hn : newFields setup m t new = .ok fields) :
    Checks.Unmanaged new.fields ∧
      (∀ name value, new.tags.find? name = some value → Checks.tagName name = .ok ()) ∧
      (t.parent = none ∧ fields = new.fields ∨ ∃ link parentId parent, t.parent = some link ∧
        Checks.requiredText new.fields link.field = .ok parentId ∧
        get setup m link.code parentId = .ok parent ∧
        fields = inherit t.searchable parent.fields new.fields) := by
  obtain ⟨_, hfields, hn⟩ := Outcome.bind_eq_ok_iff.mp hn
  obtain ⟨_, htags, hn⟩ := Outcome.bind_eq_ok_iff.mp hn
  rw [Outcome.mapError_eq_ok_iff] at hfields htags
  refine ⟨fun name value hv => ?_, fun name value hv => ?_, ?_⟩
  · exact Checks.fieldName_spec
      (Checks.each_eq_ok_iff.mp hfields name (SortedMap.mem_keys_iff.mpr ⟨value, hv⟩))
  · exact Checks.each_eq_ok_iff.mp htags name (SortedMap.mem_keys_iff.mpr ⟨value, hv⟩)
  · cases hl : t.parent with
    | none =>
      rw [hl] at hn
      cases hn
      exact .inl ⟨rfl, rfl⟩
    | some link =>
      rw [hl] at hn
      obtain ⟨parentId, hp, hn⟩ := Outcome.bind_eq_ok_iff.mp hn
      rw [Outcome.mapError_eq_ok_iff] at hp
      obtain ⟨parent, hg, hn⟩ := Outcome.bind_eq_ok_iff.mp hn
      cases hn
      exact .inr ⟨link, parentId, parent, rfl, hp, hg, rfl⟩

/-- A field that is given is stored as it is given. -/
theorem find?_newFields {σ : Type} [Store σ] {setup : Setup} {m : σ} {t : ResourceType} {new : NewResource}
    {fields : Item} (hn : newFields setup m t new = .ok fields) {name : String} {value : Json}
    (hgiven : new.fields.find? name = some value) : fields.find? name = some value := by
  obtain ⟨_, _, ⟨_, rfl⟩ | ⟨_, _, parent, _, _, _, rfl⟩⟩ := newFields_inv hn
  · exact hgiven
  · rw [find?_inherit, hgiven, Option.some_or]

/-- The fields of a new resource and its tags are well named, and its parent is there. -/
theorem newFields_spec {setup : Setup} {m : Memory} {r : Registry} (h : Stands setup.catalog m r)
    (hc : setup.catalog.Sound) {t : ResourceType} {new : NewResource} {fields : Item}
    (hn : newFields setup m t new = .ok fields) :
    Checks.Unmanaged fields ∧
      (∀ name value, new.tags.find? name = some value → Checks.tagName name = .ok ()) ∧
      ∀ link, t.parent = some link → ∃ parentId,
        Checks.requiredText fields link.field = .ok parentId ∧
          (r.entries link.code parentId).isSome := by
  obtain ⟨hunmanaged, htagName, ⟨hl, rfl⟩ | ⟨link, parentId, parent, hl, hp, hg, rfl⟩⟩ := newFields_inv hn
  · exact ⟨hunmanaged, htagName, fun link hlink => by rw [hl] at hlink; cases hlink⟩
  · obtain ⟨t', e, ht', he, hread⟩ := get_entry h hc hg
    have hparent := (h.sound.entry (hc.has ht') ((hc.code _ _ ht').symm ▸ he)).2.fields
    rw [← hread.fields] at hparent
    refine ⟨unmanaged_inherit _ hparent hunmanaged, htagName, fun link' hlink => ?_⟩
    obtain rfl := Option.some.inj (hl.symm.trans hlink)
    exact ⟨parentId, requiredText_inherit _ _ hp, by rw [he]; rfl⟩

end Resource

namespace Registry
variable {c : Catalog} {r : Registry}

/-- Nothing is stored of a resource that is not there. -/
theorem tag?_of_none {t : ResourceType} {id : String} (he : r.entries t.code id = none) (name : String) :
    r.tag? t id name = none := by
  simp [tag?, isNewest, he]

theorem isNewest_add (hr : r.Sound c) {t : ResourceType} {id : String}
    (he : r.entries t.code id = none) (e : Option Entry) :
    (r.setEntry t.code id e).isNewest t id = false := by
  rw [Bool.eq_false_iff]
  intro hn
  cases hv : t.versioning with
  | none =>
    rw [isNewest_unversioned hv] at hn
    cases hn
  | some v =>
    obtain ⟨_, parentId, _, p, _, _, hp, rfl⟩ := (isNewest_iff hv).mp hn
    rw [pointers_setEntry] at hp
    exact hr.child_ne he hp rfl

end Registry

namespace Resource
variable {c : Catalog} (hc : c.Sound) {m : Memory} {r : Registry} (h : Stands c m r)
  {t : ResourceType} (ht : c.Has t) {id : String} (hid : c.Apart t.code id)

/-- The batch that stores a new resource, without the work for its parent's pointer. -/
def creation (t : ResourceType) (id : String) (item : Item) (e : Entry) : Batch :=
  (Batch.empty.place ⟨Key.resource t.code id, Key.resource t.code id⟩ (.put item (some .absent))).placeAll
    (Tag.puts (Key.resource t.code id) (some .absent) (e.allTags t).entries)

theorem keyed_creation {item : Item} {e : Entry}
    (hi : canonicalItem t id e.fields e.audit = .ok item) : (creation t id item e).Keyed :=
  (Batch.keyed_empty.place (.put item (some .absent)) (key_canonical hi)).placeAll Tag.key_puts

omit hc h ht hid in
theorem find?_creation {c : Catalog} (hc : c.Checked) {t : ResourceType} (ht : c.Has t) (id : String)
    (item : Item) (e : Entry) :
    (creation t id item e).find? ⟨Key.resource t.code id, Key.resource t.code id⟩ =
      some (.put item (some .absent)) := by
  rw [creation, Batch.find?_placeAll_of_ne, Batch.find?_place_self]
  intro d hd
  obtain ⟨tag, _, rfl⟩ := List.mem_map.mp hd
  exact (hc.canonicalKey_ne_tagKey ht id _ tag.1).symm

include hc h ht hid in
/-- That batch leaves the items of a registry in which the resource is there. -/
theorem mirrors_creation {item : Item} {e : Entry} (he : r.entries t.code id = none)
    (hsound : e.Sound r t) (hi : canonicalItem t id e.fields e.audit = .ok item) :
    Mirrors c ((creation t id item e).effect m.items) (r.setEntry t.code id (some e)) := by
  apply h.mirrors.setEntry hc ht hid
  · rw [Batch.effect, find?_creation hc.toChecked ht]
    exact (Registry.canonical?_eq_some_iff.mpr ⟨e, Registry.entries_setEntry_self _ _ _ _, hi⟩).symm
  · intro name
    have hne := (hc.canonicalKey_ne_tagKey ht id (Key.resource t.code id) name).symm
    rw [creation, Tag.effect_puts, Batch.effect_place, if_neg hne, Batch.effect_empty,
      h.mirrors.tags t id name ht, Registry.tag?_of_none he, Option.map_none, Option.or_none]
    by_cases hname : name = Key.latestTag
    · rw [Registry.tag?, if_pos hname, Registry.isNewest_add h.sound he, hname,
        Entry.find?_allTags_latestTag hsound.tags hc ht]
      rfl
    · rw [Registry.tag?, if_neg hname, Registry.entries_setEntry_self, Option.bind_some]
  · intro key hk hname
    rw [creation, Batch.effect_placeAll_of_ne, Batch.effect_place, if_neg hk, Batch.effect_empty]
    intro d hd
    obtain ⟨tag, _, rfl⟩ := List.mem_map.mp hd
    exact (hname tag.1).symm

include hc h ht hid in
/-- With the pointer set to it, the resource is its parent's newest child. -/
theorem mirrors_promotion {item : Item} {e : Entry} (he : r.entries t.code id = none)
    (hsound : e.Sound r t) (hi : canonicalItem t id e.fields e.audit = .ok item) {v : Versioning}
    (hv : t.versioning = some v) {parentId ordering : String}
    (hs : standing v e.fields = .ok (parentId, ordering)) (guard : Condition) :
    Mirrors c ((Version.repoint (creation t id item e) t.code (Pointer.key t.code v parentId)
        (r.pointers t.code parentId) (some ⟨id, ordering⟩) guard).effect m.items)
      ((r.setEntry t.code id (some e)).setPointer t.code parentId (some ⟨id, ordering⟩)) := by
  apply (mirrors_creation hc h ht hid he hsound hi).repoint hc ht hv
  · intro p d hpointer hd
    obtain ⟨t', v', d', ht', hv', hd', hs'⟩ := h.sound.pointers_add he (e := e) _ _ p hpointer
    obtain rfl := Option.some.inj (ht.symm.trans ht')
    obtain rfl := Option.some.inj (hv.symm.trans hv')
    obtain rfl := Option.some.inj (hd.symm.trans hd')
    exact ⟨_, hs'⟩
  · intro p hpointer
    cases hpointer
    exact ⟨_, ordering, Registry.entries_setEntry_self _ _ _ _, hs⟩

end Resource

/-- The registry once a resource has come: it becomes its parent's newest child unless it is older than
that is. -/
def Registry.enlist (r : Registry) (t : ResourceType) (id : String) (e : Entry) : Registry :=
  let r' := r.setEntry t.code id (some e)
  match t.versioning with
  | none => r'
  | some v =>
    match Resource.standing v e.fields with
    | .error _ => r'
    | .ok (parentId, ordering) =>
      if (r.pointers t.code parentId).any fun p => ordering < p.ordering then r'
      else r'.setPointer t.code parentId (some ⟨id, ordering⟩)

/-- A new resource is only added if it is older than its parent's newest child, and else it is that from then
on. -/
theorem Registry.enlist_cases (r : Registry) (t : ResourceType) (id : String) (e : Entry) :
    (r.enlist t id e = r.setEntry t.code id (some e) ∧
      ∀ v parentId ordering, t.versioning = some v → Resource.standing v e.fields = .ok (parentId, ordering) →
        ∃ p, r.pointers t.code parentId = some p ∧ ordering < p.ordering) ∨
    ∃ v parentId ordering, t.versioning = some v ∧ Resource.standing v e.fields = .ok (parentId, ordering) ∧
      (∀ p, r.pointers t.code parentId = some p → ¬ ordering < p.ordering) ∧
      r.enlist t id e =
        (r.setEntry t.code id (some e)).setPointer t.code parentId (some ⟨id, ordering⟩) := by
  unfold enlist
  cases hv : t.versioning with
  | none => exact .inl ⟨rfl, nofun⟩
  | some v =>
    dsimp only
    split
    next hs =>
      refine .inl ⟨rfl, fun v' parentId ordering hv' hs' => ?_⟩
      obtain rfl := Option.some.inj hv'
      rw [hs] at hs'
      cases hs'
    next parentId ordering hs =>
      split
      next holder =>
        refine .inl ⟨rfl, fun v' parentId' ordering' hv' hs' => ?_⟩
        obtain rfl := Option.some.inj hv'
        obtain ⟨rfl, rfl⟩ := Prod.mk.inj (Except.ok.inj (hs.symm.trans hs'))
        obtain ⟨p, hp, hlt⟩ := (Option.any_eq_true _ _).mp holder
        exact ⟨p, hp, of_decide_eq_true hlt⟩
      next holder =>
        refine .inr ⟨v, parentId, ordering, rfl, hs, fun p hp hlt => holder ?_, rfl⟩
        exact (Option.any_eq_true _ _).mpr ⟨p, hp, decide_eq_true hlt⟩

theorem Registry.entries_enlist_eq (r : Registry) (t : ResourceType) (id : String) (e : Entry) :
    (r.enlist t id e).entries = (r.setEntry t.code id (some e)).entries := by
  rcases r.enlist_cases t id e with ⟨heq, _⟩ | ⟨_, _, _, _, _, _, heq⟩
  · rw [heq]
  · rw [heq, entries_setPointer]

theorem Registry.entries_enlist (r : Registry) (t : ResourceType) (id : String) (e : Entry) :
    (r.enlist t id e).entries t.code id = some e := by
  rw [entries_enlist_eq, entries_setEntry_self]

theorem Registry.entries_enlist_of_ne (r : Registry) {t : ResourceType} {id : String} {e : Entry}
    {code' id' : String} (hne : ¬ (code' = t.code ∧ id' = id)) :
    (r.enlist t id e).entries code' id' = r.entries code' id' := by
  rw [r.entries_enlist_eq, r.entries_setEntry_of_ne _ _ _ hne]

theorem Registry.Every.enlist {r : Registry} {P : Entry → Prop} (hr : r.Every P) {t : ResourceType}
    (id : String) {e : Entry} (he : P e) : (r.enlist t id e).Every P := by
  intro code i d hd
  rw [entries_enlist_eq] at hd
  exact hr.setEntry (fun _ h => Option.some.inj h ▸ he) code i d hd

theorem Registry.Sound.enlist {c : Catalog} {r : Registry} (hr : r.Sound c) {t : ResourceType}
    (ht : c.Has t) {id : String} (hid : c.Apart t.code id) {e : Entry}
    (he : r.entries t.code id = none) (hsound : e.Sound r t) : (r.enlist t id e).Sound c := by
  rcases r.enlist_cases t id e with ⟨heq, holder⟩ | ⟨v, parentId, ordering, hv, hs, hnewer, heq⟩
  · rw [heq]
    cases hv : t.versioning with
    | none => exact hr.add_unversioned ht he hid hsound hv
    | some v =>
      obtain ⟨parentId, ordering, hs⟩ := hsound.standing v hv
      obtain ⟨p, hp, hlt⟩ := holder v parentId ordering hv hs
      exact hr.add_older ht he hid hsound hv hs hp (String.lt_asymm hlt)
  · rw [heq]
    exact hr.add_newest ht he hid hsound hv hs hnewer

namespace Resource

theorem canonicalItem_congr {t : ResourceType} {id : String} {fields : Item} {a a' : Audit}
    (h : a.attributes = a'.attributes) : canonicalItem t id fields a = canonicalItem t id fields a' := by
  unfold canonicalItem
  rw [h]

theorem standing_of_canonical {t : ResourceType} {id : String} {fields : Item} {audit : Audit}
    {item : Item} (hi : canonicalItem t id fields audit = .ok item) {v : Versioning}
    (hv : t.versioning = some v) : ∃ parentId ordering, standing v fields = .ok (parentId, ordering) := by
  obtain ⟨place, hp, _⟩ := canonicalItem_eq_ok_iff.mp hi
  rcases placement_cases hp with ⟨hnone, _⟩ | ⟨v', parentId, ordering, hv', hs, _⟩
  · rw [hv] at hnone
    cases hnone
  · obtain rfl := Option.some.inj (hv.symm.trans hv')
    exact ⟨parentId, ordering, hs⟩

/-- What is stored of a new resource. -/
def fresh (fields : Item) (tags : Tags) (now : Instant) (user : String) : Entry :=
  ⟨fields, tags, ⟨now.toMillis, user, none⟩⟩

theorem planCreate_inv {σ : Type} [Store σ] {m : σ} {t : ResourceType} {now : Instant} {id : String}
    {fields : Item} {tags : Tags} {user : String} {ops : List WriteOp}
    (hp : planCreate m t now id fields tags user = .ok ops) :
    ∃ item, canonicalItem t id fields (fresh fields tags now user).audit = .ok item ∧
      (t.versioning = none ∧ ops = (creation t id item (fresh fields tags now user)).ops ∨
        ∃ v parentId ordering b newest, t.versioning = some v ∧
          standing v fields = .ok (parentId, ordering) ∧
          Version.addChild m (creation t id item (fresh fields tags now user)) t.code v parentId
            ⟨id, ordering⟩ = .ok (b, newest) ∧ ops = Batch.ops b) := by
  obtain ⟨item, hi, hput⟩ := Outcome.bind_eq_ok_iff.mp hp
  obtain ⟨b, hb, hadd⟩ := Outcome.bind_eq_ok_iff.mp hput
  obtain ⟨b', hb', hrest⟩ := Outcome.bind_eq_ok_iff.mp hadd
  rw [Outcome.mapError_eq_ok_iff] at hi hb hb'
  rw [Batch.empty.put_eq (key_canonical hi), Except.ok.injEq] at hb
  rw [Tag.addAll_eq, Except.ok.injEq, ← hb] at hb'
  have haudit : Audit.attributes ⟨now, user, none⟩ =
      Audit.attributes (fresh fields tags now user).audit := by
    simp only [fresh, Audit.attributes, storedTime, Rfc3339.write_toMillis]
  rw [canonicalItem_congr haudit] at hi
  have hcreation : creation t id item (fresh fields tags now user) = b' := hb'
  refine ⟨item, hi, ?_⟩
  rw [hcreation]
  cases hv : t.versioning with
  | none =>
    rw [hv] at hrest
    cases hrest
    exact .inl ⟨rfl, rfl⟩
  | some v =>
    rw [hv] at hrest
    obtain ⟨⟨parentId, ordering⟩, hs, hrest⟩ := Outcome.bind_eq_ok_iff.mp hrest
    obtain ⟨⟨b'', newest⟩, hchild, hrest⟩ := Outcome.bind_eq_ok_iff.mp hrest
    rw [Outcome.mapError_eq_ok_iff] at hs hchild
    cases hrest
    exact .inr ⟨v, parentId, ordering, b'', newest, rfl, hs, hchild, rfl⟩

/-- The batches that create a resource: with the work that sets the pointer of its parent, if it becomes the
newest child. -/
inductive Creates {σ : Type} [Store σ] (m : σ) (t : ResourceType) (id : String) (item : Item) (e : Entry) :
    Batch → Prop where
  | plain : Creates m t id item e (creation t id item e)
  | newest {v : Versioning} {parentId ordering : String} {old : Option Pointer} (guard : Condition)
    (hv : t.versioning = some v) (hs : standing v e.fields = .ok (parentId, ordering))
    (hold : Pointer.find? m (Pointer.key t.code v parentId) = .ok old) :
    Creates m t id item e (Version.repoint (creation t id item e) t.code (Pointer.key t.code v parentId) old
      (some ⟨id, ordering⟩) guard)

theorem planCreate_creates {σ : Type} [Store σ] {m : σ} {t : ResourceType} {now : Instant} {id : String}
    {fields : Item} {tags : Tags} {user : String} {ops : List WriteOp}
    (hp : planCreate m t now id fields tags user = .ok ops) :
    ∃ item b, canonicalItem t id fields (fresh fields tags now user).audit = .ok item ∧ ops = Batch.ops b ∧
      b.Keyed ∧ Creates m t id item (fresh fields tags now user) b := by
  obtain ⟨item, hi, ⟨_, rfl⟩ | ⟨v, parentId, ordering, b, newest, hv, hs, hadd, rfl⟩⟩ := planCreate_inv hp
  · exact ⟨item, _, hi, rfl, keyed_creation hi, .plain⟩
  · rcases Version.addChild_inv hadd with rfl | ⟨old, guard, hold, rfl⟩
    · exact ⟨item, _, hi, rfl, keyed_creation hi, .plain⟩
    · exact ⟨item, _, hi, rfl, Version.keyed_repoint (keyed_creation hi), .newest guard hv hs hold⟩

/-- The writes of a plan are those of a batch that leaves the items of the registry in which the
resource has come, and that can only be committed where the resource is not there. -/
theorem planCreate_spec {c : Catalog} (hc : c.Sound) {m : Memory} {r : Registry} (h : Stands c m r)
    {t : ResourceType} (ht : c.Has t) {id : String} (hid : c.Apart t.code id) {now : Instant}
    {fields : Item} {tags : Tags} {user : String} {ops : List WriteOp}
    (hp : planCreate m t now id fields tags user = .ok ops) :
    ∃ (item : Item) (b : Batch),
      canonicalItem t id fields (fresh fields tags now user).audit = .ok item ∧ ops = b.ops ∧ b.Keyed ∧
      b.find? ⟨Key.resource t.code id, Key.resource t.code id⟩ = some (.put item (some .absent)) ∧
      (r.entries t.code id = none → (fresh fields tags now user).Sound r t →
        Mirrors c (b.effect m.items) (r.enlist t id (fresh fields tags now user))) := by
  obtain ⟨item, hi, hcases⟩ := planCreate_inv hp
  generalize hfresh : fresh fields tags now user = e at hi hcases
  have hfields : e.fields = fields := by rw [← hfresh]; rfl
  rw [← hfields] at hi
  have hkeyed := keyed_creation hi
  have hfind := find?_creation hc.toChecked ht id item e
  rcases hcases with ⟨hv, rfl⟩ | ⟨v, parentId, ordering, b, newest, hv, hs, hadd, rfl⟩
  · refine ⟨item, _, hfields ▸ hi, rfl, hkeyed, hfind, fun hnone hsound => ?_⟩
    rw [Registry.enlist, hv]
    exact mirrors_creation hc h ht hid hnone hsound hi
  · rw [Version.addChild_eq (h.find?_pointer ht hv parentId), Except.ok.injEq] at hadd
    rw [← hfields] at hs
    by_cases holder : (r.pointers t.code parentId).any fun p => ordering < p.ordering
    · rw [if_pos holder, Prod.mk.injEq] at hadd
      obtain ⟨rfl, _⟩ := hadd
      refine ⟨item, _, hfields ▸ hi, rfl, hkeyed, hfind, fun hnone hsound => ?_⟩
      simp only [Registry.enlist, hv, hs, if_pos holder]
      exact mirrors_creation hc h ht hid hnone hsound hi
    · rw [if_neg holder, Prod.mk.injEq] at hadd
      obtain ⟨rfl, _⟩ := hadd
      refine ⟨item, _, hfields ▸ hi, rfl, Version.keyed_repoint hkeyed, ?_, fun hnone hsound => ?_⟩
      · rw [Version.find?_repoint_of_ne, hfind]
        · exact hc.canonicalKey_ne_pointerKey ht ht hid hv parentId
        · exact fun id' => hc.canonicalKey_ne_tagKey ht id _ _
      · simp only [Registry.enlist, hv, hs, if_neg holder]
        exact mirrors_promotion hc h ht hid hnone hsound hi hv hs _

/-- Commits the writes of a plan, and answers with what is read then. -/
def carryOut {σ α : Type} [Store σ] (attempts : Nat) (s : σ) (answer : σ → Except Error α) :
    Except Error (List WriteOp) → Except Error α × σ
  | .error e => (.error e, s)
  | .ok ops =>
    match Commit.batch attempts ops s with
    | (.error e, s) => (.error e, s)
    | (.ok (), s) => (answer s, s)

/-- A batch that is carried out is committed as a whole, or no item changes. -/
theorem carryOut_cases {α : Type} (attempts : Nat) (m : Memory) (answer : Memory → Except Error α)
    {b : Batch} (hb : b.Keyed) :
    ((∃ err, (carryOut attempts m answer (.ok b.ops)).1 = .error err) ∧
      (carryOut attempts m answer (.ok b.ops)).2.items = m.items) ∨
    ∃ m', carryOut attempts m answer (.ok b.ops) = (answer m', m') ∧
      (∀ key op, b.find? key = some op → op.allowed (m.items.find? key) = true) ∧
      m'.items.find? = b.effect m.items := by
  rw [carryOut]
  rcases Commit.batch_cases attempts hb m with ⟨err, m', hcommit, hitems⟩ |
    ⟨m', hcommit, hallowed, heffect⟩
  · rw [hcommit]
    exact .inl ⟨⟨err, rfl⟩, hitems⟩
  · rw [hcommit]
    exact .inr ⟨m', rfl, hallowed, heffect⟩

/-- Whatever comes of a plan, no item changes, or its batch is applied where it was allowed. -/
theorem carryOut_effect {α : Type} (attempts : Nat) (m : Memory) (answer : Memory → Except Error α)
    {plan : Except Error (List WriteOp)} {P : Batch → Prop}
    (hplan : ∀ ops, plan = .ok ops → ∃ b, ops = Batch.ops b ∧ b.Keyed ∧ P b) :
    (carryOut attempts m answer plan).2.items = m.items ∨ ∃ b, P b ∧
      (∀ key op, b.find? key = some op → op.allowed (m.items.find? key) = true) ∧
      (carryOut attempts m answer plan).2.items.find? = b.effect m.items := by
  cases plan with
  | error err => exact .inl rfl
  | ok ops =>
    obtain ⟨b, rfl, hkeyed, hb⟩ := hplan ops rfl
    rcases carryOut_cases attempts m answer hkeyed with ⟨_, hitems⟩ | ⟨m', hok, hallowed, heffect⟩
    · exact .inl hitems
    · exact .inr ⟨b, hb, hallowed, by rw [hok, heffect]⟩

theorem commit_cases {b : Batch} (hb : b.Keyed) (setup : Setup) (m : Memory) (code id : String) :
    ((∃ err, (commit setup m code id b.ops).1 = .error err) ∧
      (commit setup m code id b.ops).2.items = m.items) ∨
    ∃ m', commit setup m code id b.ops = (get setup m' code id, m') ∧
      (∀ key op, b.find? key = some op → op.allowed (m.items.find? key) = true) ∧
      m'.items.find? = b.effect m.items :=
  carryOut_cases setup.settings.attempts m (fun m => get setup m code id) hb

/-- Only a resource that is not there can be put on that condition. -/
theorem entry_eq_none {c : Catalog} {m : Memory} {r : Registry} (h : Stands c m r) {t : ResourceType}
    (ht : c.Has t) {id : String} (hid : c.Apart t.code id) {item : Item}
    (hallowed : (WriteOp.put item (some .absent)).allowed
      (m.items.find? ⟨Key.resource t.code id, Key.resource t.code id⟩) = true) :
    r.entries t.code id = none := by
  cases he : r.entries t.code id with
  | none => rfl
  | some e =>
    obtain ⟨item', hi⟩ := Registry.canonical_of_sound (h.sound.entry ht he).2 id
    rw [h.mirrors.canonical t id ht hid, Registry.canonical?_eq_some_iff.mpr ⟨e, he, hi⟩] at hallowed
    cases hallowed

theorem fresh_sound {setup : Setup} (hc : setup.catalog.Sound) {m : Memory} {r : Registry}
    (h : Stands setup.catalog m r) {now : Instant} {t : ResourceType} {new : NewResource} {fields : Item}
    (hfields : newFields setup m t new = .ok fields) {id : String} {user : String} {item : Item}
    (hi : canonicalItem t id fields (fresh fields new.tags now user).audit = .ok item) :
    (fresh fields new.tags now user).Sound r t := by
  obtain ⟨hunmanaged, htags, hparent⟩ := newFields_spec h hc hfields
  exact ⟨hunmanaged, htags, fun v hv => standing_of_canonical hi hv, hparent⟩

theorem fresh_legible {now : Instant} (hnow : Rfc3339.Readable now) (fields : Item) (tags : Tags)
    (user : String) : (fresh fields tags now user).Legible := by
  refine ⟨?_, nofun⟩
  simp only [fresh, storedTime, Rfc3339.write_toMillis]
  exact Rfc3339.read_write_millis hnow

/-- Creating a resource either fails and changes no item, or enlists the resource and answers with what is
read of it. -/
theorem create_enlists {setup : Setup} (hc : setup.catalog.Sound) {m : Memory} {r : Registry}
    (h : Stands setup.catalog m r) (now : Instant) (ids : Ids) {code : String}
    (hid : setup.catalog.Apart code ids.take.1) (new : NewResource) (user : String) :
    ((∃ err, (create setup now ids m code new user).1 = .error err) ∧
      (create setup now ids m code new user).2.2.items = m.items) ∨
    ∃ t fields, setup.catalog.Has t ∧ t.code = code ∧ newFields setup m t new = .ok fields ∧
      r.entries code ids.take.1 = none ∧
      (create setup now ids m code new user).1 =
        get setup (create setup now ids m code new user).2.2 code ids.take.1 ∧
      Stands setup.catalog (create setup now ids m code new user).2.2
        (r.enlist t ids.take.1 (fresh fields new.tags now user)) := by
  rcases htake : ids.take with ⟨id, ids'⟩
  rw [htake] at hid
  unfold create
  simp only [htake]
  split
  next err _ => exact .inl ⟨⟨err, rfl⟩, rfl⟩
  next t fields hsound =>
    obtain ⟨t', ht', hrest⟩ := Outcome.bind_eq_ok_iff.mp hsound
    obtain ⟨fields', hfields, hpair⟩ := Outcome.bind_eq_ok_iff.mp hrest
    cases hpair
    rw [findType_eq_ok_iff] at ht'
    obtain rfl := hc.code code t ht'
    split
    next err _ => exact .inl ⟨⟨err, rfl⟩, rfl⟩
    next ops hplan =>
      obtain ⟨item, b, hi, rfl, hkeyed, hfind, hmirrors⟩ := planCreate_spec hc h ht' hid hplan
      rcases commit_cases hkeyed setup m t.code id with ⟨hfail, hitems⟩ | ⟨m', hok, hallowed, heffect⟩
      · exact .inl ⟨hfail, hitems⟩
      · have hnone := entry_eq_none h ht' hid (hallowed _ _ hfind)
        have hsound' := fresh_sound hc h hfields hi
        rw [hok]
        exact .inr ⟨t, fields, ht', rfl, hfields, hnone, rfl, h.sound.enlist ht' hid hnone hsound',
          heffect ▸ hmirrors hnone hsound'⟩

/-- Creating a resource either fails and changes no item, or enlists the resource. -/
theorem create_cases {setup : Setup} (hc : setup.catalog.Sound) {m : Memory} {r : Registry}
    (h : Holds setup.catalog m r) {now : Instant} (hnow : Rfc3339.Readable now) (ids : Ids)
    {code : String} (hid : setup.catalog.Apart code ids.take.1) (new : NewResource) (user : String) :
    ((∃ err, (create setup now ids m code new user).1 = .error err) ∧
      (create setup now ids m code new user).2.2.items = m.items) ∨
    ∃ t fields, setup.catalog.Has t ∧ t.code = code ∧ newFields setup m t new = .ok fields ∧
      r.entries code ids.take.1 = none ∧
      (create setup now ids m code new user).1 =
        .ok ((fresh fields new.tags now user).resource t ids.take.1) ∧
      Holds setup.catalog (create setup now ids m code new user).2.2
        (r.enlist t ids.take.1 (fresh fields new.tags now user)) := by
  rcases create_enlists hc h.toStands now ids hid new user with hfail |
    ⟨t, fields, ht, rfl, hfields, hnone, hanswer, h'⟩
  · exact .inl hfail
  · have hholds : Holds setup.catalog _ (r.enlist t ids.take.1 (fresh fields new.tags now user)) :=
      ⟨h', h.legible.enlist ids.take.1 (fresh_legible hnow fields new.tags user)⟩
    refine .inr ⟨t, fields, ht, rfl, hfields, hnone, ?_, hholds⟩
    rw [hanswer]
    exact get_some hholds hc ht (Registry.entries_enlist _ _ _ _)

end Resource

end TagStore
