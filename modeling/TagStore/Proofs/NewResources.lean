import TagStore.Proofs.ListWalks

namespace TagStore

namespace Registry
variable {c : Catalog} {r r' : Registry} {t : ResourceType} {id : String} {e : Entry}

/-- A new resource comes with its parent's pointer set to it, unless it is older than the newest child. -/
theorem enlist_pointers (r : Registry) (t : ResourceType) (id : String) (e : Entry) :
    (r.enlist t id e).pointers = r.pointers ∨
      ∃ v parentId ordering, t.versioning = some v ∧ Resource.standing v e.fields = .ok (parentId, ordering) ∧
        (∀ p, r.pointers t.code parentId = some p → ¬ ordering < p.ordering) ∧
        (r.enlist t id e).pointers = (r.setPointer t.code parentId (some ⟨id, ordering⟩)).pointers := by
  rcases r.enlist_cases t id e with ⟨heq, _⟩ | ⟨v, parentId, ordering, hv, hs, hnewer, heq⟩
  · left
    rw [heq, pointers_setEntry]
  · refine .inr ⟨v, parentId, ordering, hv, hs, hnewer, ?_⟩
    rw [heq]
    rfl

/-- A tag of a resource whose entry stays can only go if it is that of a newest child. -/
theorem tag?_of_entry (he : r'.entries t.code id = r.entries t.code id) {name value : String}
    (h : r.tag? t id name = some value) : r'.tag? t id name = some value ∨
      name = Key.latestTag ∧ r.isNewest t id = true ∧ r'.isNewest t id = false := by
  unfold tag? at h ⊢
  by_cases hname : name = Key.latestTag
  · rw [if_pos hname] at h ⊢
    cases hnewest : r.isNewest t id with
    | false =>
      rw [hnewest] at h
      cases h
    | true =>
      rw [hnewest] at h
      cases hnewest' : r'.isNewest t id with
      | false => exact .inr ⟨hname, rfl, rfl⟩
      | true => exact .inl h
  · rw [if_neg hname] at h ⊢
    exact .inl (he.symm ▸ h)

/-- Setting a pointer takes the tag of the newest child only from the child that it named. -/
theorem named_of_flag_lost {t' : ResourceType} (he : r'.entries t.code id = r.entries t.code id)
    {parentId : String} {new : Option Pointer}
    (hpointers : r'.pointers = (r.setPointer t'.code parentId new).pointers)
    (h : r.isNewest t id = true) (h' : r'.isNewest t id = false) :
    t.code = t'.code ∧ ∃ p, r.pointers t'.code parentId = some p ∧ p.child = id := by
  cases hv : t.versioning with
  | none =>
    rw [isNewest_unversioned hv] at h
    cases h
  | some v =>
    obtain ⟨e, pid, ordering, p, hentry, hs, hp, hid⟩ := (isNewest_iff hv).mp h
    by_cases hself : t.code = t'.code ∧ pid = parentId
    · obtain ⟨hcode, rfl⟩ := hself
      exact ⟨hcode, p, hcode ▸ hp, hid⟩
    · have hkept : r'.isNewest t id = true := by
        refine (isNewest_iff hv).mpr ⟨e, pid, ordering, p, he.trans hentry, hs, ?_, hid⟩
        rw [hpointers, pointers_setPointer_of_ne _ _ _ _ hself, hp]
      rw [hkept] at h'
      cases h'

end Registry

/-- What a new child that becomes the newest one changes of what was there: the pointer of its parent, and
the tag of the child that it named. -/
inductive Resource.Supersedes (m m' : Memory) (t : ResourceType) (new : Resource) : ItemKey → Prop where
  | pointer {v : Versioning} {parentId ordering : String} {old : Pointer} (hv : t.versioning = some v)
    (hs : standing v new.fields = .ok (parentId, ordering))
    (hold : Pointer.find? m (Pointer.key t.code v parentId) = .ok (some old))
    (hnewer : ¬ ordering < old.ordering)
    (hset : m'.items.find? (Pointer.key t.code v parentId) =
      some (Pointer.item (Pointer.key t.code v parentId) ⟨new.id, ordering⟩)) :
    Supersedes m m' t new (Pointer.key t.code v parentId)
  | flag {v : Versioning} {parentId ordering : String} {old : Pointer} (hv : t.versioning = some v)
    (hs : standing v new.fields = .ok (parentId, ordering))
    (hold : Pointer.find? m (Pointer.key t.code v parentId) = .ok (some old))
    (hnewer : ¬ ordering < old.ordering)
    (hgone : m'.items.find? (Version.latestKey t.code old.child) = none) :
    Supersedes m m' t new (Version.latestKey t.code old.child)

namespace Holds
variable {c : Catalog} (hapart : ∀ code id, c.Apart code id) {m m' : Memory}
  {r : Registry} (h : Holds c m r) {t : ResourceType} (ht : c.Has t) {id : String} {e : Entry}
  (hnone : r.entries t.code id = none) (h' : Holds c m' (r.enlist t id e))
include hapart h ht hnone h'

/-- Whatever was stored before a resource came is stored still, unless the resource supersedes it. -/
theorem enlist_frame {key : ItemKey} {item : Item} (hf : m.items.find? key = some item) :
    m'.items.find? key = some item ∨ Resource.Supersedes m m' t (e.resource t id) key := by
  have hentries : ∀ t' id', c.Has t' → (r.entries t'.code id').isSome →
      (r.enlist t id e).entries t'.code id' = r.entries t'.code id' := by
    intro t' id' ht' hsome
    refine r.entries_enlist_of_ne ?_
    rintro ⟨hcode, rfl⟩
    rw [hcode, hnone] at hsome
    cases hsome
  rcases h.item_cases hf with ⟨t', id', e', ht', he', hi, rfl⟩ |
    ⟨t', id', name, value, ht', htag, rfl, rfl⟩ | ⟨t', v', parentId', p, ht', hv', hp, rfl, rfl⟩
  · left
    rw [h'.mirrors.canonical t' id' ht' (hapart _ _)]
    exact Registry.canonical?_eq_some_iff.mpr ⟨e', (hentries t' id' ht' (he' ▸ rfl)).trans he', hi⟩
  · have he' : (r.entries t'.code id').isSome := by
      cases he' : r.entries t'.code id' with
      | none =>
        rw [Registry.tag?_of_none he'] at htag
        cases htag
      | some e' => rfl
    rw [h'.mirrors.tags t' id' name ht']
    rcases Registry.tag?_of_entry (hentries t' id' ht' he') htag with hsame | ⟨rfl, hnewest, hlost⟩
    · exact .inl (by rw [hsame]; rfl)
    · right
      have hgone : m'.items.find? (Version.latestKey t'.code id') = none := by
        rw [Version.latestKey, h'.mirrors.tags t' id' Key.latestTag ht', Registry.tag?, if_pos rfl, hlost]
        rfl
      rcases r.enlist_pointers t id e with hsame | ⟨v, parentId, ordering, hv, hs, hnewer, hset⟩
      · have hkept : (r.enlist t id e).isNewest t' id' = r.isNewest t' id' := by
          unfold Registry.isNewest
          rw [hentries t' id' ht' he', hsame]
        rw [hkept, hnewest] at hlost
        cases hlost
      · obtain ⟨hcode, p, hp, rfl⟩ :=
          Registry.named_of_flag_lost (hentries t' id' ht' he') hset hnewest hlost
        obtain rfl := ht'.eq_of_code ht hcode
        have hold := h.find?_pointer ht hv parentId
        rw [hp] at hold
        exact .flag hv hs hold (hnewer p hp) hgone
  · have hfound := h'.mirrors.pointers t' v' parentId' ht' hv'
    rcases r.enlist_pointers t id e with hsame | ⟨v, parentId, ordering, hv, hs, hnewer, hset⟩
    · left
      rw [hfound, hsame, hp]
      rfl
    · by_cases hself : t'.code = t.code ∧ parentId' = parentId
      · obtain ⟨hcode, rfl⟩ := hself
        obtain rfl := ht'.eq_of_code ht hcode
        obtain rfl := Option.some.inj (hv.symm.trans hv')
        right
        have hold := h.find?_pointer ht hv parentId'
        rw [hp] at hold
        rw [hset, Registry.pointers_setPointer_self] at hfound
        exact .pointer hv hs hold (hnewer p hp) hfound
      · left
        rw [hfound, hset, Registry.pointers_setPointer_of_ne _ _ _ _ hself, hp]
        rfl

end Holds

namespace Resource

/-- Whether fields are those that were given, and the searchable ones of a parent that were not. -/
structure Completes (setup : Setup) (m : Memory) (t : ResourceType) (given fields : Item) : Prop where
  alone : t.parent = none → fields = given
  under : ∀ link, t.parent = some link → ∃ parentId parent,
    Checks.requiredText given link.field = .ok parentId ∧ get setup m link.code parentId = .ok parent ∧
    ∀ name, fields.find? name =
      (given.find? name).or (if name ∈ t.searchable then parent.fields.find? name else none)

theorem completes_of_newFields {setup : Setup} {m : Memory} {t : ResourceType} {new : NewResource}
    {fields : Item} (h : newFields setup m t new = .ok fields) : Completes setup m t new.fields fields := by
  obtain ⟨_, _, ⟨halone, rfl⟩ | ⟨link, parentId, parent, hlink, hid, hparent, rfl⟩⟩ := newFields_inv h
  · refine ⟨fun _ => rfl, fun link hlink => ?_⟩
    rw [halone] at hlink
    cases hlink
  · refine ⟨fun halone => ?_, fun link' hlink' => ?_⟩
    · rw [hlink] at halone
      cases halone
    · obtain rfl := Option.some.inj (hlink.symm.trans hlink')
      exact ⟨parentId, parent, hid, hparent, find?_inherit _ _ _⟩

/-- A resource that was created as it was asked for, and can be read back; nothing else that was stored
is changed, but for what a newest child supersedes. -/
structure Created (setup : Setup) (m m' : Memory) (t : ResourceType) (now : Instant) (new : NewResource)
    (user : String) (created : Resource) : Prop where
  code : created.code = t.code
  fields : Completes setup m t new.fields created.fields
  tags : created.tags = new.tags
  createdAt : created.createdAt = now.toMillis
  createdBy : created.createdBy = user
  updatedAt : created.updatedAt = none
  updatedBy : created.updatedBy = none
  stored : get setup m' t.code created.id = .ok created
  others : ∀ key item, m.items.find? key = some item →
    m'.items.find? key = some item ∨ Supersedes m m' t created key

end Resource

/-- A resource that is created is stored as it was asked for, and read back so. -/
theorem Call.runAll_created (settings : Settings) {calls : List Call}
    (htimely : ∀ call ∈ calls, call.Timely) {now : Instant} (hnow : Rfc3339.Readable now) (ids : Ids)
    (code : String) (new : NewResource) (user : String) :
    let setup : Setup := ⟨.standard, settings⟩
    let m := runAll setup calls
    ∀ {created : Resource} {ids' : Ids} {m' : Memory},
      Resource.create setup now ids m code new user = (.ok created, ids', m') →
      ∃ t, Catalog.standard.types.find? code = some t ∧ created.id = ids.take.1 ∧
        Resource.Created setup m m' t now new user created := by
  intro setup m created ids' m' hcreate
  have hc : setup.catalog.Sound := Catalog.standard_sound
  obtain ⟨r, h⟩ := @runAll_holds setup hc Catalog.standard_apart calls htimely
  rcases Resource.create_cases hc h hnow ids (Catalog.standard_apart code _) new user with
    ⟨⟨err, herror⟩, _⟩ | ⟨t, fields, ht, rfl, hfields, hnone, hanswer, h'⟩
  · rw [hcreate] at herror
    cases herror
  · rw [hcreate] at hanswer h'
    cases hanswer
    have hentry := Registry.entries_enlist r t ids.take.1 (Resource.fresh fields new.tags now user)
    exact ⟨t, ht, rfl, rfl, Resource.completes_of_newFields hfields, rfl, rfl, rfl, rfl, rfl,
      Resource.get_some h' hc ht hentry, fun _ _ => h.enlist_frame Catalog.standard_apart ht hnone h'⟩

/-- A second state of the polygon `c` takes over the polygon's region. -/
theorem Call.runAll_created_newerState :
    let setup : Setup := ⟨.standard, {}⟩
    let m := runAll setup toState
    let new : NewResource := ⟨.ofList [("polygonId", .string "c"), ("timestamp", .string "2024-01-02T00:00:00Z")],
      .ofList [("sky", "clear")]⟩
    (∀ call ∈ toState, call.Timely) ∧ Rfc3339.Readable ⟨4, 5000001⟩ ∧ ∃ created ids' m',
      Resource.create setup ⟨4, 5000001⟩ ⟨some "e", 0⟩ m "s" new "u" = (.ok created, ids', m') ∧
        created.createdAt = ⟨4, 5000000⟩ ∧ Resource.get setup m' "s" "e" = .ok created ∧
        Resource.Completes setup m Catalog.state new.fields created.fields := by
  intro setup m new
  have hnow : Rfc3339.Readable ⟨4, 5000001⟩ := ⟨by decide, by decide, by decide⟩
  refine ⟨timely_toState, hnow, ?_⟩
  have hok : (Resource.create setup ⟨4, 5000001⟩ ⟨some "e", 0⟩ m "s" new "u").1.isOk = true := by
    decide +kernel
  rcases hcreate : Resource.create setup ⟨4, 5000001⟩ ⟨some "e", 0⟩ m "s" new "u" with ⟨answer, ids', m'⟩
  rw [hcreate] at hok
  obtain ⟨created, rfl⟩ := Outcome.isOk_iff.mp hok
  obtain ⟨t, ht, hid, h⟩ := runAll_created {} timely_toState hnow ⟨some "e", 0⟩ "s" new "u" hcreate
  obtain rfl : Catalog.state = t := Option.some.inj ht
  have hget := h.stored
  rw [hid] at hget
  exact ⟨created, ids', m', rfl, h.createdAt, hget, h.fields⟩

end TagStore
