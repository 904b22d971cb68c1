import TagStore.Proofs.Changes

namespace TagStore

/-- What is stored of a resource once it is updated. -/
def Entry.updated (e : Entry) (update : ResourceUpdate) (now : Instant) (user : String) : Entry :=
  ⟨Resource.mergeFields e.fields update.fields, e.tags.granting update.tags,
    ⟨e.audit.createdAt, e.audit.createdBy, some (now.toMillis, user)⟩⟩

namespace Resource

/-- The change of tags that an update comes to. -/
def tagChange (t : ResourceType) (e : Entry) (update : ResourceUpdate) : TagChange :=
  t.searchable.foldl (addReserved e.fields (mergeFields e.fields update.fields))
    (TagChange.ofWishes e.tags update.tags)

/-- The batch that stores an updated resource. -/
def revision (t : ResourceType) (id : String) (item : Item) (change : TagChange) : Batch :=
  (Batch.empty.place ⟨Key.resource t.code id, Key.resource t.code id⟩ (.put item (some .present))).placeAll
    (Tag.puts (Key.resource t.code id) none change.puts.entries ++
      Tag.removals (Key.resource t.code id) change.deletes)

theorem keyed_revision {t : ResourceType} {id : String} {fields : Item} {audit : Audit} {item : Item}
    (hi : canonicalItem t id fields audit = .ok item) (change : TagChange) :
    (revision t id item change).Keyed := by
  refine (Batch.keyed_empty.place (.put item (some .present)) (key_canonical hi)).placeAll ?_
  intro e he
  rcases List.mem_append.mp he with he | he
  · exact Tag.key_puts e he
  · obtain ⟨name, _, rfl⟩ := List.mem_map.mp he
    rfl

theorem find?_revision {c : Catalog} (hc : c.Checked) {t : ResourceType} (ht : c.Has t) (id : String)
    (item : Item) (change : TagChange) :
    (revision t id item change).find? ⟨Key.resource t.code id, Key.resource t.code id⟩ =
      some (.put item (some .present)) := by
  rw [revision, Batch.find?_placeAll_of_ne, Batch.find?_place_self]
  intro d hd
  have hne := fun name => (hc.canonicalKey_ne_tagKey ht id (Key.resource t.code id) name).symm
  rcases List.mem_append.mp hd with hd | hd
  · obtain ⟨tag, _, rfl⟩ := List.mem_map.mp hd
    exact hne tag.1
  · obtain ⟨name, _, rfl⟩ := List.mem_map.mp hd
    exact hne name

theorem effect_revision_of_ne {t : ResourceType} {id : String} {item : Item} {change : TagChange}
    {key : ItemKey} (hname : ∀ name, key ≠ Tag.key (Key.resource t.code id) name)
    (items : SortedMap ItemKey Item) : (revision t id item change).effect items key =
      if key = ⟨Key.resource t.code id, Key.resource t.code id⟩ then some item else items.find? key := by
  rw [revision, Batch.effect_placeAll_of_ne, Batch.effect_place, Batch.effect_empty]
  · rfl
  · intro d hd
    rcases List.mem_append.mp hd with hd | hd
    · obtain ⟨tag, _, rfl⟩ := List.mem_map.mp hd
      exact (hname tag.1).symm
    · obtain ⟨name, _, rfl⟩ := List.mem_map.mp hd
      exact (hname name).symm

theorem effect_revision_tag {t : ResourceType} {id name : String} {item : Item} {change : TagChange}
    (hne : (⟨Key.resource t.code id, Key.resource t.code id⟩ : ItemKey) ≠
      Tag.key (Key.resource t.code id) name)
    {items : SortedMap ItemKey Item} {old : Option String}
    (hold : items.find? (Tag.key (Key.resource t.code id) name) =
      old.map (Tag.item (Key.resource t.code id) name)) :
    (revision t id item change).effect items (Tag.key (Key.resource t.code id) name) =
      (change.applied name old).map (Tag.item (Key.resource t.code id) name) := by
  rw [revision, Batch.placeAll, List.foldl_append, TagChange.applied]
  change (Batch.placeAll (Batch.placeAll _ _) _).effect _ _ = _
  rw [Tag.effect_removals, Tag.effect_puts, Batch.effect_place, if_neg hne.symm, Batch.effect_empty, hold]
  split
  · rfl
  · cases change.puts.find? name <;> rfl

section
variable {c : Catalog} (hc : c.Sound) {r : Registry} (hr : r.Sound c) {t : ResourceType} (ht : c.Has t)
  {id : String} {e : Entry} (he : r.entries t.code id = some e) {update : ResourceUpdate}
  (hfixed : checkFixed e.fields update.fields t.fixedFields = .ok ())
include hr ht he hfixed

/-- An update leaves a resource where it stands, and so the newest child what it is. -/
theorem isNewest_updated {e' : Entry} (hfields : e'.fields = mergeFields e.fields update.fields) :
    (r.setEntry t.code id (some e')).isNewest t id = r.isNewest t id := by
  have hsound := (hr.entry ht he).2
  cases hv : t.versioning with
  | none => rw [Registry.isNewest_unversioned hv, Registry.isNewest_unversioned hv]
  | some v =>
    obtain ⟨parentId, ordering, hs⟩ := hsound.standing v hv
    have hs' : standing v e'.fields = .ok (parentId, ordering) := hfields ▸ standing_merge hfixed hv hs
    simp only [Registry.isNewest, Registry.entries_setEntry_self, he, hv, Option.any_some, hs, hs',
      Registry.pointers_setEntry]

omit hr ht he hfixed in
/-- No wish is for a reserved tag. -/
theorem find?_wishes_reserved (htags : ∀ name ∈ update.tags.keys, Checks.tagName name = .ok ())
    {name : String} (hname : Key.isReserved name = true) : update.tags.find? name = none := by
  cases hw : update.tags.find? name with
  | none => rfl
  | some wish =>
    rw [(Checks.tagName_spec (htags name (SortedMap.mem_keys_iff.mpr ⟨wish, hw⟩))).2] at hname
    cases hname

omit hr ht he hfixed in
/-- A tag that is kept for no field changes as its user wishes. -/
theorem applied_tagChange_unkept {name : String}
    (hnot : ∀ field ∈ t.searchable, name ≠ Key.reserved field) (old : Option String) :
    (tagChange t e update).applied name old = (TagChange.ofWishes e.tags update.tags).applied name old := by
  obtain ⟨hp, hd⟩ := foldl_addReserved_of_ne e.fields (mergeFields e.fields update.fields)
    (TagChange.ofWishes e.tags update.tags) hnot
  simp only [tagChange, TagChange.applied, hp, hd]

omit hr ht he hfixed in
theorem applied_ofWishes_reserved (htags : ∀ name ∈ update.tags.keys, Checks.tagName name = .ok ())
    {name : String} (hname : Key.isReserved name = true) (old : Option String) :
    (TagChange.ofWishes e.tags update.tags).applied name old = old := by
  obtain ⟨hp, hd⟩ := TagChange.ofWishes_of_none e.tags (find?_wishes_reserved htags hname)
  rw [TagChange.applied, hp, if_neg hd, Option.none_or]

omit hr ht he hfixed in
/-- The tag that is kept for a field goes with it. -/
theorem applied_tagChange_reserved (htags : ∀ name ∈ update.tags.keys, Checks.tagName name = .ok ())
    {field : String} (hf : field ∈ t.searchable) :
    (tagChange t e update).applied (Key.reserved field) (searchText? e.fields field) =
      searchText? (mergeFields e.fields update.fields) field := by
  obtain ⟨hp, hd⟩ := TagChange.ofWishes_of_none e.tags
    (find?_wishes_reserved htags (Key.isReserved_reserved field))
  have hfits : Fits (mergeFields e.fields update.fields)
      (TagChange.ofWishes e.tags update.tags) field :=
    ⟨fun h => absurd h hd, fun value hv => by rw [hp] at hv; cases hv⟩
  exact applied_foldl_addReserved hfits hf

include hc in
/-- The change of tags makes a resource's tags what its updated entry asks for. -/
theorem applied_tagChange (htags : ∀ name ∈ update.tags.keys, Checks.tagName name = .ok ()) {e' : Entry}
    (hfields : e'.fields = mergeFields e.fields update.fields) (hgranted : e'.tags = e.tags.granting update.tags)
    (hupdated : ∀ name value, e'.tags.find? name = some value → Checks.tagName name = .ok ())
    (name : String) : (tagChange t e update).applied name (r.tag? t id name) =
      (r.setEntry t.code id (some e')).tag? t id name := by
  have hsound := (hr.entry ht he).2
  by_cases hlatest : name = Key.latestTag
  · subst hlatest
    have hnot : ∀ field ∈ t.searchable, Key.latestTag ≠ Key.reserved field := fun field hf =>
      (hc.unflagged t ht field hf).symm
    rw [applied_tagChange_unkept hnot, applied_ofWishes_reserved htags Key.isReserved_latestTag,
      Registry.tag?, if_pos rfl, Registry.tag?, if_pos rfl, isNewest_updated hr ht he hfixed hfields]
  rw [Registry.tag?, if_neg hlatest, Registry.tag?, if_neg hlatest, he,
    Registry.entries_setEntry_self, Option.bind_some, Option.bind_some]
  by_cases hfield : ∃ field ∈ t.searchable, name = Key.reserved field
  · obtain ⟨field, hf, rfl⟩ := hfield
    rw [Entry.find?_allTags_reserved hsound.tags hf, Entry.find?_allTags_reserved hupdated hf, hfields]
    exact applied_tagChange_reserved htags hf
  · have hnot : ∀ field ∈ t.searchable, name ≠ Key.reserved field := fun field hf hname =>
      hfield ⟨field, hf, hname⟩
    rw [applied_tagChange_unkept hnot]
    cases hname : Key.isReserved name with
    | false =>
      rw [Entry.find?_allTags_of_user hsound.tags hname, Entry.find?_allTags_of_user hupdated hname, hgranted,
        TagChange.applied_ofWishes]
      exact (Tags.find?_granting e.tags update.tags name).symm
    | true =>
      rw [applied_ofWishes_reserved htags hname, Entry.find?_allTags_unkept hsound.tags hname hnot,
        Entry.find?_allTags_unkept hupdated hname hnot]

end

/-- What an update goes by of a resource that was loaded. -/
def entry (r : Resource) : Entry := ⟨r.fields, r.tags, ⟨r.createdAt, r.createdBy, none⟩⟩

/-- The writes of an update that can be planned are those of a revision of the resource that was
loaded. -/
theorem planUpdate_inv {σ : Type} [Store σ] {m : σ} {t : ResourceType} {now : Instant} {id : String}
    {update : ResourceUpdate} {user : String} {ops : List WriteOp}
    (hp : planUpdate m t now id update user = .ok ops) :
    ∃ items existing item, load m t id = .ok (items, existing) ∧
      (∀ name ∈ update.fields.keys, Checks.fieldName name = .ok ()) ∧
      (∀ name ∈ update.tags.keys, Checks.tagName name = .ok ()) ∧
      checkFixed existing.fields update.fields t.fixedFields = .ok () ∧
      canonicalItem t id (existing.entry.updated update now user).fields
        (existing.entry.updated update now user).audit = .ok item ∧
      ops = (revision t id item (tagChange t existing.entry update)).ops := by
  obtain ⟨_, hfields, hp⟩ := Outcome.bind_eq_ok_iff.mp hp
  obtain ⟨_, htags, hp⟩ := Outcome.bind_eq_ok_iff.mp hp
  obtain ⟨⟨items, existing⟩, hload, hp⟩ := Outcome.bind_eq_ok_iff.mp hp
  obtain ⟨_, hfixed, hp⟩ := Outcome.bind_eq_ok_iff.mp hp
  obtain ⟨item, hi, hp⟩ := Outcome.bind_eq_ok_iff.mp hp
  obtain ⟨b, hput, hp⟩ := Outcome.bind_eq_ok_iff.mp hp
  rw [Outcome.mapError_eq_ok_iff] at hfields htags hfixed hi hput
  have haudit : Audit.attributes ⟨existing.createdAt, existing.createdBy, some (now, user)⟩ =
      (existing.entry.updated update now user).audit.attributes := by
    simp only [entry, Entry.updated, Audit.attributes, storedTime, Rfc3339.write_toMillis]
  have hcanonical := canonicalItem_congr haudit ▸ hi
  rw [Batch.put_eq _ (key_canonical hi), Except.ok.injEq] at hput
  subst hput
  rw [TagChange.extend_eq] at hp
  cases hp
  exact ⟨items, existing, item, hload, Checks.each_eq_ok_iff.mp hfields,
    Checks.each_eq_ok_iff.mp htags, hfixed, hcanonical, rfl⟩

/-- An update that can be planned is sound, and its writes are those of a revision of what is read of the
entry. -/
theorem planUpdate_spec {c : Catalog} (hc : c.Sound) {m : Memory} {r : Registry} (h : Stands c m r)
    {t : ResourceType} (ht : c.Has t) {now : Instant} {id : String} {update : ResourceUpdate}
    {user : String} {ops : List WriteOp} (hp : planUpdate m t now id update user = .ok ops) :
    ∃ e existing item, r.entries t.code id = some e ∧ e.ReadAs t id existing ∧
      load m t id = .ok (m.itemsIn (Key.resource t.code id), existing) ∧
      (∀ name ∈ update.fields.keys, Checks.fieldName name = .ok ()) ∧
      (∀ name ∈ update.tags.keys, Checks.tagName name = .ok ()) ∧
      checkFixed e.fields update.fields t.fixedFields = .ok () ∧
      canonicalItem t id (existing.entry.updated update now user).fields
        (existing.entry.updated update now user).audit = .ok item ∧
      ops = (revision t id item (tagChange t e update)).ops := by
  obtain ⟨items, existing, item, hload, hfields, htags, hfixed, hi, rfl⟩ := planUpdate_inv hp
  obtain ⟨rfl, e, he, hread⟩ := h.load_inv hc ht hload
  refine ⟨e, existing, item, he, hread, hload, hfields, htags, hread.fields ▸ hfixed, hi, ?_⟩
  simp only [tagChange, entry, hread.fields, hread.tags]

section
variable {c : Catalog} {r : Registry} {t : ResourceType} {e : Entry} {update : ResourceUpdate}

theorem granting_tags (hsound : e.Sound r t)
    (htags : ∀ name ∈ update.tags.keys, Checks.tagName name = .ok ()) :
    ∀ name value, (e.tags.granting update.tags).find? name = some value → Checks.tagName name = .ok () := by
  intro name value hv
  rw [Tags.find?_granting] at hv
  cases hw : update.tags.find? name with
  | some wish => exact htags name (SortedMap.mem_keys_iff.mpr ⟨wish, hw⟩)
  | none =>
    rw [hw] at hv
    exact hsound.tags name value hv

theorem unmanaged_merge {fields changes : Item} (hfields : Checks.Unmanaged fields)
    (hchanges : ∀ name ∈ changes.keys, Checks.fieldName name = .ok ()) :
    Checks.Unmanaged (mergeFields fields changes) := by
  intro name value hv
  rw [find?_mergeFields] at hv
  cases hw : changes.find? name with
  | some new => exact Checks.fieldName_spec (hchanges name (SortedMap.mem_keys_iff.mpr ⟨new, hw⟩))
  | none =>
    rw [hw] at hv
    exact hfields name value hv

theorem updated_sound (hsound : e.Sound r t)
    (hfields : ∀ name ∈ update.fields.keys, Checks.fieldName name = .ok ())
    (htags : ∀ name ∈ update.tags.keys, Checks.tagName name = .ok ())
    (hfixed : checkFixed e.fields update.fields t.fixedFields = .ok ()) {e' : Entry}
    (hmerged : e'.fields = mergeFields e.fields update.fields)
    (hgranted : e'.tags = e.tags.granting update.tags) : e'.Sound r t := by
  refine ⟨hmerged ▸ unmanaged_merge hsound.fields hfields, hgranted ▸ granting_tags hsound htags,
    fun v hv => ?_, fun link hl => ?_⟩
  · obtain ⟨parentId, ordering, hs⟩ := hsound.standing v hv
    exact ⟨parentId, ordering, hmerged ▸ standing_merge hfixed hv hs⟩
  · obtain ⟨parentId, hp, hsome⟩ := hsound.parent link hl
    have hfield : link.field ∈ t.fixedFields := by simp [ResourceType.fixedFields, hl]
    exact ⟨parentId, hmerged ▸ requiredText_merge hfixed hfield hp, hsome⟩

theorem updated_legible (hcreated : Rfc3339.read (storedTime e.audit.createdAt) = .ok e.audit.createdAt)
    {now : Instant} (hnow : Rfc3339.Readable now) (update : ResourceUpdate) (user : String) :
    (e.updated update now user).Legible := by
  refine ⟨hcreated, fun u hu => ?_⟩
  cases hu
  simp only [storedTime, Rfc3339.write_toMillis]
  exact Rfc3339.read_write_millis hnow

end

/-- What a legible entry is read as comes to the same once it is updated. -/
theorem entry_updated {t : ResourceType} {id : String} {e : Entry} {existing : Resource}
    (h : e.ReadAs t id existing) (hlegible : e.Legible) (update : ResourceUpdate) (now : Instant)
    (user : String) :
    existing.entry.updated update now user = e.updated update now user := by
  have hcreated := Except.ok.inj (h.createdAt.symm.trans hlegible.created)
  simp only [Entry.updated, entry, h.fields, h.tags, h.createdBy, hcreated]

/-- Updating a resource either fails and changes no item, or puts what it is read as, updated, in its place
and answers with what is read of that. -/
theorem update_revises {setup : Setup} (hc : setup.catalog.Sound) {m : Memory} {r : Registry}
    (h : Stands setup.catalog m r) (now : Instant) (code id : String) (change : ResourceUpdate)
    (user : String) :
    ((∃ err, (update setup now m code id change user).1 = .error err) ∧
      (update setup now m code id change user).2.items = m.items) ∨
    ∃ t e existing, setup.catalog.Has t ∧ t.code = code ∧ r.entries code id = some e ∧ e.ReadAs t id existing ∧
      get setup m code id = .ok existing ∧ checkFixed e.fields change.fields t.fixedFields = .ok () ∧
      (update setup now m code id change user).1 =
        get setup (update setup now m code id change user).2 code id ∧
      Stands setup.catalog (update setup now m code id change user).2
        (r.setEntry t.code id (some (existing.entry.updated change now user))) := by
  unfold update
  dsimp only
  split
  next err _ => exact .inl ⟨⟨err, rfl⟩, rfl⟩
  next ops hplan =>
    obtain ⟨t, htype, hops⟩ := Outcome.bind_eq_ok_iff.mp hplan
    have ht := findType_eq_ok_iff.mp htype
    obtain rfl := hc.code code t ht
    obtain ⟨e, existing, item, he, hread, hload, hfields, htags, hfixed, hi, rfl⟩ :=
      planUpdate_spec hc h ht hops
    obtain ⟨hid, hsound⟩ := h.sound.entry ht he
    rcases commit_cases (keyed_revision hi _) setup m t.code id with ⟨hfail, hitems⟩ |
      ⟨m', hok, _, heffect⟩
    · exact .inl ⟨hfail, hitems⟩
    · have hmerged : (existing.entry.updated change now user).fields = mergeFields e.fields change.fields :=
        congrArg (mergeFields · change.fields) hread.fields
      have hgranted : (existing.entry.updated change now user).tags = e.tags.granting change.tags :=
        congrArg (Tags.granting · change.tags) hread.tags
      have hupdated := updated_sound hsound hfields htags hfixed hmerged hgranted
      have hget : get setup m t.code id = .ok existing := by
        rw [get, htype]
        simp only [hload, bind, Except.bind, pure, Except.pure]
      rw [hok]
      refine .inr ⟨t, e, existing, ht, rfl, he, hread, hget, hfixed, rfl,
        h.sound.revise ht he hupdated fun v hv => ?_, heffect ▸ ?_⟩
      · obtain ⟨parentId, ordering, hs⟩ := hsound.standing v hv
        exact (hmerged ▸ standing_merge hfixed hv hs).trans hs.symm
      · apply h.mirrors.setEntry hc ht hid
        · rw [effect_revision_of_ne fun name => hc.canonicalKey_ne_tagKey ht id _ name, if_pos rfl]
          exact (Registry.canonical?_eq_some_iff.mpr
            ⟨_, Registry.entries_setEntry_self _ _ _ _, hi⟩).symm
        · intro name
          rw [effect_revision_tag (hc.canonicalKey_ne_tagKey ht id _ name)
            (h.mirrors.tags t id name ht), applied_tagChange hc h.sound ht he hfixed htags hmerged hgranted
            hupdated.tags]
        · intro key hk hname
          rw [effect_revision_of_ne hname, if_neg hk]

/-- Updating a resource either fails and changes no item, or puts the updated entry in its place. -/
theorem update_cases {setup : Setup} (hc : setup.catalog.Sound) {m : Memory} {r : Registry}
    (h : Holds setup.catalog m r) {now : Instant} (hnow : Rfc3339.Readable now) (code id : String)
    (change : ResourceUpdate) (user : String) :
    ((∃ err, (update setup now m code id change user).1 = .error err) ∧
      (update setup now m code id change user).2.items = m.items) ∨
    ∃ t e, setup.catalog.Has t ∧ t.code = code ∧ r.entries code id = some e ∧
      checkFixed e.fields change.fields t.fixedFields = .ok () ∧
      (update setup now m code id change user).1 =
        .ok ((e.updated change now user).resource t id) ∧
      Holds setup.catalog (update setup now m code id change user).2
        (r.setEntry t.code id (some (e.updated change now user))) := by
  rcases update_revises hc h.toStands now code id change user with hfail |
    ⟨t, e, existing, ht, rfl, he, hread, _, hfixed, hanswer, h'⟩
  · exact .inl hfail
  · have hlegible := h.legible _ _ e he
    rw [entry_updated hread hlegible] at h'
    have hholds : Holds setup.catalog _ (r.setEntry t.code id (some (e.updated change now user))) :=
      ⟨h', h.legible.setEntry fun _ h => Option.some.inj h ▸ updated_legible hlegible.created hnow change user⟩
    refine .inr ⟨t, e, ht, rfl, he, hfixed, ?_, hholds⟩
    rw [hanswer]
    exact get_some hholds hc ht (Registry.entries_setEntry_self _ _ _ _)

end Resource

end TagStore
