import TagStore.Proofs.Serving

namespace TagStore

/-- What a call that stores a resource does: the store goes on to keep what calls leave, the resource is
stored with its fields, and what the call does not touch stays as it was. -/
structure Memory.Written (c : Catalog) (clock : Instant → Prop) (m m' : Memory) (t : ResourceType)
    (id : String) (fields : Item) (audit : Resource.Audit) : Prop where
  keeps : m'.Keeps c clock
  stores : m'.Stores t id fields audit
  others : ∀ key, ¬ Touches t id key → m'.items.find? key = m.items.find? key

namespace Resource

namespace Storing
variable {c : Catalog} {clock : Instant → Prop} {t : ResourceType} {id : String} {fields : Item}
  {audit : Audit} {b : Batch} (h : Storing c clock t id fields audit b)
include h

theorem written {m m' : Memory} (hm : m.Keeps c clock) (heffect : m'.items.find? = b.effect m.items) :
    m.Written c clock m' t id fields audit := by
  obtain ⟨item, condition, hitem, hput⟩ := h.put
  refine ⟨Serves.keeps h.serves hm heffect, ⟨h.unmanaged, item, hitem, ?_⟩, fun key hkey => ?_⟩
  · rw [heffect, Batch.effect, hput]
    rfl
  · rw [heffect, Serves.effect_of_not_touches h.serves hkey]

theorem ops_ne_nil : b.ops ≠ [] := by
  obtain ⟨item, condition, _, hput⟩ := h.put
  exact List.ne_nil_of_mem (Batch.mem_ops_of_find? hput)

end Storing

section
variable {σ : Type} [Store σ]

/-- The writes of a call that creates a resource. -/
def createPlan (setup : Setup) (now : Instant) (id : String) (s : σ) (code : String) (new : NewResource)
    (user : String) : Except Error (List WriteOp) := do
  let t ← findType setup code
  let fields ← newFields setup s t new
  planCreate s t now id fields new.tags user

def updatePlan (setup : Setup) (now : Instant) (s : σ) (code id : String) (change : ResourceUpdate)
    (user : String) : Except Error (List WriteOp) := do
  planUpdate s (← findType setup code) now id change user

def deletePlan (setup : Setup) (s : σ) (code id : String) : Except Error (List WriteOp) := do
  planDelete setup s (← findType setup code) id

theorem create_eq_carryOut (setup : Setup) (now : Instant) (ids : Ids) (s : σ) (code : String)
    (new : NewResource) (user : String) :
    let done := carryOut setup.settings.attempts s (fun s => get setup s code ids.take.1)
      (createPlan setup now ids.take.1 s code new user)
    (create setup now ids s code new user).1 = done.1 ∧
      (create setup now ids s code new user).2.2 = done.2 := by
  unfold create createPlan
  cases findType setup code with
  | error e => exact ⟨rfl, rfl⟩
  | ok t =>
    cases hfields : newFields setup s t new with
    | error e =>
      simp only [hfields, bind, Except.bind]
      exact ⟨rfl, rfl⟩
    | ok fields =>
      simp only [hfields, bind, Except.bind, pure, Except.pure]
      cases planCreate s t now ids.take.1 fields new.tags user with
      | error e => exact ⟨rfl, rfl⟩
      | ok ops => exact ⟨rfl, rfl⟩

theorem update_eq_carryOut (setup : Setup) (now : Instant) (s : σ) (code id : String)
    (change : ResourceUpdate) (user : String) :
    update setup now s code id change user =
      carryOut setup.settings.attempts s (fun s => get setup s code id)
        (updatePlan setup now s code id change user) := by
  unfold update updatePlan carryOut
  cases findType setup code with
  | error e => rfl
  | ok t => rfl

theorem delete_eq_carryOut (setup : Setup) (s : σ) (code id : String) :
    delete setup s code id =
      carryOut setup.settings.attempts s (fun _ => .ok ()) (deletePlan setup s code id) := by
  unfold delete deletePlan
  dsimp only
  split
  next e he => rw [he, carryOut]
  next ops hops =>
    rw [hops, carryOut]
    split
    · assumption
    · assumption

end

theorem get_inv {σ : Type} [Store σ] {setup : Setup} {m : σ} {code id : String} {r : Resource}
    (h : get setup m code id = .ok r) :
    ∃ t items, setup.catalog.types.find? code = some t ∧ load m t id = .ok (items, r) := by
  obtain ⟨t, ht, h⟩ := Outcome.bind_eq_ok_iff.mp h
  obtain ⟨⟨items, found⟩, hload, h⟩ := Outcome.bind_eq_ok_iff.mp h
  rw [findType_eq_ok_iff] at ht
  cases h
  exact ⟨t, items, ht, hload⟩

section
variable {setup : Setup} (hc : setup.catalog.Checked) {clock : Instant → Prop} {m : Memory}
  (hm : m.Keeps setup.catalog clock)
include hc hm

/-- The fields of a new resource are well named, and its parent is stored. -/
theorem newFields_parent {t : ResourceType} {new : NewResource} {fields : Item}
    (hn : newFields setup m t new = .ok fields) : Checks.Unmanaged fields ∧
      ∀ link, t.parent = some link → ∃ parentId parentType,
        Checks.requiredText fields link.field = .ok parentId ∧
        setup.catalog.types.find? link.code = some parentType ∧
        (m.fieldsOf? parentType parentId).isSome = true := by
  obtain ⟨hunmanaged, _, ⟨hl, rfl⟩ | ⟨link, parentId, parent, hl, hp, hg, rfl⟩⟩ := newFields_inv hn
  · refine ⟨hunmanaged, fun link hlink => ?_⟩
    rw [hl] at hlink
    cases hlink
  · obtain ⟨parentType, items, hfound, hload⟩ := get_inv hg
    obtain ⟨_, _, audit, hs, _⟩ := hm.load_inv hc (hc.has hfound) hload
    refine ⟨unmanaged_inherit _ hs.unmanaged hunmanaged, fun link' hlink => ?_⟩
    obtain rfl := Option.some.inj (hl.symm.trans hlink)
    exact ⟨parentId, parentType, requiredText_inherit _ _ hp, hfound,
      by rw [hm.fieldsOf?_of_stores hs]; rfl⟩

/-- What is planned for a new resource stores it, with the tags of its searchable fields. -/
theorem createPlan_storing {now : Instant} (hclock : clock now.toMillis) {id : String}
    (hid : id ≠ Key.latestMark) {code : String} {new : NewResource} {user : String}
    {ops : List WriteOp} (hplan : createPlan setup now id m code new user = .ok ops) :
    ∃ t fields b, setup.catalog.Has t ∧ t.code = code ∧ newFields setup m t new = .ok fields ∧
      ops = Batch.ops b ∧
      Storing setup.catalog clock t id fields ⟨now.toMillis, user, none⟩ b ∧
      ∀ field ∈ t.searchable, Key.reserved field ≠ Key.latestTag →
        (searchText? fields field).isSome = true → Indexes (b.effect m.items) t id fields field := by
  obtain ⟨t, ht, hrest⟩ := Outcome.bind_eq_ok_iff.mp hplan
  obtain ⟨fields, hfields, hops⟩ := Outcome.bind_eq_ok_iff.mp hrest
  clear hplan hrest
  rw [findType_eq_ok_iff] at ht
  obtain rfl := hc.code code t ht
  obtain ⟨hunmanaged, _⟩ := newFields_parent hc hm hfields
  obtain ⟨_, htags, _⟩ := newFields_inv hfields
  obtain ⟨b, rfl, hstoring, hindexes⟩ := planCreate_storing hc ht hops hid hunmanaged htags hclock
  exact ⟨t, fields, b, ht, rfl, hfields, rfl, hstoring, hindexes⟩

/-- What is planned for a resource that is updated stores it, with the fields that have to stay. -/
theorem updatePlan_storing (hback : ∀ a i, clock a → Rfc3339.read (storedTime a) = .ok i → clock i)
    {now : Instant} {code id : String} {change : ResourceUpdate} {user : String} {ops : List WriteOp}
    (hplan : updatePlan setup now m code id change user = .ok ops) :
    ∃ (t : ResourceType) (existing : Resource) (b : Batch), setup.catalog.Has t ∧ t.code = code ∧
      ops = b.ops ∧ m.fieldsOf? t id = some existing.fields ∧
      checkFixed existing.fields change.fields t.fixedFields = .ok () ∧ clock existing.createdAt ∧
      Storing setup.catalog clock t id (mergeFields existing.fields change.fields)
        ⟨existing.createdAt, existing.createdBy, some (now.toMillis, user)⟩ b ∧
      ∀ field ∈ t.searchable, Indexes m.items.find? t id existing.fields field →
        Indexes (b.effect m.items) t id (mergeFields existing.fields change.fields) field := by
  obtain ⟨t, ht, hops⟩ := Outcome.bind_eq_ok_iff.mp hplan
  clear hplan
  rw [findType_eq_ok_iff] at ht
  obtain rfl := hc.code code t ht
  obtain ⟨existing, b, hrest⟩ := planUpdate_storing hc ht hm hback hops
  exact ⟨t, existing, b, ht, rfl, hrest⟩

/-- What is planned for a resource that is deleted takes it out, and it has no children. -/
theorem deletePlan_serves {code id : String} {ops : List WriteOp}
    (hplan : deletePlan setup m code id = .ok ops) :
    ∃ t b, setup.catalog.Has t ∧ t.code = code ∧ ops = Batch.ops b ∧
      (m.fieldsOf? t id).isSome = true ∧
      checkChildless m t id (setup.catalog.children t.code) = .ok () ∧
      b.All (Serves setup.catalog clock t id) ∧
      b.effect m.items ⟨Key.resource t.code id, Key.resource t.code id⟩ = none := by
  obtain ⟨t, ht, hops⟩ := Outcome.bind_eq_ok_iff.mp hplan
  clear hplan
  rw [findType_eq_ok_iff] at ht
  obtain rfl := hc.code code t ht
  obtain ⟨b, hrest⟩ := planDelete_serves hc ht hm hops
  exact ⟨t, b, ht, rfl, hrest⟩

/-- Creating a resource fails and changes no item, or stores it with the tags of its searchable fields. -/
theorem create_written {now : Instant} (hclock : clock now.toMillis) {ids : Ids}
    (hid : ids.take.1 ≠ Key.latestMark) (code : String) (new : NewResource) (user : String) :
    ((∃ err, (create setup now ids m code new user).1 = .error err) ∧
      (create setup now ids m code new user).2.2.items = m.items) ∨
    ∃ t fields, setup.catalog.Has t ∧ t.code = code ∧ newFields setup m t new = .ok fields ∧
      m.Written setup.catalog clock (create setup now ids m code new user).2.2 t ids.take.1 fields
        ⟨now.toMillis, user, none⟩ ∧
      ∀ field ∈ t.searchable, Key.reserved field ≠ Key.latestTag →
        (searchText? fields field).isSome = true →
        Indexes (create setup now ids m code new user).2.2.items.find? t ids.take.1 fields field := by
  obtain ⟨hanswer, hstore⟩ := create_eq_carryOut setup now ids m code new user
  rw [hanswer, hstore]
  cases hplan : createPlan setup now ids.take.1 m code new user with
  | error err => exact .inl ⟨⟨err, rfl⟩, rfl⟩
  | ok ops =>
    obtain ⟨t, fields, b, ht, hcode, hfields, rfl, hstoring, hindexes⟩ :=
      createPlan_storing hc hm hclock hid hplan
    rcases carryOut_cases setup.settings.attempts m (fun m => get setup m code ids.take.1)
      (Serves.keyed hstoring.serves) with hfail | ⟨m', hok, _, heffect⟩
    · exact .inl hfail
    · rw [hok]
      exact .inr ⟨t, fields, ht, hcode, hfields, hstoring.written hm heffect, heffect ▸ hindexes⟩

/-- Creating a resource changes no item, or applies a batch that creates it, and it was not there. -/
theorem create_creates {ids : Ids} (hid : ids.take.1 ≠ Key.latestMark) (now : Instant) (code : String)
    (new : NewResource) (user : String) :
    (create setup now ids m code new user).2.2.items = m.items ∨
    ∃ t fields item b, setup.catalog.Has t ∧ t.code = code ∧ newFields setup m t new = .ok fields ∧
      Creates m t ids.take.1 item (fresh fields new.tags now user) b ∧ m.fieldsOf? t ids.take.1 = none ∧
      (create setup now ids m code new user).2.2.items.find? = b.effect m.items := by
  obtain ⟨_, hstore⟩ := create_eq_carryOut setup now ids m code new user
  rw [hstore]
  have hplan : ∀ ops, createPlan setup now ids.take.1 m code new user = .ok ops →
      ∃ b, ops = Batch.ops b ∧ b.Keyed ∧ ∃ t fields item, setup.catalog.Has t ∧ t.code = code ∧
        newFields setup m t new = .ok fields ∧
        Creates m t ids.take.1 item (fresh fields new.tags now user) b := by
    intro ops hops
    obtain ⟨t, ht, hrest⟩ := Outcome.bind_eq_ok_iff.mp hops
    obtain ⟨fields, hfields, hcreate⟩ := Outcome.bind_eq_ok_iff.mp hrest
    rw [findType_eq_ok_iff] at ht
    obtain ⟨item, b, _, hb, hkeyed, hcreates⟩ := planCreate_creates hcreate
    exact ⟨b, hb, hkeyed, t, fields, item, hc.has ht, hc.code code t ht, hfields, hcreates⟩
  rcases carryOut_effect setup.settings.attempts m (fun m => get setup m code ids.take.1) hplan with
    hitems | ⟨b, ⟨t, fields, item, ht, hcode, hfields, hcreates⟩, hallowed, heffect⟩
  · exact .inl hitems
  · refine .inr ⟨t, fields, item, b, ht, hcode, hfields, hcreates, ?_, heffect⟩
    have habsent := hallowed _ _ (hcreates.find?_canonical hc ht hid)
    rw [Memory.fieldsOf?, hm.keyed.find?_isCanonical, Option.isNone_iff_eq_none.mp habsent]
    rfl

/-- Updating a resource fails and changes no item, or stores it with other fields, of which those stay that
have to, and with the tags of its searchable fields. -/
theorem update_written (hback : ∀ a i, clock a → Rfc3339.read (storedTime a) = .ok i → clock i)
    (now : Instant) (code id : String) (change : ResourceUpdate) (user : String) :
    ((∃ err, (update setup now m code id change user).1 = .error err) ∧
      (update setup now m code id change user).2.items = m.items) ∨
    ∃ (t : ResourceType) (existing : Resource), setup.catalog.Has t ∧ t.code = code ∧
      m.fieldsOf? t id = some existing.fields ∧
      checkFixed existing.fields change.fields t.fixedFields = .ok () ∧
      m.Written setup.catalog clock (update setup now m code id change user).2 t id
        (mergeFields existing.fields change.fields)
        ⟨existing.createdAt, existing.createdBy, some (now.toMillis, user)⟩ ∧
      ∀ field ∈ t.searchable, Indexes m.items.find? t id existing.fields field →
        Indexes (update setup now m code id change user).2.items.find? t id
          (mergeFields existing.fields change.fields) field := by
  rw [update_eq_carryOut]
  cases hplan : updatePlan setup now m code id change user with
  | error err => exact .inl ⟨⟨err, rfl⟩, rfl⟩
  | ok ops =>
    obtain ⟨t, existing, b, ht, hcode, rfl, hold, hfixed, _, hstoring, hindexes⟩ :=
      updatePlan_storing hc hm hback hplan
    rcases carryOut_cases setup.settings.attempts m (fun m => get setup m code id)
      (Serves.keyed hstoring.serves) with hfail | ⟨m', hok, _, heffect⟩
    · exact .inl hfail
    · rw [hok]
      exact .inr ⟨t, existing, ht, hcode, hold, hfixed, hstoring.written hm heffect, heffect ▸ hindexes⟩

/-- Deleting a resource fails and changes no item, or takes it out of the store. Then the search for its
children found none. -/
theorem delete_gone (code id : String) :
    ((∃ err, (delete setup m code id).1 = .error err) ∧ (delete setup m code id).2.items = m.items) ∨
    ∃ t, setup.catalog.Has t ∧ t.code = code ∧
      checkChildless m t id (setup.catalog.children t.code) = .ok () ∧
      (delete setup m code id).2.Keeps setup.catalog clock ∧
      (delete setup m code id).2.fieldsOf? t id = none ∧
      ∀ key, ¬ Touches t id key →
        (delete setup m code id).2.items.find? key = m.items.find? key := by
  rw [delete_eq_carryOut]
  cases hplan : deletePlan setup m code id with
  | error err => exact .inl ⟨⟨err, rfl⟩, rfl⟩
  | ok ops =>
    obtain ⟨t, b, ht, hcode, rfl, _, hchildless, hserves, hgone⟩ := deletePlan_serves hc hm hplan
    rcases carryOut_cases setup.settings.attempts m (fun _ => .ok ()) (Serves.keyed hserves) with
      hfail | ⟨m', hok, _, heffect⟩
    · exact .inl hfail
    · have hkeeps := Serves.keeps hserves hm heffect
      rw [hok]
      refine .inr ⟨t, ht, hcode, hchildless, hkeeps, ?_, fun key hkey => ?_⟩
      · rw [Memory.fieldsOf?, hkeeps.keyed.find?_isCanonical, heffect, hgone]
        rfl
      · rw [heffect, Serves.effect_of_not_touches hserves hkey]

/-- Deleting a resource changes no item, or applies a batch that deletes it. -/
theorem delete_deletes (code id : String) :
    (delete setup m code id).2.items = m.items ∨
    ∃ t fields deletes b, setup.catalog.Has t ∧ t.code = code ∧ m.fieldsOf? t id = some fields ∧
      deleteAll .empty (m.itemsIn (Key.resource t.code id)) = .ok deletes ∧
      Deletes m t id fields deletes b ∧ (delete setup m code id).2.items.find? = b.effect m.items := by
  rw [delete_eq_carryOut]
  have hplan : ∀ ops, deletePlan setup m code id = .ok ops → ∃ b, ops = Batch.ops b ∧ b.Keyed ∧
      ∃ t fields deletes, setup.catalog.Has t ∧ t.code = code ∧ m.fieldsOf? t id = some fields ∧
        deleteAll .empty (m.itemsIn (Key.resource t.code id)) = .ok deletes ∧
        Deletes m t id fields deletes b := by
    intro ops hops
    obtain ⟨t, ht, hdelete⟩ := Outcome.bind_eq_ok_iff.mp hops
    rw [findType_eq_ok_iff] at ht
    obtain ⟨_, existing, deletes, b, hload, _, hall, hb, hdeletes⟩ := planDelete_deletes hdelete
    obtain ⟨rfl, _, _, hs, _⟩ := hm.load_inv hc (hc.has ht) hload
    obtain ⟨_, hfound, hkeyed, _⟩ := deleteAll_itemsIn hm.keyed (Key.resource t.code id)
    obtain rfl := Except.ok.inj (hall.symm.trans hfound)
    exact ⟨b, hb, hdeletes.keyed hkeyed, t, _, deletes, hc.has ht, hc.code code t ht,
      hm.fieldsOf?_of_stores hs, hall, hdeletes⟩
  rcases carryOut_effect setup.settings.attempts m (fun _ => .ok ()) hplan with
    hitems | ⟨b, ⟨t, fields, deletes, ht, hcode, hstored, hall, hdeletes⟩, _, heffect⟩
  · exact .inl hitems
  · exact .inr ⟨t, fields, deletes, b, ht, hcode, hstored, hall, hdeletes, heffect⟩

end

end Resource

end TagStore
