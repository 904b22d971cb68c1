import TagStore.Proofs.Effects

namespace TagStore

/-- Whether an item is what it is found as: what has a tag's value is the item of a tag, and what is of a
type's kind stands in the partition of the id that it names. -/
structure Item.Proper (c : Catalog) (item : Item) : Prop where
  tag : (item.text? Attribute.tagIndex).isSome = true →
    ∃ owner name value, Key.hasDelimiter name = false ∧ item = Tag.item owner name value
  id : ∀ t id, c.Has t → item.text? Attribute.kind = some t.code → item.text? Attribute.id = some id →
    item.text? Attribute.partition = some (Key.resource t.code id)

/-- Whether an operation stands under its key, and puts a proper item if any. -/
def WriteOp.Proper (c : Catalog) (key : ItemKey) (op : WriteOp) : Prop :=
  op.key = .ok key ∧ ∀ item, op.leaves = some item → item.Proper c

section
variable {c : Catalog}

theorem WriteOp.proper_put {key : ItemKey} {item : Item} (hkey : item.key = .ok key) (hitem : item.Proper c)
    (condition : Option Condition) : (put item condition).Proper c key := by
  refine ⟨hkey, fun item' h => ?_⟩
  cases h
  exact hitem

theorem WriteOp.proper_delete (key : ItemKey) (condition : Option Condition) :
    (delete key condition).Proper c key :=
  ⟨rfl, nofun⟩

theorem Resource.proper_canonical {t : ResourceType} {id : String} {fields : Item} {audit : Audit} {item : Item}
    (h : canonicalItem t id fields audit = .ok item) (hfields : Checks.Unmanaged fields) : item.Proper c := by
  refine ⟨fun hindex => ?_, fun t' id' _ hkind hid => ?_⟩
  · rw [text?_canonical_tagIndex h hfields] at hindex
    cases hindex
  · rw [text?_canonical_kind h, Option.some.injEq] at hkind
    rw [text?_canonical_id h, Option.some.injEq] at hid
    rw [text?_canonical_partition h, hkind, hid]

variable (hc : c.Checked)
include hc

theorem Tag.proper_item (owner : String) {name : String} (hname : Key.hasDelimiter name = false)
    (value : String) : (item owner name value).Proper c := by
  refine ⟨fun _ => ⟨owner, name, value, hname, rfl⟩, fun t _ ht hkind _ => ?_⟩
  rw [text?_item_kind, Option.some.injEq] at hkind
  exact absurd hkind.symm (hc.code_ne_tagCode ht)

theorem Pointer.proper_item (key : ItemKey) (p : Pointer) : (p.item key).Proper c := by
  refine ⟨fun hindex => ?_, fun t _ ht hkind _ => ?_⟩
  · rw [text?_item_tagIndex] at hindex
    cases hindex
  · rw [text?_item_kind, Option.some.injEq] at hkind
    exact absurd hkind.symm (hc.code_ne_pointerCode ht)

/-- The work for a pointer puts proper items, whatever was stored before. -/
theorem Version.proper_repoint {b : Batch} (hb : b.All (WriteOp.Proper c)) (childCode : String) (key : ItemKey)
    (old new : Option Pointer) (guard : Condition) :
    (repoint b childCode key old new guard).All (WriteOp.Proper c) := by
  refine hb.repoint (fun id => WriteOp.proper_delete _ none) (fun id => ?_) ?_
  · exact WriteOp.proper_put (Tag.key_item _ _ _) (Tag.proper_item hc _ (by decide) _) none
  · cases new with
    | none => exact WriteOp.proper_delete key (some guard)
    | some p => exact WriteOp.proper_put (Pointer.key_item key p) (Pointer.proper_item hc key p) (some guard)

end

namespace Resource
variable {σ : Type} [Store σ] {setup : Setup} {s : σ}

theorem newFields_unmanaged {t : ResourceType} {new : NewResource} {fields : Item}
    (h : newFields setup s t new = .ok fields) : Checks.Unmanaged fields := by
  obtain ⟨hfields, _, ⟨_, rfl⟩ | ⟨_, _, parent, _, _, hparent, rfl⟩⟩ := newFields_inv h
  · exact hfields
  · obtain ⟨t', items, _, hload⟩ := get_inv hparent
    exact unmanaged_inherit _ (unmanaged_of_ofItems (of_load hload).2) hfields

variable (hc : setup.catalog.Checked)
include hc

/-- Whatever is stored, what creates a resource puts proper items, among them the tags of its searchable
fields that can be searched for. -/
theorem createPlan_proper {now : Instant} {id code : String} {new : NewResource} {user : String}
    {ops : List WriteOp} (h : createPlan setup now id s code new user = .ok ops) :
    ∃ b t fields, ops = Batch.ops b ∧ b.All (WriteOp.Proper setup.catalog) ∧
      setup.catalog.types.find? code = some t ∧ newFields setup s t new = .ok fields ∧
      ∀ items, ∀ field ∈ t.searchable, Key.reserved field ≠ Key.latestTag →
        (searchText? fields field).isSome = true → Indexes (b.effect items) t id fields field := by
  obtain ⟨t, ht, h⟩ := Outcome.bind_eq_ok_iff.mp h
  obtain ⟨fields, hfields, hplan⟩ := Outcome.bind_eq_ok_iff.mp h
  rw [findType_eq_ok_iff] at ht
  have hhas := hc.has ht
  obtain ⟨_, htags, _⟩ := newFields_inv hfields
  obtain ⟨item, b, hi, rfl, _, hcreates⟩ := planCreate_creates hplan
  have hitem : item.Proper setup.catalog := proper_canonical hi (newFields_unmanaged hfields)
  have hcreation : (creation t id item (fresh fields new.tags now user)).All (WriteOp.Proper setup.catalog) :=
    all_creation hc hhas htags (WriteOp.proper_put (key_canonical hi) hitem _) fun name value hname =>
      WriteOp.proper_put (Tag.key_item _ _ _) (Tag.proper_item hc _ hname value) _
  have hall : b.All (WriteOp.Proper setup.catalog) := by
    cases hcreates with
    | plain => exact hcreation
    | newest guard _ _ _ => exact Version.proper_repoint hc hcreation _ _ _ _ guard
  exact ⟨b, t, fields, rfl, hall, ht, hfields, fun items field hf hname hsome =>
    hcreates.indexes hc hhas htags items hf hname hsome⟩

theorem updatePlan_proper {now : Instant} {code id : String} {change : ResourceUpdate} {user : String}
    {ops : List WriteOp} (h : updatePlan setup now s code id change user = .ok ops) :
    ∃ b, ops = Batch.ops b ∧ b.All (WriteOp.Proper setup.catalog) := by
  obtain ⟨t, ht, hplan⟩ := Outcome.bind_eq_ok_iff.mp h
  rw [findType_eq_ok_iff] at ht
  obtain ⟨items, existing, item, hload, hfields, htags, _, hi, rfl⟩ := planUpdate_inv hplan
  have hitem : item.Proper setup.catalog :=
    proper_canonical hi (unmanaged_merge (unmanaged_of_ofItems (of_load hload).2) hfields)
  exact ⟨_, rfl, all_revision hc (hc.has ht) htags (WriteOp.proper_put (key_canonical hi) hitem _)
    (fun name value hname => WriteOp.proper_put (Tag.key_item _ _ _) (Tag.proper_item hc _ hname value) _)
    fun name => WriteOp.proper_delete _ _⟩

omit [Store σ] hc in
theorem proper_deleteAll {c : Catalog} {items : List Item} {b b' : Batch} (hb : b.All (WriteOp.Proper c))
    (h : deleteAll b items = .ok b') : b'.All (WriteOp.Proper c) := by
  induction items generalizing b with
  | nil =>
    cases h
    exact hb
  | cons item items ih =>
    obtain ⟨key, _, h⟩ := Outcome.bind_eq_ok_iff.mp h
    exact ih (hb.delete (WriteOp.proper_delete key none)) h

theorem deletePlan_proper {code id : String} {ops : List WriteOp} (h : deletePlan setup s code id = .ok ops) :
    ∃ b, ops = Batch.ops b ∧ b.All (WriteOp.Proper setup.catalog) := by
  obtain ⟨t, _, hplan⟩ := Outcome.bind_eq_ok_iff.mp h
  obtain ⟨items, existing, deletes, b, _, _, hdelete, rfl, hdeletes⟩ := planDelete_deletes hplan
  have hall : deletes.All (WriteOp.Proper setup.catalog) := proper_deleteAll Batch.All.empty hdelete
  refine ⟨b, rfl, ?_⟩
  cases hdeletes with
  | unversioned _ => exact hall
  | unnamed _ _ _ _ => exact hall
  | newest _ _ _ _ => exact Version.proper_repoint hc hall _ _ _ _ _

end Resource

end TagStore
