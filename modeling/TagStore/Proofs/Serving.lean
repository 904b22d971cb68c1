import TagStore.Proofs.KeptItems
import TagStore.Proofs.PlannedBatches

namespace TagStore

/-- The keys that a call on a resource may write under: those of its partition, of the tags of newest
children of its type, and of the pointers to them. -/
inductive Touches (t : ResourceType) (id : String) : ItemKey → Prop where
  | own {key : ItemKey} (hpartition : key.partition = Key.resource t.code id) : Touches t id key
  | latest (i : String) : Touches t id (Version.latestKey t.code i)
  | pointer (v : Versioning) (parentId : String) : Touches t id (Pointer.key t.code v parentId)

/-- The operations that a call on a resource may make. -/
inductive Serves (c : Catalog) (clock : Instant → Prop) (t : ResourceType) (id : String) :
    ItemKey → WriteOp → Prop where
  | put {key : ItemKey} {item : Item} (condition : Option Condition) (htouches : Touches t id key)
    (hkept : Kept c clock key item) : Serves c clock t id key (.put item condition)
  | delete {key : ItemKey} (condition : Option Condition) (htouches : Touches t id key) :
    Serves c clock t id key (.delete key condition)

section
variable {c : Catalog} (hc : c.Checked) {t t' : ResourceType} (ht : c.Has t) (ht' : c.Has t') {id i : String}
include hc ht ht'

/-- A call leaves the canonical items of other resources as they are. -/
theorem Touches.eq_of_canonical (hi : i ≠ Key.latestMark)
    (h : Touches t id ⟨Key.resource t'.code i, Key.resource t'.code i⟩) : t' = t ∧ i = id := by
  generalize hkey : (⟨Key.resource t'.code i, Key.resource t'.code i⟩ : ItemKey) = key at h
  cases h with
  | own hpartition => exact hc.canonicalKey_inj ht' ht ((congrArg ItemKey.partition hkey).trans hpartition)
  | latest j => exact absurd hkey (hc.canonicalKey_ne_tagKey ht' i _ _)
  | pointer v parentId => exact absurd hkey (hc.canonicalKey_ne_pointerKey_of_ne ht' ht hi v parentId)

/-- A call leaves the tags of other resources as they are, but for the tag of newest children. -/
theorem Touches.eq_of_tag {name : String} (hname : name ≠ Key.latestTag)
    (h : Touches t id (Tag.key (Key.resource t'.code i) name)) : t' = t ∧ i = id := by
  generalize hkey : Tag.key (Key.resource t'.code i) name = key at h
  cases h with
  | own hpartition => exact hc.canonicalKey_inj ht' ht ((congrArg ItemKey.partition hkey).trans hpartition)
  | latest j => exact absurd (Key.tagSort_inj.mp (congrArg ItemKey.sort hkey)) hname
  | pointer v parentId => exact absurd hkey (hc.tagKey_ne_pointerKey ht _ _ v parentId)

end

namespace Serves
variable {c : Catalog} {clock : Instant → Prop} {t : ResourceType} {id : String}

theorem key_eq {key : ItemKey} {op : WriteOp} (h : Serves c clock t id key op) : op.key = .ok key := by
  cases h with
  | put condition _ hkept => exact hkept.key_eq
  | delete condition _ => rfl

theorem touches {key : ItemKey} {op : WriteOp} (h : Serves c clock t id key op) : Touches t id key := by
  cases h with
  | put condition htouches _ => exact htouches
  | delete condition htouches => exact htouches

section
variable {b : Batch} (hb : b.All (Serves c clock t id))
include hb

theorem keyed : b.Keyed := fun _ he => (hb.of_mem he).key_eq

/-- What such operations leave in a store is kept there. -/
theorem keeps {m m' : Memory} (h : m.Keeps c clock) (hm' : m'.items.find? = b.effect m.items) :
    m'.Keeps c clock := by
  intro key item hf
  rw [hm', Batch.effect] at hf
  cases hop : b.find? key with
  | none =>
    rw [hop] at hf
    exact h key item hf
  | some op =>
    rw [hop] at hf
    cases hb key op hop with
    | put condition _ hkept =>
      cases hf
      exact hkept
    | delete condition _ => cases hf

theorem effect_of_not_touches {key : ItemKey} (hkey : ¬ Touches t id key)
    (items : SortedMap ItemKey Item) : b.effect items key = items.find? key := by
  rw [Batch.effect]
  cases hop : b.find? key with
  | none => rfl
  | some op => exact absurd (hb key op hop).touches hkey

/-- The work for a pointer serves a call on a child. -/
theorem repoint (ht : c.Has t) {v : Versioning} (hv : t.versioning = some v) (parentId : String)
    (old new : Option Pointer) (guard : Condition) :
    (Version.repoint b t.code (Pointer.key t.code v parentId) old new guard).All
      (Serves c clock t id) := by
  refine hb.repoint (fun i => .delete none (.latest i)) (fun i => ?_) ?_
  · have hlatest : Kept c clock (Version.latestKey t.code i) (Version.latestItem t.code i) :=
      .tag i Key.latestValue ht (by decide)
    exact .put none (.latest i) hlatest
  · cases new with
    | none => exact .delete (some guard) (.pointer v parentId)
    | some p => exact .put (some guard) (.pointer v parentId) (.pointer parentId p ht hv)

end

end Serves

/-- Whether the tag that is kept for a field of a resource is what the field asks for. -/
def Indexes (items : ItemKey → Option Item) (t : ResourceType) (id : String) (fields : Item)
    (field : String) : Prop :=
  items (Tag.key (Key.resource t.code id) (Key.reserved field)) =
    (Resource.searchText? fields field).map (Tag.item (Key.resource t.code id) (Key.reserved field))

namespace Resource

/-- A batch that stores a resource: it serves a call on it, and puts its canonical item. -/
structure Storing (c : Catalog) (clock : Instant → Prop) (t : ResourceType) (id : String) (fields : Item)
    (audit : Audit) (b : Batch) : Prop where
  serves : b.All (Serves c clock t id)
  unmanaged : Checks.Unmanaged fields
  put : ∃ item condition, canonicalItem t id fields audit = .ok item ∧
    b.find? ⟨Key.resource t.code id, Key.resource t.code id⟩ = some (.put item condition)

section
variable {c : Catalog} (hc : c.Checked) {clock : Instant → Prop} {t : ResourceType} (ht : c.Has t)
  {id : String}
include hc ht

theorem serves_creation {item : Item} {e : Entry}
    (hkept : Kept c clock ⟨Key.resource t.code id, Key.resource t.code id⟩ item)
    (htags : ∀ name value, e.tags.find? name = some value → Checks.tagName name = .ok ()) :
    (creation t id item e).All (Serves c clock t id) :=
  all_creation hc ht htags (.put (some .absent) (.own rfl) hkept) fun _ value hname =>
    .put (some .absent) (.own rfl) (.tag id value ht hname)

theorem serves_revision {item : Item} {e : Entry} {update : ResourceUpdate}
    (hkept : Kept c clock ⟨Key.resource t.code id, Key.resource t.code id⟩ item)
    (htags : ∀ name ∈ update.tags.keys, Checks.tagName name = .ok ()) :
    (revision t id item (tagChange t e update)).All (Serves c clock t id) :=
  all_revision hc ht htags (.put (some .present) (.own rfl) hkept)
    (fun _ value hname => .put none (.own rfl) (.tag id value ht hname)) fun _ => .delete none (.own rfl)

/-- The work for a pointer leaves the canonical item of the child as the batch has it. -/
theorem find?_repoint_canonical (hid : id ≠ Key.latestMark) (b : Batch) (v : Versioning)
    (parentId : String) (old new : Option Pointer) (guard : Condition) :
    (Version.repoint b t.code (Pointer.key t.code v parentId) old new guard).find?
        ⟨Key.resource t.code id, Key.resource t.code id⟩ =
      b.find? ⟨Key.resource t.code id, Key.resource t.code id⟩ :=
  Version.find?_repoint_of_ne (hc.canonicalKey_ne_pointerKey_of_ne ht ht hid v parentId) fun _ =>
    hc.canonicalKey_ne_tagKey ht id _ _

/-- What creates a resource puts its canonical item, if there is none. -/
theorem Creates.find?_canonical (hid : id ≠ Key.latestMark) {m : Memory} {item : Item} {e : Entry} {b : Batch}
    (h : Creates m t id item e b) : b.find? ⟨Key.resource t.code id, Key.resource t.code id⟩ =
      some (.put item (some .absent)) := by
  have hfind := find?_creation hc ht id item e
  cases h with
  | plain => exact hfind
  | newest guard _ _ _ => exact (find?_repoint_canonical hc ht hid _ _ _ _ _ guard).trans hfind

/-- What creates a resource puts the tags of its searchable fields that can be searched for. -/
theorem Creates.indexes {σ : Type} [Store σ] {m : σ} {now : Instant} {fields : Item} {tags : Tags} {user : String}
    {item : Item} {b : Batch} (h : Creates m t id item (fresh fields tags now user) b)
    (htags : ∀ name value, tags.find? name = some value → Checks.tagName name = .ok ())
    (items : SortedMap ItemKey Item) {field : String} (hf : field ∈ t.searchable)
    (hname : Key.reserved field ≠ Key.latestTag) (hsome : (searchText? fields field).isSome = true) :
    Indexes (b.effect items) t id fields field := by
  have hcreation :
      Indexes ((creation t id item (fresh fields tags now user)).effect items) t id fields field := by
    obtain ⟨value, hv⟩ := Option.isSome_iff_exists.mp hsome
    have htag : ((fresh fields tags now user).allTags t).find? (Key.reserved field) = some value :=
      (Entry.find?_allTags_reserved htags hf).trans hv
    rw [Indexes, creation, Tag.effect_puts, htag, hv]
    rfl
  cases h with
  | plain => exact hcreation
  | @newest v parentId ordering old guard _ _ _ =>
    rw [Indexes, Version.effect_repoint_of_ne]
    · exact hcreation
    · exact hc.tagKey_ne_pointerKey ht _ _ v parentId
    · exact fun i hk => hname (Key.tagSort_inj.mp (congrArg ItemKey.sort hk))

/-- A plan to create a resource stores it, with the tags of the searchable fields that can be searched
for. -/
theorem planCreate_storing {m : Memory} {now : Instant} {fields : Item} {tags : Tags} {user : String}
    {ops : List WriteOp} (hp : planCreate m t now id fields tags user = .ok ops)
    (hid : id ≠ Key.latestMark) (hfields : Checks.Unmanaged fields)
    (htags : ∀ name value, tags.find? name = some value → Checks.tagName name = .ok ())
    (hclock : clock now.toMillis) :
    ∃ b, ops = Batch.ops b ∧ Storing c clock t id fields ⟨now.toMillis, user, none⟩ b ∧
      ∀ field ∈ t.searchable, Key.reserved field ≠ Key.latestTag →
        (searchText? fields field).isSome = true → Indexes (b.effect m.items) t id fields field := by
  obtain ⟨item, b, hi, rfl, _, hcreates⟩ := planCreate_creates hp
  have hfind := hcreates.find?_canonical hc ht hid
  have hcreation : (creation t id item (fresh fields tags now user)).All (Serves c clock t id) :=
    serves_creation hc ht (.canonical ht hid hfields hclock hi) htags
  have hserves : b.All (Serves c clock t id) := by
    cases hcreates with
    | plain => exact hcreation
    | newest guard hv _ _ => exact Serves.repoint hcreation ht hv _ _ _ guard
  exact ⟨b, rfl, ⟨hserves, hfields, item, _, hi, hfind⟩, fun _ hf hname hsome =>
    hcreates.indexes hc ht htags m.items hf hname hsome⟩

section
variable {m : Memory} (hm : m.Keeps c clock)
include hm

/-- A plan to update a resource stores it, with the fields that have to stay. The tags of searchable
fields go with the fields. -/
theorem planUpdate_storing (hback : ∀ a i, clock a → Rfc3339.read (storedTime a) = .ok i → clock i)
    {now : Instant} {update : ResourceUpdate} {user : String} {ops : List WriteOp}
    (hp : planUpdate m t now id update user = .ok ops) :
    ∃ (existing : Resource) (b : Batch), ops = b.ops ∧ m.fieldsOf? t id = some existing.fields ∧
      checkFixed existing.fields update.fields t.fixedFields = .ok () ∧ clock existing.createdAt ∧
      Storing c clock t id (mergeFields existing.fields update.fields)
        ⟨existing.createdAt, existing.createdBy, some (now.toMillis, user)⟩ b ∧
      ∀ field ∈ t.searchable, Indexes m.items.find? t id existing.fields field →
        Indexes (b.effect m.items) t id (mergeFields existing.fields update.fields) field := by
  obtain ⟨items, existing, item, hload, hfields, htags, hfixed, hi, rfl⟩ := planUpdate_inv hp
  obtain ⟨_, hid, audit, hs, hclock, hread⟩ := hm.load_inv hc ht hload
  have hunmanaged : Checks.Unmanaged (mergeFields existing.fields update.fields) :=
    unmanaged_merge hs.unmanaged hfields
  have hcreated : clock existing.createdAt := hback _ _ hclock hread
  have hserves : (revision t id item (tagChange t existing.entry update)).All (Serves c clock t id) :=
    serves_revision hc ht (.canonical ht hid hunmanaged hcreated hi) htags
  refine ⟨existing, _, rfl, hm.fieldsOf?_of_stores hs, hfixed, hcreated,
    ⟨hserves, hunmanaged, item, _, hi, find?_revision hc ht id item _⟩, fun field hf hold => ?_⟩
  rw [Indexes, effect_revision_tag (hc.canonicalKey_ne_tagKey ht id _ _) hold]
  exact congrArg _ (applied_tagChange_reserved (e := existing.entry) htags hf)

/-- A plan to delete a resource serves a call on it, and deletes its canonical item. -/
theorem planDelete_serves {setup : Setup} {ops : List WriteOp} (hp : planDelete setup m t id = .ok ops) :
    ∃ b, ops = Batch.ops b ∧ (m.fieldsOf? t id).isSome = true ∧
      checkChildless m t id (setup.catalog.children t.code) = .ok () ∧ b.All (Serves c clock t id) ∧
      b.effect m.items ⟨Key.resource t.code id, Key.resource t.code id⟩ = none := by
  obtain ⟨items, existing, b, b', hload, hchildless, hdelete, rfl, hdeletes⟩ := planDelete_deletes hp
  obtain ⟨rfl, hid, audit, hs, _⟩ := hm.load_inv hc ht hload
  obtain ⟨_, hb, hkeyed, hkept, hgone, hleaves⟩ := deleteAll_itemsIn hm.keyed (Key.resource t.code id)
  obtain rfl := Except.ok.inj (hdelete.symm.trans hb)
  have hthere : (m.fieldsOf? t id).isSome = true := by
    rw [hm.fieldsOf?_of_stores hs]
    rfl
  have hserves : b.All (Serves c clock t id) := by
    intro key op hop
    have hkey := hkeyed _ (Batch.mem_entries_of_find? hop)
    have hpartition : key.partition = Key.resource t.code id := Classical.byContradiction fun hne => by
      rw [hkept key hne] at hop
      cases hop
    cases op with
    | put item condition => cases hleaves key _ hop
    | delete key' condition =>
      obtain rfl := Except.ok.inj hkey
      exact .delete condition (.own hpartition)
  cases hdeletes with
  | unversioned _ => exact ⟨b, rfl, hthere, hchildless, hserves, hgone _ rfl⟩
  | unnamed _ _ _ _ => exact ⟨b, rfl, hthere, hchildless, hserves, hgone _ rfl⟩
  | @newest v parentId ordering next hv _ _ _ =>
    refine ⟨_, rfl, hthere, hchildless, Serves.repoint hserves ht hv parentId _ next _, ?_⟩
    -- The pointer's work comes after the deletes, and does not bring the canonical item back.
    rw [Batch.effect, find?_repoint_canonical hc ht hid]
    exact hgone _ rfl

end

end

end Resource

end TagStore
