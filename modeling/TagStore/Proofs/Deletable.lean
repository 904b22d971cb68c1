import TagStore.Proofs.ListWalks
import TagStore.Proofs.Updatable

namespace TagStore

namespace Batch
variable {b : Batch} {key : ItemKey}

theorem delete_new (hnew : b.find? key = none) (condition : Option Condition) :
    b.delete key condition = (b.place key (.delete key condition), true) := by
  rw [delete, deletes, hnew]
  rfl

end Batch

namespace Resource

/-- The deletes of items under different keys, none of which has an operation yet. -/
theorem deleteAll_entries {items : List Item} {keys : List ItemKey}
    (hk : items.map Item.key = keys.map .ok) (hapart : keys.Nodup) {b : Batch}
    (hnew : ∀ k ∈ keys, b.find? k = none) : ∃ b', deleteAll b items = .ok b' ∧
      b'.entries = b.entries ++ keys.map fun k => (k, .delete k none) := by
  induction items generalizing b keys with
  | nil =>
    cases keys with
    | nil => exact ⟨b, rfl, (List.append_nil _).symm⟩
    | cons k keys => cases hk
  | cons item items ih =>
    cases keys with
    | nil => cases hk
    | cons k keys =>
      obtain ⟨hitem, hrest⟩ := List.cons.inj hk
      obtain ⟨hnot, hapart⟩ := List.nodup_cons.mp hapart
      have hk := hnew k List.mem_cons_self
      obtain ⟨b', hb', hentries⟩ := ih hrest hapart (b := (b.delete k none).1) fun k' hk' => by
        have hne : k' ≠ k := fun he => hnot (he ▸ hk')
        rw [b.find?_delete_of_ne hne]
        exact hnew k' (List.mem_cons_of_mem _ hk')
      refine ⟨b', by rw [deleteAll, hitem]; exact hb', ?_⟩
      rw [hentries, Batch.delete_new hk, Batch.entries_place_new hk, List.append_assoc]
      rfl

/-- The deletes of the items of a partition, one for each. -/
theorem deleteAll_partition {m : Memory} (hm : m.Keyed) (partition : String) {b : Batch}
    (hb : deleteAll .empty (m.itemsIn partition) = .ok b) :
    b.size = (m.itemsIn partition).length ∧
      (∀ key op, b.find? key = some op → op.condition = none) ∧
      ∀ key, (m.items.find? key).isSome = true → key.partition = partition → b.deletes key = true := by
  obtain ⟨b', hb', hentries⟩ := deleteAll_entries (hm.keys_itemsIn partition) (m.nodup_keysIn partition)
    (b := .empty) fun _ _ => rfl
  obtain rfl := Except.ok.inj (hb.symm.trans hb')
  have hall : b.entries = (m.keysIn partition).map fun k => (k, WriteOp.delete k none) := hentries
  refine ⟨?_, fun key op hop => ?_, fun key hsome hpartition => ?_⟩
  · rw [← Batch.length_entries, hall, List.length_map, Memory.length_keysIn]
  · have hin := Batch.mem_entries_of_find? hop
    rw [hall] at hin
    obtain ⟨k, _, hk⟩ := List.mem_map.mp hin
    rw [← (Prod.mk.inj hk).2]
    rfl
  · have hin : (key, WriteOp.delete key none) ∈ b.entries := by
      rw [hall]
      exact List.mem_map.mpr ⟨key, Memory.mem_keysIn.mpr ⟨hpartition, hsome⟩, rfl⟩
    rw [Batch.deletes, b.find?_of_mem_entries hin]
    rfl

/-- How many writes it takes to move a pointer on where a resource goes: none unless the pointer names
it, one if it goes with its last child, and two if another child takes its place. -/
inductive Handover (setup : Setup) (m : Memory) (t : ResourceType) (s : Resource) : Nat → Prop where
  | unnamed (hnot : ∀ v parentId n, t.versioning = some v → s.fields.text? v.parentField = some parentId →
      latestChild setup m t.code parentId = .ok (some n) → n.id ≠ s.id) : Handover setup m t s 0
  | last {v : Versioning} {parentId : String} {n : Resource} (hv : t.versioning = some v)
      (hparent : s.fields.text? v.parentField = some parentId)
      (hn : latestChild setup m t.code parentId = .ok (some n)) (hid : n.id = s.id)
      (hnone : ∀ id s', get setup m t.code id = .ok s' →
        s'.fields.text? v.parentField = some parentId → id = s.id) : Handover setup m t s 1
  | next {v : Versioning} {parentId : String} {n s' : Resource} {id : String}
      (hv : t.versioning = some v) (hparent : s.fields.text? v.parentField = some parentId)
      (hn : latestChild setup m t.code parentId = .ok (some n)) (hid : n.id = s.id)
      (hs' : get setup m t.code id = .ok s') (hsibling : s'.fields.text? v.parentField = some parentId)
      (hne : id ≠ s.id) : Handover setup m t s 2

theorem Handover.unique {setup : Setup} {m : Memory} {t : ResourceType} {s : Resource} {j k : Nat}
    (hj : Handover setup m t s j) (hk : Handover setup m t s k) : j = k := by
  cases hj with
  | unnamed hnot =>
    cases hk with
    | unnamed => rfl
    | last hv hparent hn hid => exact absurd hid (hnot _ _ _ hv hparent hn)
    | next hv hparent hn hid => exact absurd hid (hnot _ _ _ hv hparent hn)
  | last hv hparent hn hid hnone =>
    cases hk with
    | unnamed hnot => exact absurd hid (hnot _ _ _ hv hparent hn)
    | last => rfl
    | next hv' hparent' _ _ hs' hsibling hne =>
      obtain rfl := Option.some.inj (hv.symm.trans hv')
      obtain rfl := Option.some.inj (hparent.symm.trans hparent')
      exact absurd (hnone _ _ hs' hsibling) hne
  | next hv hparent hn hid hs' hsibling hne =>
    cases hk with
    | unnamed hnot => exact absurd hid (hnot _ _ _ hv hparent hn)
    | last hv' hparent' _ _ hnone =>
      obtain rfl := Option.some.inj (hv.symm.trans hv')
      obtain rfl := Option.some.inj (hparent.symm.trans hparent')
      exact absurd (hnone _ _ hs' hsibling) hne
    | next => rfl

theorem checkChildless_of_searches {m : Memory} {t : ResourceType} {id : String}
    {links : List (ResourceType × String)}
    (h : ∀ link ∈ links, ∃ found, Tag.search m link.1.code 1 (Key.reserved link.2, id) none = .ok found ∧
      found.ids = []) : checkChildless m t id links = .ok () := by
  induction links with
  | nil => rfl
  | cons link links ih =>
    obtain ⟨found, hfound, hnone⟩ := h link List.mem_cons_self
    rw [checkChildless, hfound]
    simp only [hnone, bind, Except.bind, List.isEmpty_nil, Bool.not_true, Bool.false_eq_true, if_false]
    exact ih fun l hl => h l (List.mem_cons_of_mem _ hl)

end Resource

/-- A field that links a stored resource to a parent holds a text. -/
theorem Entry.Sound.linked {r : Registry} {t : ResourceType} {e : Entry} (he : e.Sound r t) {field : String}
    (hf : field ∈ t.parentFields) : ∃ parentId, Checks.requiredText e.fields field = .ok parentId := by
  simp only [ResourceType.parentFields, List.mem_append, Option.mem_toList, Option.map_eq_some_iff] at hf
  rcases hf with ⟨link, hl, rfl⟩ | ⟨v, hv, rfl⟩
  · obtain ⟨parentId, hparent, _⟩ := he.parent link hl
    exact ⟨parentId, hparent⟩
  · obtain ⟨parentId, ordering, hs⟩ := he.standing v hv
    exact ⟨parentId, (Resource.standing_eq_ok_iff.mp hs).1⟩

namespace Version

/-- The only condition among a batch's operations that set a pointer is that on the pointer. -/
theorem condition_repoint {b : Batch} {childCode : String} {key : ItemKey} {old new : Option Pointer}
    {guard : Condition} (hb : ∀ k op, b.find? k = some op → op.condition = none) {k : ItemKey}
    {op : WriteOp} (hop : (repoint b childCode key old new guard).find? k = some op) :
    op.condition = none ∨ k = key ∧ op.condition = some guard := by
  have hold : ∀ {k op}, (unflag b childCode old).find? k = some op → op.condition = none := by
    intro k op hop
    cases old with
    | none => exact hb k op hop
    | some p =>
      rcases Batch.of_find?_delete hop with ⟨_, rfl⟩ | hop
      · rfl
      · exact hb k op hop
  cases new with
  | none =>
    rcases Batch.of_find?_delete hop with ⟨hk, rfl⟩ | hop
    · exact .inr ⟨hk, rfl⟩
    · exact .inl (hold hop)
  | some p =>
    rcases Batch.of_find?_place hop with ⟨hk, rfl⟩ | hop
    · exact .inr ⟨hk, rfl⟩
    · rcases Batch.of_find?_place hop with ⟨_, rfl⟩ | hop
      · exact .inl rfl
      · exact .inl (hold hop)

/-- Setting a pointer takes a write for it, and one for the child that it is to name. -/
theorem size_repoint {b : Batch} {childCode : String} {key : ItemKey} {p : Pointer} {new : Option Pointer}
    {guard : Condition} (hp : b.deletes (latestKey childCode p.child) = true) (hkey : b.find? key = none)
    (hnew : ∀ q, new = some q → b.find? (latestKey childCode q.child) = none ∧
      key ≠ latestKey childCode q.child) :
    (repoint b childCode key (some p) new guard).size = b.size + if new.isSome then 2 else 1 := by
  have hpending : unflag b childCode (some p) = b := by
    rw [unflag, Batch.delete, if_pos hp]
  unfold repoint
  dsimp only
  rw [hpending]
  cases new with
  | none =>
    dsimp only
    rw [Batch.delete_new hkey, Batch.size_place_new hkey]
    rfl
  | some q =>
    obtain ⟨hq, hne⟩ := hnew q rfl
    have hkey' : (b.place (latestKey childCode q.child) (.put (latestItem childCode q.child) none)).find? key =
        none := by
      rw [Batch.find?_place_of_ne b hne, hkey]
    dsimp only
    rw [Batch.size_place_new hkey', Batch.size_place_new hq]
    rfl

end Version

/-- How many writes it takes to move on the pointer that names a resource, if one does. -/
inductive Registry.Moves (r : Registry) (t : ResourceType) (id : String) : Nat → Prop where
  | unnamed (hnot : ∀ parentId p, r.pointers t.code parentId = some p → p.child ≠ id) : Moves r t id 0
  | newest {v : Versioning} {parentId : String} {p : Pointer} {next : Option Pointer}
    (hv : t.versioning = some v) (hp : r.pointers t.code parentId = some p) (hid : p.child = id)
    (hnext : r.Heads t v parentId id next) : Moves r t id (if next.isSome then 2 else 1)

/-- The pointer of a parent does not stand with a child that has no children itself. -/
theorem Registry.Childless.pointerKey_partition_ne {c : Catalog} (hc : c.Sound) {r : Registry} {t : ResourceType}
    {id : String} (hnone : r.Childless c t.code id) (ht : c.Has t) {v : Versioning} (hv : t.versioning = some v)
    {e : Entry} (he : r.entries t.code id = some e) {parentId ordering : String}
    (hs : Resource.standing v e.fields = .ok (parentId, ordering)) :
    (Pointer.key t.code v parentId).partition ≠ Key.resource t.code id := by
  intro hpartition
  obtain ⟨hcode, rfl⟩ := Key.resource_inj (hc.plain t v ht hv) (hc.hasDelimiter_code ht) hpartition
  exact hnone t v.parentField ht (hcode ▸ ResourceType.mem_linksTo_versioning hv) _ e he
    (Resource.standing_eq_ok_iff.mp hs).1

namespace Stands
variable {setup : Setup} (hc : setup.catalog.Sound) {m : Memory} {r : Registry}
  (h : Stands setup.catalog m r) {t : ResourceType} (ht : setup.catalog.Has t) {id : String}
include hc h

theorem checkChildless (hnone : r.Childless setup.catalog t.code id) :
    Resource.checkChildless m t id (setup.catalog.children t.code) = .ok () := by
  apply Resource.checkChildless_of_searches
  rintro ⟨t', field⟩ hlink
  obtain ⟨ht', hf⟩ := (Catalog.mem_children_iff hc.toChecked).mp hlink
  have hlinked := ResourceType.mem_parentFields_of_linksTo hf
  have hsearchable := (ResourceType.check_spec (hc.checked t' ht')).2.2.2 field hlinked
  have hname : Key.hasDelimiter (Key.reserved field, id).1 = false := by
    rw [Key.hasDelimiter_reserved]
    exact hc.hasDelimiter_searchable ht' hsearchable
  refine ⟨_, Tag.search_eq h.keyed (h.only hc) (hc.hasDelimiter_code ht') hname none Nat.one_pos, ?_⟩
  rw [Tag.Found.first, List.take_eq_nil_iff]
  refine .inr (List.eq_nil_iff_forall_not_mem.mpr fun i hi => ?_)
  have hcarries := ((Tag.mem_owners h.keyed (h.only hc) (hc.hasDelimiter_code ht') hname none).mp hi).2
  have htag := (h.carries_iff ht').mp hcarries _ List.mem_cons_self
  rcases (h.sound.tag?_eq_some_iff hc ht').mp htag with ⟨hlatest, _⟩ | ⟨e, he, hvalue⟩
  · exact hc.unflagged t' ht' field hsearchable hlatest
  · have hsound := (h.sound.entry ht' he).2
    rw [Entry.find?_allTags_reserved hsound.tags hsearchable] at hvalue
    obtain ⟨parentId, hparent⟩ := hsound.linked hlinked
    rw [Resource.searchText?_of_requiredText hparent, Option.some.injEq] at hvalue
    obtain rfl : parentId = id := hvalue
    exact hnone t' field ht' hf i e he hparent

include ht

/-- Nothing is left in the partition of a resource that is gone and has no children. -/
theorem itemsIn_eq_nil (he : r.entries t.code id = none) (hnone : r.Childless setup.catalog t.code id) :
    m.itemsIn (Key.resource t.code id) = [] := by
  apply List.eq_nil_iff_forall_not_mem.mpr
  intro item hi
  rcases h.mem_itemsIn_cases hc ht hi with ⟨e, he', _⟩ | ⟨name, value, htag, _⟩ |
    ⟨t', v, parentId, p, ht', hv, hp, hpartition, _⟩
  · rw [he] at he'
    cases he'
  · obtain ⟨e, he'⟩ := h.sound.entry_of_tag? hc ht htag
    rw [he] at he'
    cases he'
  · obtain ⟨hcode, rfl⟩ := Key.resource_inj (hc.plain t' v ht' hv) (hc.hasDelimiter_code ht) hpartition
    rw [hnone.pointers h.sound ht' hv hcode] at hp
    cases hp

/-- The writes that delete a resource without children can be planned if the resource can be read. Each of
them is allowed, and there is one for each item and those that move the pointer on. -/
theorem planDelete_ok {items : List Item} {existing : Resource}
    (hload : Resource.load m t id = .ok (items, existing)) (hnone : r.Childless setup.catalog t.code id) :
    ∃ (b : Batch) (k : Nat), Resource.planDelete setup m t id = .ok b.ops ∧ b.Keyed ∧ r.Moves t id k ∧
      b.size = (m.itemsIn (Key.resource t.code id)).length + k ∧
      ∀ key op, b.find? key = some op → op.allowed (m.items.find? key) = true := by
  obtain ⟨rfl, e, he, hread⟩ := h.load_inv hc ht hload
  obtain ⟨b, hb, hkeyed, hkept, _⟩ := Resource.deleteAll_resource hc h ht he hnone
  obtain ⟨hsize, hfree, hpending⟩ := Resource.deleteAll_partition h.keyed _ hb
  have hallowed : ∀ {op : WriteOp} {current : Option Item}, op.condition = none →
      op.allowed current = true := by
    intro op current hop
    rw [WriteOp.allowed, hop]
  have hchildless := h.checkChildless hc hnone
  cases hv : t.versioning with
  | none =>
    refine ⟨b, 0, ?_, hkeyed, .unnamed fun parentId p hp => ?_, hsize,
      fun key op hop => hallowed (hfree key op hop)⟩
    · simp only [Resource.planDelete, hload, hchildless, hb, hv, bind, Except.bind, pure, Except.pure,
        Outcome.mapError_ok]
    · obtain ⟨t', v, _, ht', hv', _⟩ := h.sound.pointers _ _ p hp
      obtain rfl := Option.some.inj (ht.symm.trans ht')
      rw [hv] at hv'
      cases hv'
  | some v =>
    obtain ⟨parentId, ordering, hs⟩ := (h.sound.entry ht he).2.standing v hv
    have hparent := (Resource.standing_eq_ok_iff.mp hs).1
    have hfind := h.find?_pointer ht hv parentId
    have hplan : ∀ b' : Batch, Version.removeChild m b t.code v parentId id = .ok b' →
        Resource.planDelete setup m t id = .ok b'.ops := by
      intro b' hremove
      have hfields : Checks.requiredText existing.fields v.parentField = .ok parentId :=
        hread.fields ▸ hparent
      simp only [Resource.planDelete, hload, hchildless, hb, hv, hfields, hremove, bind, Except.bind, pure,
        Except.pure, Outcome.mapError_ok]
    by_cases hnewest : ∃ p, r.pointers t.code parentId = some p ∧ p.child = id
    · obtain ⟨p, hp, rfl⟩ := hnewest
      rw [hp] at hfind
      have hoff : ∀ i, i ≠ p.child → Key.resource t.code i ≠ Key.resource t.code p.child := fun i hi he =>
        hi (Key.resource_right_inj.mp he)
      obtain ⟨next, hsearch, hnext⟩ := h.search_newest hc ht hv parentId b p.child fun i hi => by
        rw [Batch.deletes, hkept _ (hoff i hi)]
        rfl
      have hpointerKey := hnone.pointerKey_partition_ne hc ht hv he hs
      have hflag : (m.items.find? (Version.latestKey t.code p.child)).isSome = true := by
        rw [h.find?_flag ht, if_pos ((h.sound.isNewest_iff_named ht).mpr ⟨parentId, p, hp, rfl⟩)]
        rfl
      refine ⟨_, _, hplan _ (Version.removeChild_newest hfind hsearch), Version.keyed_repoint hkeyed,
        .newest hv hp rfl hnext, ?_, fun key op hop => ?_⟩
      · rw [Version.size_repoint (hpending _ hflag rfl) (hkept _ hpointerKey) fun q hq => ?_, hsize]
        exact ⟨hkept _ (hoff q.child (hnext.child q hq).1),
          Ne.symm (hc.tagKey_ne_pointerKey ht _ _ v parentId)⟩
      · rcases Version.condition_repoint hfree hop with hcondition | ⟨rfl, hcondition⟩
        · exact hallowed hcondition
        · rw [WriteOp.allowed, hcondition, h.mirrors.pointers t v parentId ht hv, hp]
          exact (Version.holds_names_iff _ p _).mpr rfl
    · have hnot : ∀ p, r.pointers t.code parentId = some p → p.child ≠ id := fun p hp hid =>
        hnewest ⟨p, hp, hid⟩
      refine ⟨b, 0, hplan b (Version.removeChild_unnamed hfind hnot b), hkeyed,
        .unnamed fun pid p hp hid => ?_, hsize, fun key op hop => hallowed (hfree key op hop)⟩
      obtain rfl := h.sound.eq_parent ht hv he hs hp hid
      exact hnot p hp hid

/-- Without faults to come, a resource that can be read and has no children is deleted if that does not take
more writes than one batch may have, and else nothing is changed. -/
theorem delete_fits (hfaults : m.faults = []) {existing : Resource}
    (hget : Resource.get setup m t.code id = .ok existing) (hnone : r.Childless setup.catalog t.code id) :
    ∃ k, r.Moves t id k ∧
      let writes := (m.itemsIn (Key.resource t.code id)).length + k
      (writes ≤ maxBatch → ∃ m', Resource.delete setup m t.code id = (.ok (), m')) ∧
      (maxBatch < writes →
        Resource.delete setup m t.code id = (.error (.store (.invalid (.batchTooLarge writes))), m)) := by
  have htype : Resource.findType setup t.code = .ok t := Resource.findType_eq_ok_iff.mpr ht
  obtain ⟨⟨items, found⟩, hload⟩ : ∃ loaded, Resource.load m t id = .ok loaded := by
    simp only [Resource.get, htype] at hget
    cases hload : Resource.load m t id with
    | error e => simp only [hload, bind, Except.bind, reduceCtorEq] at hget
    | ok loaded => exact ⟨loaded, rfl⟩
  obtain ⟨b, k, hplan, hkeyed, hk, hsize, hallowed⟩ := h.planDelete_ok hc ht hload hnone
  have hdelete : Resource.delete setup m t.code id = Commit.batch setup.settings.attempts b.ops m := by
    rw [Resource.delete, htype]
    simp only [hplan, bind, Except.bind]
  refine ⟨k, hk, fun hfits => ?_, fun hlarge => ?_⟩
  · obtain ⟨m', hcommit, _⟩ := Commit.batch_ok setup.settings.attempts hkeyed (hsize ▸ hfits) hfaults hallowed
    exact ⟨m', hdelete.trans hcommit⟩
  · rw [hdelete, Commit.batch_tooLarge _ (hsize ▸ hlarge), hsize]

end Stands

namespace Holds
variable {setup : Setup} (hc : setup.catalog.Sound) {m : Memory} {r : Registry}
  (h : Holds setup.catalog m r) {t : ResourceType} (ht : setup.catalog.Has t) {id : String}
include hc h ht

theorem latestChild_eq_some {v : Versioning} (hv : t.versioning = some v) {parentId : String} {n : Resource}
    (hn : Resource.latestChild setup m t.code parentId = .ok (some n)) :
    ∃ p, r.pointers t.code parentId = some p ∧ n.id = p.child := by
  rw [h.latestChild_eq hc ht hv, Except.ok.injEq, Registry.newest?, Option.bind_eq_some_iff] at hn
  obtain ⟨p, hp, hn⟩ := hn
  obtain ⟨e, _, rfl⟩ := Option.map_eq_some_iff.mp hn
  exact ⟨p, hp, rfl⟩

/-- How many writes it takes to move on a pointer that names what is deleted. -/
theorem handover {v : Versioning} (hv : t.versioning = some v) {parentId : String} {p : Pointer}
    (hp : r.pointers t.code parentId = some p) {e : Entry} (he : r.entries t.code p.child = some e)
    {next : Option Pointer} (hnext : r.Succeeds t v parentId p.child next) :
    Resource.Handover setup m t (e.resource t p.child) (if next.isSome then 2 else 1) := by
  obtain ⟨e', he', hs⟩ := h.sound.pointee ht hv hp
  obtain rfl := Option.some.inj (he.symm.trans he')
  have htext : ∀ {e : Entry} {ordering : String}, Resource.standing v e.fields = .ok (parentId, ordering) →
      e.fields.text? v.parentField = some parentId := fun hs =>
    (Checks.requiredText_eq_ok_iff.mp (Resource.standing_eq_ok_iff.mp hs).1).1
  have hn : Resource.latestChild setup m t.code parentId = .ok (some (e.resource t p.child)) := by
    rw [h.latestChild_eq hc ht hv, Registry.newest?, hp, Option.bind_some, he]
    rfl
  cases next with
  | some q =>
    obtain ⟨hne, d, hd, hsd⟩ := hnext.child q rfl
    exact .next hv (htext hs) hn rfl (Resource.get_some h hc ht hd) (htext hsd) hne
  | none =>
    refine .last hv (htext hs) hn rfl fun i s' hs' hsibling => ?_
    obtain ⟨t', d, ht', hd, rfl⟩ := Resource.get_eq_ok h hc hs'
    obtain rfl := Option.some.inj (ht.symm.trans ht')
    obtain ⟨parentId', ordering, hsd⟩ := (h.sound.entry ht hd).2.standing v hv
    have hparent := (Checks.requiredText_eq_ok_iff.mp (Resource.standing_eq_ok_iff.mp hsd).1).1
    obtain rfl := Option.some.inj (hparent.symm.trans hsibling)
    refine Classical.byContradiction fun hne => ?_
    obtain ⟨q, hq, _⟩ := hnext.greatest i d ordering hd hne hsd
    cases hq

variable {e : Entry} (he : r.entries t.code id = some e)
include he

/-- Without faults to come, a resource without children is deleted if that does not take more writes than
one batch may have, and else nothing is changed. -/
theorem delete_eq (hnone : r.Childless setup.catalog t.code id) (hfaults : m.faults = []) :
    ∃ k, Resource.Handover setup m t (e.resource t id) k ∧
    let writes := (m.itemsIn (Key.resource t.code id)).length + k
    (writes ≤ maxBatch → ∃ m', Resource.delete setup m t.code id = (.ok (), m') ∧
      m'.itemsIn (Key.resource t.code id) = [] ∧
      Resource.get setup m' t.code id = .error (.notFound t.name id)) ∧
    (maxBatch < writes →
      Resource.delete setup m t.code id = (.error (.store (.invalid (.batchTooLarge writes))), m)) := by
  obtain ⟨k, hk, hfits, hlarge⟩ := h.delete_fits hc ht hfaults (Resource.get_some h hc ht he) hnone
  refine ⟨k, ?_, fun hwrites => ?_, hlarge⟩
  · cases hk with
    | unnamed hnot =>
      refine .unnamed fun v parentId n hv _ hn hid => ?_
      obtain ⟨p, hp, hchild⟩ := h.latestChild_eq_some hc ht hv hn
      exact hnot parentId p hp (hchild.symm.trans hid)
    | newest hv hp hid hnext =>
      subst hid
      exact h.handover hc ht hv hp he hnext.toSucceeds
  · obtain ⟨m', hdelete⟩ := hfits hwrites
    refine ⟨m', hdelete, ?_⟩
    rcases Resource.delete_cases hc h t.code id with ⟨⟨err, herr⟩, _⟩ | ⟨_, r', _, _, _, hentries, hholds⟩
    · rw [hdelete] at herr
      cases herr
    · rw [hdelete] at hholds
      have hgone : r'.entries t.code id = none := by
        rw [hentries]
        exact Registry.entries_setEntry_self _ _ _ _
      refine ⟨hholds.itemsIn_eq_nil hc ht hgone fun t' field ht' hf i d hd => ?_, ?_⟩
      · rw [hentries] at hd
        by_cases hself : t'.code = t.code ∧ i = id
        · rw [hself.1, hself.2, Registry.entries_setEntry_self] at hd
          cases hd
        · rw [Registry.entries_setEntry_of_ne _ _ _ _ hself] at hd
          exact hnone t' field ht' hf i d hd
      · rw [Resource.get, Resource.findType_eq_ok_iff.mpr ht]
        simp only [bind, Except.bind, hholds.load_none hc ht hgone]

end Holds

/-- The partition of a resource holds an item for each of its tags. -/
theorem Holds.length_le_itemsIn {c : Catalog} (hc : c.Sound) {m : Memory} {r : Registry} (h : Holds c m r)
    {t : ResourceType} (ht : c.Has t) {id : String} {e : Entry} (he : r.entries t.code id = some e)
    {names : List String} (hapart : names.Nodup)
    (htags : ∀ name ∈ names, ∃ value, e.tags.find? name = some value) :
    names.length ≤ (m.itemsIn (Key.resource t.code id)).length := by
  have hnodup : (names.map (Tag.key (Key.resource t.code id))).Nodup := by
    refine List.pairwise_map.mpr (hapart.imp fun hne hkey => hne ?_)
    exact Key.tagSort_inj.mp (congrArg ItemKey.sort hkey)
  have hsub : names.map (Tag.key (Key.resource t.code id)) ⊆ m.keysIn (Key.resource t.code id) := by
    intro key hkey
    obtain ⟨name, hname, rfl⟩ := List.mem_map.mp hkey
    obtain ⟨value, hvalue⟩ := htags name hname
    have hsound := (h.sound.entry ht he).2
    have huser := (Checks.tagName_spec (hsound.tags name value hvalue)).2
    have htag : r.tag? t id name = some value := (h.sound.tag?_eq_some_iff hc ht).mpr
      (.inr ⟨e, he, (Entry.find?_allTags_of_user hsound.tags huser).trans hvalue⟩)
    refine Memory.mem_keysIn.mpr ⟨rfl, ?_⟩
    rw [h.mirrors.tags t id name ht, htag]
    rfl
  have hle := hnodup.length_le_of_subset hsub
  rwa [List.length_map, Memory.length_keysIn] at hle

/-- Whether no stored resource names this one in a field that links it to a parent. -/
def Resource.Unnamed (setup : Setup) (m : Memory) (code id : String) : Prop :=
  ∀ t field i s, setup.catalog.Has t → field ∈ t.linksTo code → get setup m t.code i = .ok s →
    s.fields.text? field ≠ some id

theorem Resource.Unnamed.childless {setup : Setup} (hc : setup.catalog.Sound) {m : Memory} {r : Registry}
    (h : Holds setup.catalog m r) {code id : String} (hnone : Unnamed setup m code id) :
    r.Childless setup.catalog code id := by
  intro t field ht hf i e he hid
  exact hnone t field i _ ht hf (get_some h hc ht he) (Checks.requiredText_eq_ok_iff.mp hid).1

/-- Once no fault is to come, a resource that no other names can be deleted just if that takes no more
writes than one batch may have: one for each of its items, and those that move a pointer on. It is gone
then, and else everything stays. -/
theorem Call.runAll_deletable (settings : Settings) {calls : List Call}
    (htimely : ∀ call ∈ calls, call.Timely) {t : ResourceType} (ht : Catalog.standard.Has t)
    {id : String} {s : Resource} :
    let setup : Setup := ⟨.standard, settings⟩
    let m := runAll setup calls
    Resource.get setup m t.code id = .ok s → Resource.Unnamed setup m t.code id → m.faults = [] →
      (∃ k, Resource.Handover setup m t s k) ∧ ∀ k, Resource.Handover setup m t s k →
        let writes := (m.itemsIn (Key.resource t.code id)).length + k
        (writes ≤ maxBatch → ∃ m', Resource.delete setup m t.code id = (.ok (), m') ∧
          m'.itemsIn (Key.resource t.code id) = [] ∧
          Resource.get setup m' t.code id = .error (.notFound t.name id)) ∧
        (maxBatch < writes →
          Resource.delete setup m t.code id = (.error (.store (.invalid (.batchTooLarge writes))), m)) := by
  intro setup m hget hunnamed hfaults
  have hc : setup.catalog.Sound := Catalog.standard_sound
  obtain ⟨r, h⟩ := @runAll_holds setup hc Catalog.standard_apart calls htimely
  obtain ⟨t', e, ht', he, rfl⟩ := Resource.get_eq_ok h hc hget
  obtain rfl := Option.some.inj (ht.symm.trans ht')
  obtain ⟨k, hk, hdelete⟩ := h.delete_eq hc ht he (hunnamed.childless hc h) hfaults
  refine ⟨⟨k, hk⟩, fun j hj => ?_⟩
  rw [hj.unique hk]
  exact hdelete

/-- The state of the polygon `c` is its only one, so that the pointer goes with it. -/
theorem Call.runAll_deletable_state :
    let setup : Setup := ⟨.standard, {}⟩
    let m := runAll setup toState
    (∀ call ∈ toState, call.Timely) ∧ Catalog.standard.Has Catalog.state ∧
      Resource.Unnamed setup m "s" "d" ∧ m.faults = [] ∧ ∃ s m', Resource.get setup m "s" "d" = .ok s ∧
        Resource.delete setup m "s" "d" = (.ok (), m') ∧ m'.itemsIn (Key.resource "s" "d") = [] := by
  intro setup m
  have ht : Catalog.standard.Has Catalog.state := rfl
  have hunnamed : Resource.Unnamed setup m "s" "d" := by
    intro t field i s ht hf _
    have hnone : t.linksTo "s" = [] := Catalog.state_childless ht
    rw [hnone] at hf
    cases hf
  obtain ⟨hfaults, hread, hfew⟩ : m.faults = [] ∧ (Resource.get setup m "s" "d").isOk = true ∧
      (m.itemsIn (Key.resource "s" "d")).length ≤ 98 := by decide +kernel
  cases hget : Resource.get setup m "s" "d" with
  | error err =>
    rw [hget] at hread
    cases hread
  | ok s =>
    obtain ⟨⟨k, hk⟩, hdelete⟩ := runAll_deletable {} timely_toState ht hget hunnamed hfaults
    have hmoves : k ≤ 2 := by cases hk <;> decide
    obtain ⟨m', hdone, hgone, _⟩ := (hdelete k hk).1 (Nat.add_le_add hfew hmoves)
    exact ⟨timely_toState, ht, hunnamed, hfaults, s, m', rfl, hdone, hgone⟩

/-- Tags that were set one after the other can be too many to be deleted at once. -/
theorem Call.runAll_undeletable :
    let setup : Setup := ⟨.standard, {}⟩
    let m := runAll setup (tagging 101)
    (∀ call ∈ tagging 101, call.Timely) ∧ (∃ s, Resource.get setup m "g" "a" = .ok s) ∧
      Resource.Unnamed setup m "g" "a" ∧ m.faults = [] ∧ ∃ writes, maxBatch < writes ∧
        Resource.delete setup m "g" "a" = (.error (.store (.invalid (.batchTooLarge writes))), m) := by
  intro setup m
  have hc : setup.catalog.Sound := Catalog.standard_sound
  have ht : setup.catalog.Has Catalog.group := rfl
  obtain ⟨r, e, h, hfaults, honly, he, htags⟩ := runAll_tagging 101
  have hunnamed : Resource.Unnamed setup m "g" "a" := by
    have hnone : Catalog.group.linksTo "g" = [] := by decide
    intro t field i s ht' hf hget
    obtain ⟨_, d, _, hd, _⟩ := Resource.get_eq_ok h hc hget
    obtain rfl := ht'.eq_of_code ht (honly _ _ _ hd).1
    rw [hnone] at hf
    cases hf
  have hmany : 101 ≤ (m.itemsIn (Key.resource "g" "a")).length := by
    have hapart : ((List.range 101).map Tag.tally).Nodup :=
      List.pairwise_map.mpr (List.nodup_range.imp fun hne he => hne (Tag.tally_inj he))
    have hlength := h.length_le_itemsIn hc ht he hapart fun name hname => by
      obtain ⟨i, hi, rfl⟩ := List.mem_map.mp hname
      exact ⟨_, htags i (List.mem_range.mp hi)⟩
    rwa [List.length_map, List.length_range] at hlength
  obtain ⟨k, _, _, hlarge⟩ := h.delete_eq hc ht he (hunnamed.childless hc h) hfaults
  have hover : maxBatch < (m.itemsIn (Key.resource "g" "a")).length + k := by
    have hbound : maxBatch = 100 := rfl
    omega
  exact ⟨timely_tagging 101, ⟨_, Resource.get_some h hc ht he⟩, hunnamed, hfaults, _, hover, hlarge hover⟩

end TagStore
