import TagStore.Proofs.Families
import TagStore.Proofs.ListWalks

namespace TagStore

/-- A search for the newest child finds one of the parent's stored children. -/
theorem Memory.Keeps.search_child {c : Catalog} (hc : c.Checked) {clock : Instant → Prop} {m : Memory}
    (hm : m.Keeps c clock) {t : ResourceType} (ht : c.Has t) {v : Versioning} (hv : t.versioning = some v)
    {b : Batch} {gone parentId : String} {pages : Nat} {p : Pointer}
    (h : Version.search m b gone pages (Walk.ofRead (Version.newestFirst t.code v parentId)) = .ok (some p)) :
    p.child ≠ gone ∧ (m.family t v).parent p.child = some parentId := by
  obtain ⟨hne, item, hi, hid⟩ := Version.search_some rfl rfl Nat.two_pos h
  refine ⟨hne, ?_⟩
  change item ∈ (m.rows (Version.newestFirst t.code v parentId)).map Prod.snd at hi
  rw [Stands.rows_newestFirst, List.map_map] at hi
  obtain ⟨⟨place, item'⟩, hin, rfl⟩ := List.mem_map.mp hi
  obtain ⟨hin, hhash, hrange, hbegins⟩ := mem_indexed.mp (List.mem_reverse.mp hin)
  rw [Index.hash] at hhash
  rw [Index.range] at hrange
  have hkept := hm _ _ hin
  generalize place.key = key at hkept hin
  cases hkept with
  | tag id value _ _ =>
    rw [Tag.text?_item_parent] at hhash
    cases hhash
  | pointer pid q _ _ =>
    rw [Pointer.text?_item_parent] at hhash
    cases hhash
  | @canonical t' id fields audit item ht' _ hfields _ hitem =>
    cases hv' : t'.versioning with
    | none =>
      rw [Resource.text?_canonical_parent_unversioned hitem hfields hv'] at hhash
      cases hhash
    | some v' =>
      obtain ⟨pid, ordering, hs⟩ := Resource.standing_of_canonical hitem hv'
      obtain ⟨hparent, horder⟩ := Resource.text?_canonical_place hitem hv' hs
      rw [hparent, Option.some.injEq] at hhash
      rw [horder, Option.some.injEq] at hrange
      -- The order begins with the code of the children, so that the item is one of theirs.
      obtain ⟨x, hx⟩ := Key.beginsWith_stem_iff.mp (hrange ▸ hbegins)
      obtain ⟨hcode, _⟩ := Key.resource_inj (hc.hasDelimiter_code ht') (hc.hasDelimiter_code ht) hx
      obtain rfl := ht'.eq_of_code ht hcode
      obtain rfl := Option.some.inj (hv.symm.trans hv')
      obtain rfl := Key.resource_right_inj.mp hhash
      obtain rfl := Option.some.inj ((Resource.text?_canonical_id hitem).symm.trans hid)
      exact Memory.parent_family (hm.fieldsOf?_of_stores ⟨hfields, _, hitem, hin⟩)
        (Resource.standing_eq_ok_iff.mp hs).1

/-- Only pointers are found under their keys. -/
theorem Memory.Keeps.find?_pointer {c : Catalog} (hc : c.Checked) {clock : Instant → Prop} {m : Memory}
    (hm : m.Keeps c clock) {t : ResourceType} (ht : c.Has t) (v : Versioning) (parentId : String) :
    m.items.find? (Pointer.key t.code v parentId) =
      ((m.family t v).pointer parentId).map (Pointer.item (Pointer.key t.code v parentId)) := by
  change _ = (Pointer.at? m.items.find? _).map _
  rw [Pointer.at?]
  cases hf : m.items.find? (Pointer.key t.code v parentId) with
  | none => rfl
  | some item =>
    have hkept := hm _ _ hf
    generalize hkey : Pointer.key t.code v parentId = key at hkept
    cases hkept with
    | canonical ht' hid _ _ _ =>
      exact absurd hkey.symm (hc.canonicalKey_ne_pointerKey_of_ne ht' ht hid v parentId)
    | tag id value _ _ => exact absurd hkey.symm (hc.tagKey_ne_pointerKey ht _ _ v parentId)
    | pointer pid p _ _ => simp [Except.toOption]

namespace Memory
variable {c : Catalog} (hc : c.Checked) {clock : Instant → Prop} {m m' : Memory} (hm : m.Keeps c clock)
  (hm' : m'.Keeps c clock) {t t' : ResourceType} (ht : c.Has t) (ht' : c.Has t') (v : Versioning)
  {id : String} (hothers : ∀ key, ¬ Touches t' id key → m'.items.find? key = m.items.find? key)
include hc hm hm' ht ht' hothers

/-- A call on a resource of another type leaves the parents of this type's resources. -/
theorem parent_family_of_ne (hne : t ≠ t') : (m'.family t v).parent = (m.family t v).parent := by
  funext i
  change (m'.fieldsOf? t i).bind _ = (m.fieldsOf? t i).bind _
  rw [fieldsOf?_of_ne hc hm hm' ht' hothers ht fun h => hne h.1]

theorem parent_family_self (htt : t = t') :
    (m'.family t v).parent = ((m.family t v).setParent id ((m'.family t v).parent id)).parent := by
  subst htt
  funext i
  change (m'.fieldsOf? t i).bind _ = if i = id then (m'.fieldsOf? t id).bind _ else (m.fieldsOf? t i).bind _
  split
  next hi => rw [hi]
  next hi => rw [fieldsOf?_of_ne hc hm hm' ht hothers ht fun h => hi h.2]

variable {v : Versioning} {b : Batch} (heffect : m'.items.find? = b.effect m.items)
include heffect

/-- A batch that spares a family sets the parent of its resource at most. -/
theorem family_setParent (hspares : b.Spares m.items t v) (htt : t = t') :
    m'.family t v = (m.family t v).setParent id ((m'.family t v).parent id) := by
  have hparent := parent_family_self hc hm hm' ht ht' v hothers htt
  rw [family_spared heffect hspares]
  exact congrArg (fun parent => { m.family t v with parent }) hparent

theorem family_other (hspares : b.Spares m.items t v) (hne : t ≠ t') : m'.family t v = m.family t v := by
  rw [family_spared heffect hspares, parent_family_of_ne hc hm hm' ht ht' v hothers hne]

end Memory

namespace Memory.Intact
variable {setup : Setup} (hc : setup.catalog.Checked)
  (hunflagged : ∀ t, setup.catalog.Has t → ∀ field ∈ t.searchable, Key.reserved field ≠ Key.latestTag)
  {m : Memory} (h : m.Intact setup.catalog) {t : ResourceType} (ht : setup.catalog.Has t) {v : Versioning}
  (hv : t.versioning = some v)
include hc hunflagged h ht hv

omit hunflagged in
/-- A batch that creates a resource may make it its parent's newest child. -/
theorem family_creates {m' : Memory} {t' : ResourceType} (ht' : setup.catalog.Has t') {id : String}
    {audit : Resource.Audit} {item : Item} {e : Entry} {b : Batch}
    (hw : m.Written setup.catalog (fun _ => True) m' t' id e.fields audit)
    (hcreates : Resource.Creates m t' id item e b) (heffect : m'.items.find? = b.effect m.items)
    (hspares : (Resource.creation t' id item e).Spares m.items t v) (hnone : m.fieldsOf? t' id = none) :
    (m.family t v).Step t.code (m'.family t v) := by
  by_cases htt : t = t'
  · subst htt
    have hnone' : (m.family t v).parent id = none := congrArg (Option.bind · _) hnone
    have hparent : ∀ parentId ordering, Resource.standing v e.fields = .ok (parentId, ordering) →
        (m'.family t v).parent id = some parentId := fun parentId ordering hs =>
      parent_family (hw.keeps.fieldsOf?_of_stores hw.stores) (Resource.standing_eq_ok_iff.mp hs).1
    cases hcreates with
    | plain =>
      obtain ⟨item, hitem, _⟩ := hw.stores.stored
      obtain ⟨parentId, ordering, hs⟩ := Resource.standing_of_canonical hitem hv
      rw [family_setParent hc h.keeps hw.keeps ht ht' hw.others heffect hspares rfl, hparent _ _ hs]
      exact .add hnone' parentId
    | @newest v' parentId ordering old guard hv' hs hold =>
      obtain rfl := Option.some.inj (hv.symm.trans hv')
      have hold' : (m.family t v).pointer parentId = old := Pointer.at?_of_find? hold
      subst hold'
      have hself := parent_family_self hc h.keeps hw.keeps ht ht' v hw.others rfl
      rw [hparent _ _ hs] at hself
      rw [family_repoint hc ht heffect hspares.pointer fun i _ => hspares.flag i, hself]
      exact .promote hnone' parentId ordering
  · have hall : b.Spares m.items t v := by
      cases hcreates with
      | plain => exact hspares
      | newest guard _ _ _ => exact hspares.repoint hc ht ht' htt _ _ _ guard
    rw [family_other hc h.keeps hw.keeps ht ht' hw.others heffect hall htt]
    exact .same

theorem family_create {ids : Ids} (hid : ids.take.1 ≠ Key.latestMark) (now : Instant) (code : String)
    (new : NewResource) (user : String) : (m.family t v).Step t.code
      ((Resource.create setup now ids m code new user).2.2.family t v) := by
  rcases Resource.create_creates hc h.keeps hid now code new user with
    hitems | ⟨t', fields, item, b, ht', rfl, hfields, hcreates, hnone, heffect⟩
  · rw [family_of_items_eq hitems]
    exact .same
  rcases Resource.create_written hc h.keeps trivial hid t'.code new user with
    ⟨_, hitems⟩ | ⟨t'', fields', ht'', hcode, hfields', hw, _⟩
  · rw [family_of_items_eq hitems]
    exact .same
  obtain rfl := ht'.eq_of_code ht'' hcode.symm
  obtain rfl := Except.ok.inj (hfields.symm.trans hfields')
  obtain ⟨_, htags, _⟩ := Resource.newFields_inv hfields
  exact h.family_creates hc ht hv ht' hw hcreates heffect
    (.creation hc ht ht' hid (hunflagged t' ht') htags item) hnone

/-- A resource that is updated stays its parent's child, and the newest one if it is. -/
theorem family_update (now : Instant) (code id : String) (change : ResourceUpdate) (user : String) :
    (Resource.update setup now m code id change user).2.family t v = m.family t v := by
  rcases Resource.update_written hc h.keeps (fun _ _ _ _ => trivial) now code id change user with
    ⟨_, hitems⟩ | ⟨t', existing, ht', rfl, hstored, hfixed, hw, _⟩
  · exact family_of_items_eq hitems
  have hplan : ∀ ops, Resource.updatePlan setup now m t'.code id change user = .ok ops →
      ∃ b, ops = Batch.ops b ∧ b.Keyed ∧ b.Spares m.items t v := by
    intro ops hops
    rw [Resource.updatePlan, Resource.findType_eq_ok_iff.mpr ht'] at hops
    obtain ⟨items, loaded, item, hload, _, htags, _, hi, rfl⟩ := Resource.planUpdate_inv hops
    obtain ⟨_, hid, _⟩ := h.keeps.load_inv hc ht' hload
    exact ⟨_, rfl, Resource.keyed_revision hi _, .revision hc ht ht' hid (hunflagged t' ht') htags item⟩
  rw [Resource.update_eq_carryOut] at hw ⊢
  rcases Resource.carryOut_effect setup.settings.attempts m (fun m => Resource.get setup m t'.code id) hplan
    with hitems | ⟨b, hspares, _, heffect⟩
  · exact family_of_items_eq hitems
  by_cases htt : t = t'
  · subst htt
    have hfield : v.parentField ∈ t.parentFields := ResourceType.mem_parentFields_iff.mpr (.inr ⟨v, hv, rfl⟩)
    obtain ⟨parentId, hp⟩ := (h.linked t id _ ht hstored).named v.parentField hfield
    have hp' := Resource.requiredText_merge hfixed (ResourceType.mem_fixedFields_of_parentFields hfield) hp
    rw [family_setParent hc h.keeps hw.keeps ht ht' hw.others heffect hspares rfl,
      parent_family (hw.keeps.fieldsOf?_of_stores hw.stores) hp', ← parent_family hstored hp,
      Family.setParent_self]
  · exact family_other hc h.keeps hw.keeps ht ht' hw.others heffect hspares htt

omit hunflagged in
/-- The deletes of a resource without children spare the pointers of a family that is in step. -/
theorem effect_deletes_pointer (hfamily : (m.family t v).InStep t.code) {t' : ResourceType}
    (ht' : setup.catalog.Has t') {id : String} (hplain : Key.hasDelimiter id = false)
    (hchildless : Resource.checkChildless m t' id (setup.catalog.children t'.code) = .ok ()) {b : Batch}
    (hkept : ∀ key, key.partition ≠ Key.resource t'.code id → b.find? key = none)
    (hgone : ∀ key, key.partition = Key.resource t'.code id → b.effect m.items key = none)
    (parentId : String) :
    b.effect m.items (Pointer.key t.code v parentId) = m.items.find? (Pointer.key t.code v parentId) := by
  by_cases hpartition : (Pointer.key t.code v parentId).partition = Key.resource t'.code id
  · obtain ⟨hcode, rfl⟩ := Key.resource_inj_of_plain (hc.hasDelimiter_code ht') hplain hpartition
    rw [hgone _ hpartition, h.keeps.find?_pointer hc ht]
    cases hp : (m.family t v).pointer parentId with
    | none => rfl
    | some p =>
      -- The child that it names would be stored, and the search for children would have found it.
      obtain ⟨fields, hf, htext⟩ := Option.bind_eq_some_iff.mp (hfamily.child parentId p hp)
      obtain ⟨pid, hpid⟩ := (h.linked t p.child fields ht hf).named v.parentField
        (ResourceType.mem_parentFields_iff.mpr (.inr ⟨v, hv, rfl⟩))
      obtain rfl := Option.some.inj ((Checks.requiredText_eq_ok_iff.mp hpid).1.symm.trans htext)
      exact absurd hpid
        (h.requiredText_ne hc hchildless ht hf (hcode ▸ ResourceType.mem_linksTo_versioning hv))
  · rw [Batch.effect, hkept _ hpartition]

omit hunflagged in
/-- A batch that deletes a resource takes no pointer with it but that which names it. -/
theorem family_deletes (hfamily : (m.family t v).InStep t.code) {m' : Memory}
    (hm' : m'.Keeps setup.catalog fun _ => True) {t' : ResourceType} (ht' : setup.catalog.Has t') {id : String}
    (hothers : ∀ key, ¬ Touches t' id key → m'.items.find? key = m.items.find? key) {fields : Item}
    {deletes b : Batch} (hstored : m.fieldsOf? t' id = some fields) (hgone : m'.fieldsOf? t' id = none)
    (hdeletes : Resource.Deletes m t' id fields deletes b) (heffect : m'.items.find? = b.effect m.items)
    (hpointer : ∀ parentId, deletes.effect m.items (Pointer.key t.code v parentId) =
      m.items.find? (Pointer.key t.code v parentId))
    (hflag : ∀ i, deletes.effect m.items (Version.latestKey t.code i) =
      if t = t' ∧ i = id then none else m.items.find? (Version.latestKey t.code i)) :
    (m.family t v).Step t.code (m'.family t v) := by
  by_cases htt : t = t'
  · subst htt
    have hself := parent_family_self hc h.keeps hm' ht ht' v hothers rfl
    have hnone : (m'.family t v).parent id = none := congrArg (Option.bind · _) hgone
    rw [hnone] at hself
    cases hdeletes with
    | unversioned hv' =>
      rw [hv] at hv'
      cases hv'
    | @unnamed v' parentId old hv' hparent hold hne =>
      obtain rfl := Option.some.inj (hv.symm.trans hv')
      have hold' : (m.family t v).pointer parentId = old := Pointer.at?_of_find? hold
      subst hold'
      have hchild := parent_family hstored hparent
      -- The deletes take no tag of a newest child, for this one is not named and so has none.
      have hspares : deletes.Spares m.items t v := by
        refine ⟨hpointer, fun i => (hflag i).trans (ite_eq_right_iff.mpr ?_)⟩
        rintro ⟨_, rfl⟩
        exact (hfamily.flag_eq_none hchild hne).symm
      rw [family_spared heffect hspares, hself]
      exact .remove hchild hne
    | @newest v' parentId ordering next hv' _ hold hnext =>
      obtain rfl := Option.some.inj (hv.symm.trans hv')
      have hold' : (m.family t v).pointer parentId = some ⟨id, ordering⟩ := Pointer.at?_of_find? hold
      rw [← hold'] at heffect
      rw [family_repoint hc ht heffect hpointer, hself]
      · refine .succeed hold' fun q hq => ?_
        subst hq
        exact h.keeps.search_child hc ht hv hnext
      · -- Only the tag of the child that the pointer named may be gone already.
        intro i hi
        refine (hflag i).trans (if_neg fun hself => ?_)
        rw [hold', hself.2] at hi
        simp at hi
  · have hdeleted : deletes.Spares m.items t v :=
      ⟨hpointer, fun i => (hflag i).trans (if_neg fun h => htt h.1)⟩
    have hspares : b.Spares m.items t v := by
      cases hdeletes with
      | unversioned _ => exact hdeleted
      | unnamed _ _ _ _ => exact hdeleted
      | newest _ _ _ _ => exact hdeleted.repoint hc ht ht' htt _ _ _ _
    rw [family_other hc h.keeps hm' ht ht' hothers heffect hspares htt]
    exact .same

omit hunflagged in
theorem family_delete (hfamily : (m.family t v).InStep t.code) (hplain : ∀ t' id, setup.catalog.Has t' →
      (m.fieldsOf? t' id).isSome = true → Key.hasDelimiter id = false) (code id : String) :
    (m.family t v).Step t.code ((Resource.delete setup m code id).2.family t v) := by
  rcases Resource.delete_gone hc h.keeps code id with ⟨_, hitems⟩ |
    ⟨t', ht', rfl, hchildless, hm', hgone, hothers⟩
  · rw [family_of_items_eq hitems]
    exact .same
  rcases Resource.delete_deletes hc h.keeps t'.code id with
    hitems | ⟨t'', fields, deletes, b, ht'', hcode, hstored, hall, hdeletes, heffect⟩
  · rw [family_of_items_eq hitems]
    exact .same
  obtain rfl := ht'.eq_of_code ht'' hcode.symm
  obtain ⟨_, hb, _, hkept, hemptied, _⟩ := Resource.deleteAll_itemsIn h.keeps.keyed (Key.resource t'.code id)
  obtain rfl := Except.ok.inj (hall.symm.trans hb)
  refine h.family_deletes hc ht hv hfamily hm' ht' hothers hstored hgone hdeletes heffect ?_ fun i => ?_
  · exact h.effect_deletes_pointer hc ht hv hfamily ht' (hplain t' id ht' (Option.isSome_of_eq_some hstored))
      hchildless hkept hemptied
  · split
    next hself =>
      obtain ⟨rfl, rfl⟩ := hself
      exact hemptied _ rfl
    next hne => rw [Batch.effect, hkept _ fun hpartition => hne (hc.canonicalKey_inj ht ht' hpartition)]

end Memory.Intact

/-- Whether a resource is created under an id of the form that ids are drawn in: without a delimiter, and not
that which pointers are found by. -/
def Call.Drawn : Call → Prop
  | create _ ids .. => ids.take.1 ≠ Key.latestMark ∧ Key.hasDelimiter ids.take.1 = false
  | update .. => True
  | delete .. => True
  | inject _ => True

theorem Call.Drawn.fresh {call : Call} (h : call.Drawn) : call.Fresh := by
  cases call with
  | create _ ids _ _ _ => exact h.1
  | update _ _ _ _ _ => trivial
  | delete _ _ => trivial
  | inject _ => trivial

/-- A store in which the pointers and the tags of newest children are in step. -/
structure Memory.Tagged (c : Catalog) (m : Memory) : Prop where
  intact : m.Intact c
  plain : ∀ t id, c.Has t → (m.fieldsOf? t id).isSome = true → Key.hasDelimiter id = false
  inStep : ∀ t v, c.Has t → t.versioning = some v → (m.family t v).InStep t.code

namespace Memory.Tagged
variable {setup : Setup} (hc : setup.catalog.Checked)

theorem empty (c : Catalog) : Memory.empty.Tagged c :=
  ⟨.empty c, nofun, fun _ _ _ _ => ⟨nofun, nofun, nofun⟩⟩

variable {m : Memory} (h : m.Tagged setup.catalog)
include h

theorem plain_of_items_eq {m' : Memory} (hitems : m'.items = m.items) : ∀ t id, setup.catalog.Has t →
    (m'.fieldsOf? t id).isSome = true → Key.hasDelimiter id = false := by
  obtain ⟨items, faults⟩ := m
  obtain ⟨items', faults'⟩ := m'
  cases hitems
  exact h.plain

include hc

theorem plain_of_others {m' : Memory} (hm' : m'.Keeps setup.catalog fun _ => True) {t' : ResourceType}
    {id : String} (ht' : setup.catalog.Has t')
    (hothers : ∀ key, ¬ Touches t' id key → m'.items.find? key = m.items.find? key)
    (hown : (m'.fieldsOf? t' id).isSome = true → Key.hasDelimiter id = false) : ∀ t i, setup.catalog.Has t →
      (m'.fieldsOf? t i).isSome = true → Key.hasDelimiter i = false := by
  intro t i ht hsome
  by_cases hself : t = t' ∧ i = id
  · obtain ⟨rfl, rfl⟩ := hself
    exact hown hsome
  · rw [fieldsOf?_of_ne hc h.intact.keeps hm' ht' hothers ht hself] at hsome
    exact h.plain t i ht hsome

/-- Ids stay plain if those that are drawn are. -/
theorem plain_run {call : Call} (hdrawn : call.Drawn) : ∀ t id, setup.catalog.Has t →
    ((call.run setup m).fieldsOf? t id).isSome = true → Key.hasDelimiter id = false := by
  have hm := h.intact.keeps
  cases call with
  | create now ids code new user =>
    rcases Resource.create_written hc hm trivial hdrawn.1 code new user with
      ⟨_, hitems⟩ | ⟨t, fields, ht, rfl, _, hw, _⟩
    · exact h.plain_of_items_eq hitems
    · exact h.plain_of_others hc hw.keeps ht hw.others fun _ => hdrawn.2
  | update now code id change user =>
    rcases Resource.update_written hc hm (fun _ _ _ _ => trivial) now code id change user with
      ⟨_, hitems⟩ | ⟨t, existing, ht, rfl, hold, _, hw, _⟩
    · exact h.plain_of_items_eq hitems
    · exact h.plain_of_others hc hw.keeps ht hw.others fun _ =>
        h.plain t id ht (Option.isSome_of_eq_some hold)
  | delete code id =>
    rcases Resource.delete_gone hc hm code id with ⟨_, hitems⟩ | ⟨t, ht, rfl, _, hkeeps, hgone, hothers⟩
    · exact h.plain_of_items_eq hitems
    · refine h.plain_of_others hc hkeeps ht hothers fun hsome => ?_
      rw [Call.run, hgone] at hsome
      cases hsome
  | inject fault => exact h.plain_of_items_eq rfl

theorem run
    (hunflagged : ∀ t, setup.catalog.Has t → ∀ field ∈ t.searchable, Key.reserved field ≠ Key.latestTag)
    {call : Call} (hdrawn : call.Drawn) : (call.run setup m).Tagged setup.catalog := by
  refine ⟨h.intact.run hc hunflagged hdrawn.fresh, h.plain_run hc hdrawn, fun t v ht hv => ?_⟩
  have hfamily := h.inStep t v ht hv
  cases call with
  | create now ids code new user =>
    exact hfamily.step (h.intact.family_create hc hunflagged ht hv hdrawn.1 now code new user)
  | update now code id change user =>
    rw [Call.run, h.intact.family_update hc hunflagged ht hv]
    exact hfamily
  | delete code id => exact hfamily.step (h.intact.family_delete hc ht hv hfamily h.plain code id)
  | inject fault => exact hfamily

end Memory.Tagged

/-- After any calls a stored resource has the tag of newest children where the pointer of its parent names it,
unless its type keeps that tag for a field of its own. -/
theorem Call.runAll_newestTags {setup : Setup} (hc : setup.catalog.Registered)
    (hplain : ∀ t, setup.catalog.Has t → "isLatest" ∉ t.searchable) {calls : List Call}
    (hdrawn : ∀ call ∈ calls, call.Drawn) :
    let m := runAll setup calls
    ∀ t v, setup.catalog.Has t → t.versioning = some v → ∀ id fields, m.fieldsOf? t id = some fields →
      ∃ parentId, fields.text? v.parentField = some parentId ∧
        ∀ item, m.items.find? (Version.latestKey t.code id) = some item ↔
          item = Version.latestItem t.code id ∧
            ∃ p, m.items.find? (Pointer.key t.code v parentId) =
              some (Pointer.item (Pointer.key t.code v parentId) p) ∧ p.child = id := by
  have hchecked := hc.checked
  have hunflagged : ∀ t, setup.catalog.Has t → ∀ field ∈ t.searchable,
      Key.reserved field ≠ Key.latestTag := by
    intro t ht field hf hname
    obtain rfl : field = "isLatest" := Key.reserved_inj.mp hname
    exact hplain t ht hf
  intro m t v ht hv id fields hf
  have h : m.Tagged setup.catalog := by
    apply runAll_induction (fun m => m.Tagged setup.catalog) (.empty _)
    exact fun m hm call hcall => hm.run hchecked hunflagged (hdrawn call hcall)
  obtain ⟨parentId, hp⟩ := (h.intact.linked t id fields ht hf).named v.parentField
    (ResourceType.mem_parentFields_iff.mpr (.inr ⟨v, hv, rfl⟩))
  refine ⟨parentId, (Checks.requiredText_eq_ok_iff.mp hp).1, fun item => ?_⟩
  have hflag : m.items.find? (Version.latestKey t.code id) = some item ↔ _ :=
    (h.inStep t v ht hv).flag_iff (Memory.parent_family hf hp)
  have hpointer := h.intact.keeps.find?_pointer hchecked ht v parentId
  constructor
  · intro hfind
    obtain ⟨hitem, p, hnamed, hchild⟩ := hflag.mp hfind
    rw [hnamed] at hpointer
    exact ⟨hitem, p, hpointer, hchild⟩
  · rintro ⟨hitem, p, hfind, hchild⟩
    rw [hpointer, Option.map_eq_some_iff] at hfind
    obtain ⟨q, hnamed, hsame⟩ := hfind
    obtain rfl := Pointer.item_inj hsame
    exact hflag.mpr ⟨hitem, q, hnamed, hchild⟩

/-- The state `d` has the tag, for the pointer of its polygon names it. -/
theorem Call.runAll_newestTags_toState :
    let m := runAll ⟨.standard, {}⟩ toState
    let key := Pointer.key "s" ⟨"p", "polygonId", "timestamp"⟩ "c"
    (∀ t, Catalog.standard.Has t → "isLatest" ∉ t.searchable) ∧ (∀ call ∈ toState, call.Drawn) ∧
      (∃ fields, m.fieldsOf? Catalog.state "d" = some fields ∧ fields.text? "polygonId" = some "c") ∧
      m.items.find? (Version.latestKey "s" "d") = some (Version.latestItem "s" "d") ∧
      ∃ p, m.items.find? key = some (Pointer.item key p) ∧ p.child = "d" := by
  intro m key
  have hplain : ∀ t, Catalog.standard.Has t → "isLatest" ∉ t.searchable := by
    intro t ht
    rcases (Catalog.standard_types ht).1 with rfl | rfl | rfl | rfl <;> decide
  have hdrawn : ∀ call ∈ toState, call.Drawn := by
    simp only [toState, List.forall_mem_cons, List.not_mem_nil, false_implies, implies_true, and_true]
    refine ⟨?_, ?_, ?_, ?_⟩ <;> exact ⟨by decide, by decide⟩
  have hstandard : (Setup.mk .standard {}).catalog.Registered := .standard
  have hstate : Catalog.standard.Has Catalog.state := rfl
  obtain ⟨hstored, htagged⟩ : (m.fieldsOf? Catalog.state "d").bind (·.text? "polygonId") = some "c" ∧
      (m.items.find? (Version.latestKey "s" "d")).isSome = true := by decide +kernel
  obtain ⟨fields, hf, htext⟩ := Option.bind_eq_some_iff.mp hstored
  obtain ⟨item, hitem⟩ := Option.isSome_iff_exists.mp htagged
  have hnewest := runAll_newestTags hstandard hplain hdrawn
  obtain ⟨parentId, hp, hflag⟩ := hnewest Catalog.state _ hstate rfl "d" fields hf
  obtain rfl := Option.some.inj (htext.symm.trans hp)
  obtain ⟨rfl, hpointer⟩ := (hflag item).mp hitem
  exact ⟨hplain, hdrawn, ⟨fields, hf, htext⟩, hitem, hpointer⟩

/-- Children of parents with a searchable field that has the name of the tag of newest children. -/
def Catalog.flaggedChild : ResourceType :=
  { code := "c", name := "Child", searchable := ["parentId", "isLatest"]
    versioning := some ⟨"p", "parentId", "at"⟩ }

def Catalog.flagged : Catalog :=
  ⟨.ofList [("c", flaggedChild), ("p", { code := "p", name := "Parent" })]⟩

/-- Such a type can be registered. Then the field gives the tag to a child that the pointer does not name. -/
theorem Call.runAll_newestTags_of_field :
    let child (time : String) (fields : List (String × Json)) : NewResource :=
      ⟨.ofList ([("parentId", .string "a"), ("at", .string time)] ++ fields), .empty⟩
    let calls : List Call :=
      [.create ⟨0, 0⟩ ⟨some "a", 0⟩ "p" ⟨.empty, .empty⟩ "u",
        .create ⟨1, 0⟩ ⟨some "new", 0⟩ "c" (child "2024-01-02T00:00:00Z" []) "u",
        .create ⟨2, 0⟩ ⟨some "old", 0⟩ "c" (child "2024-01-01T00:00:00Z" [("isLatest", .string "true")]) "u"]
    let m := runAll ⟨.flagged, {}⟩ calls
    Catalog.flagged.Registered ∧ Catalog.flagged.Has Catalog.flaggedChild ∧ (∀ call ∈ calls, call.Drawn) ∧
      (∃ fields, m.fieldsOf? Catalog.flaggedChild "old" = some fields ∧ fields.text? "parentId" = some "a") ∧
      (∃ item, m.items.find? (Version.latestKey "c" "old") = some item ∧
        item.text? Attribute.tagValue = some Key.latestValue) ∧
      ∃ item, m.items.find? (Pointer.key "c" ⟨"p", "parentId", "at"⟩ "a") = some item ∧
        item.text? Attribute.id = some "new" := by
  intro child calls m
  have hchild : Catalog.empty.register Catalog.flaggedChild =
      .ok ⟨.ofList [("c", Catalog.flaggedChild)]⟩ := rfl
  have hparent : Catalog.register ⟨.ofList [("c", Catalog.flaggedChild)]⟩ { code := "p", name := "Parent" } =
      .ok .flagged := rfl
  have hdrawn : ∀ call ∈ calls, call.Drawn := by
    simp only [calls, List.forall_mem_cons, List.not_mem_nil, false_implies, implies_true, and_true]
    refine ⟨?_, ?_, ?_⟩ <;> exact ⟨by decide, by decide⟩
  let key := Pointer.key "c" ⟨"p", "parentId", "at"⟩ "a"
  obtain ⟨hstored, htagged, hnamed⟩ :
      (m.fieldsOf? Catalog.flaggedChild "old").bind (·.text? "parentId") = some "a" ∧
      (m.items.find? (Version.latestKey "c" "old")).bind (·.text? Attribute.tagValue) =
        some Key.latestValue ∧
      (m.items.find? key).bind (·.text? Attribute.id) = some "new" := by
    decide +kernel
  exact ⟨.register (.register .empty hchild) hparent, rfl, hdrawn, Option.bind_eq_some_iff.mp hstored,
    Option.bind_eq_some_iff.mp htagged, Option.bind_eq_some_iff.mp hnamed⟩

end TagStore
