import TagStore.Proofs.DeletedResources

namespace TagStore

/-- No more keys change than a batch has operations. -/
theorem Batch.length_le_size {b : Batch} {items : SortedMap ItemKey Item} {keys : List ItemKey}
    (hkeys : keys.Nodup) (hchanged : ∀ key ∈ keys, b.effect items key ≠ items.find? key) :
    keys.length ≤ b.size := by
  have hsub : keys ⊆ b.entries.map Prod.fst := by
    intro key hkey
    cases hop : b.find? key with
    | none =>
      refine absurd ?_ (hchanged key hkey)
      rw [Batch.effect, hop]
    | some op => exact List.mem_map.mpr ⟨(key, op), b.mem_entries_of_find? hop, rfl⟩
  have hlength := hkeys.length_le_of_subset hsub
  rwa [List.length_map, Batch.length_entries] at hlength

/-- Whether no more items differ than a batch may have operations. -/
def Memory.WithinBatch (m m' : Memory) : Prop :=
  ∀ keys : List ItemKey, keys.Nodup → (∀ key ∈ keys, m'.items.find? key ≠ m.items.find? key) →
    keys.length ≤ maxBatch

theorem Commit.withinBatch_of_ok {attempts : Nat} {b : Batch} (hb : b.Keyed) {m m' : Memory}
    (hfaults : m.faults = []) (h : batch attempts b.ops m = (.ok (), m')) :
    m'.faults = [] ∧ m.WithinBatch m' := by
  have hsize : b.size ≤ maxBatch := by
    refine Nat.not_lt.mp fun hlarge => ?_
    rw [batch_tooLarge attempts hlarge] at h
    cases h
  obtain ⟨hallowed, heffect⟩ := effect_of_ok hb h
  obtain ⟨m'', hok, _, hfaults'⟩ := batch_ok attempts hb hsize hfaults hallowed
  obtain rfl : m'' = m' := congrArg Prod.snd (hok.symm.trans h)
  refine ⟨hfaults', fun keys hkeys hchanged => Nat.le_trans ?_ hsize⟩
  exact Batch.length_le_size hkeys fun key hkey => heffect ▸ hchanged key hkey

/-- What is created changes no more items than a batch may have operations, and without faults to come leaves
none. -/
theorem Resource.create_withinBatch {setup : Setup} {now : Instant} {ids ids' : Ids} {m m' : Memory}
    {code : String}
    {new : NewResource} {user : String} {created : Resource} (hfaults : m.faults = [])
    (h : create setup now ids m code new user = (.ok created, ids', m')) :
    m'.faults = [] ∧ m.WithinBatch m' := by
  obtain ⟨hanswer, hstore⟩ := create_eq_carryOut setup now ids m code new user
  rw [h] at hanswer hstore
  cases hplan : createPlan setup now ids.take.1 m code new user with
  | error err =>
    rw [hplan] at hanswer
    cases hanswer
  | ok ops =>
    obtain ⟨t, _, hrest⟩ := Outcome.bind_eq_ok_iff.mp hplan
    obtain ⟨fields, _, hcreate⟩ := Outcome.bind_eq_ok_iff.mp hrest
    obtain ⟨_, b, _, rfl, hkeyed, _⟩ := planCreate_creates hcreate
    rw [hplan, carryOut] at hanswer hstore
    rcases hcommit : Commit.batch setup.settings.attempts b.ops m with ⟨err | done, m''⟩
    · rw [hcommit] at hanswer
      cases hanswer
    · rw [hcommit] at hstore
      obtain rfl : m' = m'' := hstore
      exact Commit.withinBatch_of_ok hkeyed hfaults hcommit

/-- In the standard catalog, only the parent of a type is named by its resources. -/
theorem Catalog.parent_of_linksTo {t : ResourceType} (ht : standard.Has t) {code field : String}
    (hf : field ∈ t.linksTo code) : t.parent = some ⟨code, field⟩ := by
  simp only [ResourceType.linksTo, List.mem_append, List.mem_filter, Option.mem_toList, Option.map_eq_some_iff,
    Option.filter_eq_some_iff, decide_eq_true_eq] at hf
  rcases hf with ⟨_, ⟨hlink, rfl⟩, rfl⟩ | ⟨⟨v, ⟨hv, rfl⟩, rfl⟩, _⟩
  · exact hlink
  · obtain ⟨rfl, rfl⟩ := eq_state_of_versioning ht hv
    rfl

/-- What becomes of the pointer of a parent where its newest child goes and others stand level with the one
that it named before that child came: it names the one of them with the greatest id. -/
structure Memory.PassedOn (m m' : Memory) (t : ResourceType) (v : Versioning) (parentId : String)
    (p q : Pointer) : Prop where
  named : Pointer.find? m (Pointer.key t.code v parentId) = .ok (some p)
  child : m.HasChild t v parentId q
  level : q.ordering = p.ordering
  beyond : p.child < q.child
  greatest : ∀ s, m.HasChild t v parentId s → s.ordering = p.ordering → ¬ q.child < s.child
  set : m'.items.find? (Pointer.key t.code v parentId) =
    some (Pointer.item (Pointer.key t.code v parentId) q)
  lost : m'.items.find? (Version.latestKey t.code p.child) = none
  gained : m'.items.find? (Version.latestKey t.code q.child) = some (Version.latestItem t.code q.child)
  others : ∀ key, key ≠ Pointer.key t.code v parentId → key ≠ Version.latestKey t.code p.child →
    key ≠ Version.latestKey t.code q.child → m'.items.find? key = m.items.find? key

/-- Whether a store is as it was before a resource was created. The pointer of the parent is passed on if the
resource took it over from a child that stands level with one of a greater id. -/
inductive Resource.Undone (m m' : Memory) (t : ResourceType) (created : Resource) : Prop where
  | same
    (hlevel : ∀ v parentId ordering p q, t.versioning = some v →
      standing v created.fields = .ok (parentId, ordering) →
      Pointer.find? m (Pointer.key t.code v parentId) = .ok (some p) → ¬ ordering < p.ordering →
      m.HasChild t v parentId q → q.ordering = p.ordering → ¬ p.child < q.child)
    (hitems : m'.items = m.items)
  | passed {v : Versioning} {parentId ordering : String} {p q : Pointer} (hv : t.versioning = some v)
    (hs : standing v created.fields = .ok (parentId, ordering)) (hnewer : ¬ ordering < p.ordering)
    (hpassed : m.PassedOn m' t v parentId p q)

namespace Stands
variable {c : Catalog} (hc : c.Sound) {m m₁ m₂ : Memory} {r r₂ : Registry} (h : Stands c m r)
  {t : ResourceType} (ht : c.Has t)
include hc h ht

section
variable {v : Versioning} (hv : t.versioning = some v) {parentId : String}
include hv

/-- The first of a parent's children stands level with the one that the pointer names, and of those that do it
has the greatest id. -/
theorem level_of_first {p q : Pointer} (hp : r.pointers t.code parentId = some p)
    (hq : m.HasChild t v parentId q) (hfirst : ∀ s, m.HasChild t v parentId s → q.Precedes s) :
    q.ordering = p.ordering ∧ ∀ s, m.HasChild t v parentId s → s.ordering = p.ordering → ¬ q.child < s.child := by
  obtain ⟨d, hd, hsd⟩ := (h.hasChild_iff ht hc).mp hq
  obtain ⟨p', hp', hnot⟩ := h.sound.greatest t v q.child d parentId q.ordering ht hv hd hsd
  obtain rfl := Option.some.inj (hp.symm.trans hp')
  have hlevel := (hfirst p (h.hasChild_of_named ht hv hc hp)).resolve_left hnot
  refine ⟨hlevel.1, fun s hchild hs => ?_⟩
  rcases hfirst s hchild with hlt | ⟨_, hbeyond⟩
  · exact absurd (hs.trans hlevel.1.symm ▸ hlt) (String.lt_irrefl _)
  · exact hbeyond

omit hc in
/-- A pointer that is set to another child that stands level is passed on to that. -/
theorem passedOn_of_level {p q : Pointer} (hp : r.pointers t.code parentId = some p)
    (hq : m.HasChild t v parentId q) (hlevel : q.ordering = p.ordering) (hbeyond : p.child < q.child)
    (hgreatest : ∀ s, m.HasChild t v parentId s → s.ordering = p.ordering → ¬ q.child < s.child)
    (h₂ : Stands c m₂ (r.setPointer t.code parentId (some q))) : m.PassedOn m₂ t v parentId p q := by
  obtain ⟨e, he, hs⟩ := h.sound.pointee ht hv hp
  obtain ⟨hset, hgained⟩ := Stands.find?_setPointer ht hv h₂
  have hnamed := h.find?_pointer ht hv parentId
  rw [hp] at hnamed
  have hne : p.child ≠ q.child := fun heq => String.lt_irrefl _ (heq ▸ hbeyond)
  have hlost := h₂.find?_flag_of_ne ht hv (r.pointers_setPointer_self t.code parentId (some q)) he hs hne
  refine ⟨hnamed, hq, hlevel, hbeyond, hgreatest, hset, hlost, hgained, fun key hpointer hold hnew => ?_⟩
  refine h.mirrors.eq_of_agreeAt h₂.mirrors (Registry.agreeAt_setPointer ht hv hpointer ?_ ?_)
  · intro q' hq'
    exact Option.some.inj hq' ▸ hnew
  · intro p' hp'
    exact Option.some.inj (hp.symm.trans hp') ▸ hold

/-- Setting a pointer to the first of its parent's children changes nothing, unless it names one that stands
level with the first. -/
theorem passedOn_of_first {next : Option Pointer} (h₂ : Stands c m₂ (r.setPointer t.code parentId next))
    (hnext : ∀ q, next = some q → m.HasChild t v parentId q)
    (hfirst : ∀ s, m.HasChild t v parentId s → ∃ q, next = some q ∧ q.Precedes s) :
    (m₂.items = m.items ∧ ∀ p s, r.pointers t.code parentId = some p → m.HasChild t v parentId s →
      s.ordering = p.ordering → ¬ p.child < s.child) ∨
    ∃ p q, r.pointers t.code parentId = some p ∧ m.PassedOn m₂ t v parentId p q := by
  have hsame : r.pointers t.code parentId = next → m₂.items = m.items := by
    intro hold
    rw [Registry.setPointer_eq_self hold] at h₂
    exact h.items_eq_of_agreeAt h₂ (.refl c r)
  cases next with
  | none =>
    have hnone : r.pointers t.code parentId = none := by
      refine Option.eq_none_iff_forall_ne_some.mpr fun p hp => ?_
      obtain ⟨q, hq, _⟩ := hfirst p (h.hasChild_of_named ht hv hc hp)
      cases hq
    refine .inl ⟨hsame hnone, fun p _ hp => ?_⟩
    rw [hnone] at hp
    cases hp
  | some q =>
    have hq := hnext q rfl
    have hprecedes : ∀ s, m.HasChild t v parentId s → q.Precedes s := by
      intro s hchild
      obtain ⟨q', hq', hprecedes⟩ := hfirst s hchild
      exact Option.some.inj hq' ▸ hprecedes
    obtain ⟨d, hd, hsd⟩ := (h.hasChild_iff ht hc).mp hq
    obtain ⟨p, hp, _⟩ := h.sound.greatest t v q.child d parentId q.ordering ht hv hd hsd
    obtain ⟨hlevel, hgreatest⟩ := h.level_of_first hc ht hv hp hq hprecedes
    by_cases hbeyond : p.child < q.child
    · exact .inr ⟨p, q, hp, h.passedOn_of_level ht hv hp hq hlevel hbeyond hgreatest h₂⟩
    · have hpointee := hprecedes p (h.hasChild_of_named ht hv hc hp)
      obtain rfl : q = p := hpointee.antisymm (.inr ⟨hlevel.symm, hbeyond⟩)
      refine .inl ⟨hsame hp, fun p' s hp' => ?_⟩
      obtain rfl := Option.some.inj (hp.symm.trans hp')
      exact hgreatest s

end

/-- Where a resource has come and gone, the pointer of its parent may have passed to another of the children
that stand level. -/
theorem undone_of_delists {id : String} {e : Entry} (hnone : r.entries t.code id = none)
    (h₁ : Stands c m₁ (r.enlist t id e)) (h₂ : Stands c m₂ r₂) (hdelists : (r.enlist t id e).Delists t id r₂)
    {created : Resource} (hfields : created.fields = e.fields) : Resource.Undone m m₂ t created := by
  have hback : (r.setEntry t.code id (some e)).setEntry t.code id none = r := by
    rw [Registry.setEntry_setEntry, Registry.setEntry_eq_self hnone]
  rcases r.enlist_cases t id e with ⟨heq, holder⟩ | ⟨v, parentId, ordering, hv, hs, hnewer, heq⟩
  · rw [heq] at hdelists
    cases hdelists with
    | unnamed _ =>
      rw [hback] at h₂
      refine .same (fun v parentId ordering p q hv hs hp hnewer _ _ => ?_)
        (h.items_eq_of_agreeAt h₂ (.refl c r))
      obtain ⟨p', hp', hlt⟩ := holder v parentId ordering hv (hfields ▸ hs)
      rw [h.find?_pointer ht hv, hp', Except.ok.injEq, Option.some.injEq] at hp
      exact absurd (hp ▸ hlt) hnewer
    | newest _ hp hid _ => exact absurd hid (h.sound.child_ne hnone hp)
  · have hself : (r.enlist t id e).pointers t.code parentId = some ⟨id, ordering⟩ := by
      rw [heq, Registry.pointers_setPointer_self]
    have hentries : ∀ i, i ≠ id → (r.enlist t id e).entries t.code i = r.entries t.code i :=
      fun i hne => r.entries_enlist_of_ne fun hboth => hne hboth.2
    cases hdelists with
    | unnamed hnot => exact absurd rfl (hnot parentId _ hself)
    | @newest v' pid p₁ next hv' hp₁ hid hheads =>
      obtain rfl := Option.some.inj (hv.symm.trans hv')
      obtain rfl := h₁.sound.eq_parent ht hv (r.entries_enlist t id e) hs hp₁ hid
      have hr₂ : ((r.enlist t id e).setEntry t.code id none).setPointer t.code pid next =
          r.setPointer t.code pid next := by
        rw [heq, Registry.setPointer_setEntry, Registry.setPointer_setPointer, hback]
      rw [hr₂] at h₂
      have hpassed := h.passedOn_of_first hc ht hv h₂ (fun q hq => ?_) fun s hchild => ?_
      · rcases hpassed with ⟨hitems, hgreatest⟩ | ⟨p, q, hp, hpassed⟩
        · refine .same (fun v' pid' ordering' p q hv' hs' hp _ hchild => ?_) hitems
          obtain rfl := Option.some.inj (hv.symm.trans hv')
          rw [hfields, hs] at hs'
          cases hs'
          rw [h.find?_pointer ht hv, Except.ok.injEq] at hp
          exact hgreatest p q hp hchild
        · exact .passed hv (hfields ▸ hs) (hnewer p hp) hpassed
      · obtain ⟨hne, d, hd, hsd⟩ := hheads.child q hq
        exact (h.hasChild_iff ht hc).mpr ⟨d, hentries _ hne ▸ hd, hsd⟩
      · obtain ⟨d, hd, hsd⟩ := (h.hasChild_iff ht hc).mp hchild
        have hne : s.child ≠ id := by
          intro hs
          rw [hs, hnone] at hd
          cases hd
        exact hheads.first s.child d s.ordering ((hentries _ hne).trans hd) hne hsd

section
variable {id : String} {e : Entry} (hnone : r.entries t.code id = none) (h₁ : Stands c m₁ (r.enlist t id e))
  (hchildless : (r.enlist t id e).Childless c t.code id)
include hnone h₁ hchildless

/-- As many items were changed elsewhere when a resource came as its deletion has to change. -/
theorem moved_of_moves {k : Nat} (hk : (r.enlist t id e).Moves t id k) :
    ∃ moved : List ItemKey, moved.Nodup ∧ moved.length = k ∧ ∀ key ∈ moved,
      key.partition ≠ Key.resource t.code id ∧ m₁.items.find? key ≠ m.items.find? key := by
  cases hk with
  | unnamed _ => exact ⟨[], List.nodup_nil, rfl, List.forall_mem_nil _⟩
  | @newest v parentId p next hv hp hid hheads =>
    subst hid
    obtain ⟨d, hd, hs⟩ := h₁.sound.pointee ht hv hp
    have hapart := hchildless.pointerKey_partition_ne hc ht hv hd hs
    have hpointer : m₁.items.find? (Pointer.key t.code v parentId) ≠
        m.items.find? (Pointer.key t.code v parentId) := by
      rw [h₁.mirrors.pointers t v parentId ht hv, h.mirrors.pointers t v parentId ht hv, hp]
      intro heq
      obtain ⟨p', hp', hitem⟩ := Option.map_eq_some_iff.mp heq.symm
      obtain rfl := Pointer.item_inj hitem
      exact h.sound.child_ne hnone hp' rfl
    cases next with
    | none => exact ⟨[_], List.pairwise_singleton _ _, rfl, List.forall_mem_singleton.mpr ⟨hapart, hpointer⟩⟩
    | some q =>
      have hkept : ∀ i, i ≠ p.child → (r.enlist t p.child e).entries t.code i = r.entries t.code i :=
        fun i hne => r.entries_enlist_of_ne fun hboth => hne hboth.2
      -- the pointer named another child before
      obtain ⟨hne, d', hd', hs'⟩ := hheads.child q rfl
      rw [hkept _ hne] at hd'
      obtain ⟨old, hold, _⟩ := h.sound.greatest t v q.child d' parentId q.ordering ht hv hd' hs'
      obtain ⟨f, hf, hsf⟩ := h.sound.pointee ht hv hold
      have hother : old.child ≠ p.child := h.sound.child_ne hnone hold
      have hflag : m₁.items.find? (Version.latestKey t.code old.child) ≠
          m.items.find? (Version.latestKey t.code old.child) := by
        rw [h₁.find?_flag_of_ne ht hv hp ((hkept _ hother).trans hf) hsf hother, h.find?_flag ht,
          if_pos ((h.sound.isNewest_iff_named ht).mpr ⟨parentId, old, hold, rfl⟩)]
        exact (Option.some_ne_none _).symm
      refine ⟨[Pointer.key t.code v parentId, Version.latestKey t.code old.child], ?_, rfl, ?_⟩
      · refine List.nodup_cons.mpr ⟨fun hin => ?_, List.pairwise_singleton _ _⟩
        exact hc.tagKey_ne_pointerKey ht _ _ v parentId (List.mem_singleton.mp hin).symm
      · refine List.forall_mem_cons.mpr ⟨⟨hapart, hpointer⟩, List.forall_mem_singleton.mpr ⟨?_, hflag⟩⟩
        exact fun hpartition => hother (Key.resource_right_inj.mp hpartition)

/-- A resource that has come can go if no more items changed than one batch may have operations. -/
theorem delete_of_changed {setup : Setup} (hcatalog : setup.catalog = c) (hfaults : m₁.faults = [])
    (hempty : m.itemsIn (Key.resource t.code id) = []) (hchanged : m.WithinBatch m₁) {created : Resource}
    (hget : Resource.get setup m₁ t.code id = .ok created) :
    ∃ m₂, Resource.delete setup m₁ t.code id = (.ok (), m₂) := by
  subst hcatalog
  obtain ⟨k, hk, hfits, _⟩ := h₁.delete_fits hc ht hfaults hget hchildless
  obtain ⟨moved, hnodup, hlength, hmoved⟩ := h.moved_of_moves hc ht hnone h₁ hchildless hk
  have hall := hchanged (m₁.keysIn (Key.resource t.code id) ++ moved) ?_ fun key hkey => ?_
  · rw [List.length_append, Memory.length_keysIn, hlength] at hall
    exact hfits hall
  · refine List.nodup_append.mpr ⟨m₁.nodup_keysIn _, hnodup, fun key hkey key' hkey' heq => ?_⟩
    exact (hmoved key' hkey').1 (heq ▸ (Memory.mem_keysIn.mp hkey).1)
  · rcases List.mem_append.mp hkey with hkey | hkey
    · obtain ⟨hpartition, hsome⟩ := Memory.mem_keysIn.mp hkey
      intro heq
      have hold : key ∈ m.keysIn (Key.resource t.code id) := Memory.mem_keysIn.mpr ⟨hpartition, heq ▸ hsome⟩
      rw [List.length_eq_zero_iff.mp ((m.length_keysIn _).trans (congrArg List.length hempty))] at hold
      cases hold
    · exact (hmoved key hkey).2

end

end Stands

namespace Registry
variable {r r' : Registry}

/-- Whether the parent that fields name is there, if they have to name one. -/
def HasParent (r : Registry) (t : ResourceType) (fields : Item) : Prop :=
  ∀ link, t.parent = some link →
    ∃ parentId, Checks.requiredText fields link.field = .ok parentId ∧ (r.entries link.code parentId).isSome

/-- What was not there when its children would have come has none. -/
theorem childless_of_parents {code id : String} (hnone : r.entries code id = none)
    (hparents : ∀ t i d, Catalog.standard.Has t → r'.entries t.code i = some d → r.HasParent t d.fields) :
    r'.Childless .standard code id := by
  intro t field ht hf i d hd hid
  obtain ⟨parentId, hparent, hstored⟩ := hparents t i d ht hd _ (Catalog.parent_of_linksTo ht hf)
  obtain rfl := Except.ok.inj (hid.symm.trans hparent)
  rw [hnone] at hstored
  cases hstored

/-- A resource that comes had no children, and has none when it has come. -/
theorem Sound.childless_enlist (hr : r.Sound .standard) {t : ResourceType} (ht : Catalog.standard.Has t)
    {id : String} {e : Entry} (hnone : r.entries t.code id = none) (hparent : r.HasParent t e.fields) :
    r.Childless .standard t.code id ∧ (r.enlist t id e).Childless .standard t.code id := by
  have hparents : ∀ t i d, Catalog.standard.Has t → r.entries t.code i = some d → r.HasParent t d.fields :=
    fun t i d ht hd => (hr.entry ht hd).2.parent
  refine ⟨childless_of_parents hnone hparents, childless_of_parents hnone fun t' i d ht' hd => ?_⟩
  by_cases hself : t'.code = t.code ∧ i = id
  · obtain ⟨hcode, rfl⟩ := hself
    obtain rfl := ht'.eq_of_code ht hcode
    obtain rfl := Option.some.inj ((r.entries_enlist _ _ _).symm.trans hd)
    exact hparent
  · rw [r.entries_enlist_of_ne hself] at hd
    exact hparents t' i d ht' hd

end Registry

/-- Without faults to come, what is created can be deleted at once, and that undoes it. -/
theorem Resource.create_undone {settings : Settings} {m m₁ : Memory} {r : Registry}
    (h : Stands .standard m r) (hfaults : m.faults = []) {now : Instant} {ids ids' : Ids} {code : String}
    {new : NewResource} {user : String} {created : Resource}
    (hcreate : create ⟨.standard, settings⟩ now ids m code new user = (.ok created, ids', m₁)) :
    ∃ t m₂, Catalog.standard.types.find? code = some t ∧ created.id = ids.take.1 ∧
      delete ⟨.standard, settings⟩ m₁ code created.id = (.ok (), m₂) ∧ Undone m m₂ t created := by
  let setup : Setup := ⟨.standard, settings⟩
  have hc : setup.catalog.Sound := Catalog.standard_sound
  replace h : Stands setup.catalog m r := h
  obtain ⟨hfaults₁, hchanged⟩ := create_withinBatch hfaults hcreate
  rcases create_enlists hc h now ids (Catalog.standard_apart code _) new user with
    ⟨⟨err, herror⟩, _⟩ | ⟨t, fields, ht, rfl, hfields, hnone, hanswer, h₁⟩
  · rw [hcreate] at herror
    cases herror
  rw [hcreate] at hanswer h₁
  obtain ⟨_, _, hparent⟩ := newFields_spec h hc hfields
  obtain ⟨t', e, ht', he, hread⟩ := get_entry h₁ hc hanswer.symm
  obtain rfl := Option.some.inj (ht.symm.trans ht')
  obtain rfl := Option.some.inj ((r.entries_enlist t _ _).symm.trans he)
  obtain ⟨hnone', hchildless⟩ := h.sound.childless_enlist ht hnone
    (e := fresh fields new.tags now user) hparent
  obtain ⟨m₂, hdelete⟩ := h.delete_of_changed hc ht hnone h₁ hchildless rfl hfaults₁
    (h.itemsIn_eq_nil hc ht hnone hnone') hchanged hanswer.symm
  refine ⟨t, m₂, ht, hread.id, hread.id ▸ hdelete, ?_⟩
  rcases delete_delists hc h₁ t.code ids.take.1 with ⟨⟨err, herror⟩, _⟩ |
    ⟨t', _, r₂, ht', hcode, _, _, _, hdelists, h₂⟩
  · rw [hdelete] at herror
    cases herror
  · obtain rfl := ht'.eq_of_code ht hcode
    rw [hdelete] at h₂
    exact h.undone_of_delists hc ht hnone h₁ h₂ hdelists hread.fields

/-- After any calls and without faults to come, what is created can be deleted at once, and the store is then
as it was before, unless the pointer of the parent is passed on among children that stand level. -/
theorem Call.runAll_undone (settings : Settings) (calls : List Call) (now : Instant) (ids : Ids) (code : String)
    (new : NewResource) (user : String) :
    let setup : Setup := ⟨.standard, settings⟩
    let m := runAll setup calls
    ∀ {created : Resource} {ids' : Ids} {m₁ : Memory}, m.faults = [] →
      Resource.create setup now ids m code new user = (.ok created, ids', m₁) →
      ∃ t m₂, Catalog.standard.types.find? code = some t ∧ created.id = ids.take.1 ∧
        Resource.delete setup m₁ code created.id = (.ok (), m₂) ∧ Resource.Undone m m₂ t created := by
  intro setup m created ids' m₁ hfaults hcreate
  obtain ⟨r, h⟩ := @runAll_stands setup Catalog.standard_sound Catalog.standard_apart calls
  exact Resource.create_undone h hfaults hcreate

/-- A second state of the polygon `c` that is newer takes the pointer over, and gives it back. -/
theorem Call.runAll_undone_newerState :
    let setup : Setup := ⟨.standard, {}⟩
    let m := runAll setup toState
    let new : NewResource :=
      ⟨.ofList [("polygonId", .string "c"), ("timestamp", .string "2024-01-02T00:00:00Z")], .empty⟩
    m.faults = [] ∧ ∃ created ids' m₁ m₂,
      Resource.create setup ⟨4, 0⟩ ⟨some "e", 0⟩ m "s" new "u" = (.ok created, ids', m₁) ∧ created.id = "e" ∧
        Resource.delete setup m₁ "s" "e" = (.ok (), m₂) ∧ Resource.Undone m m₂ Catalog.state created := by
  intro setup m new
  obtain ⟨hfaults, hok⟩ : m.faults = [] ∧
      (Resource.create setup ⟨4, 0⟩ ⟨some "e", 0⟩ m "s" new "u").1.isOk = true := by decide +kernel
  rcases hcreate : Resource.create setup ⟨4, 0⟩ ⟨some "e", 0⟩ m "s" new "u" with ⟨answer, ids', m₁⟩
  rw [hcreate] at hok
  obtain ⟨created, rfl⟩ := Outcome.isOk_iff.mp hok
  obtain ⟨t, m₂, ht, hid, hdelete, hundone⟩ :=
    runAll_undone {} toState ⟨4, 0⟩ ⟨some "e", 0⟩ "s" new "u" hfaults hcreate
  obtain rfl : Catalog.state = t := Option.some.inj ht
  have hid : created.id = "e" := hid
  exact ⟨hfaults, created, ids', m₁, m₂, rfl, hid, hid ▸ hdelete, hundone⟩

/-- Creates two states of the polygon `c` that stand level, the one with the lesser id last. -/
def Call.toLevelStates : List Call :=
  toState ++ [.create ⟨4, 0⟩ ⟨some "b2", 0⟩ "s"
    ⟨.ofList [("polygonId", .string "c"), ("timestamp", .string "2024-01-01T00:00:00Z")], .empty⟩ "u"]

/-- Where two states stand level, the pointer is passed from the one that came last to the one with the
greater id. -/
theorem Call.runAll_undone_levelStates :
    let setup : Setup := ⟨.standard, {}⟩
    let m := runAll setup toLevelStates
    let new : NewResource :=
      ⟨.ofList [("polygonId", .string "c"), ("timestamp", .string "2024-01-02T00:00:00Z")], .empty⟩
    m.faults = [] ∧ ∃ created ids' m₁ m₂,
      Resource.create setup ⟨4, 0⟩ ⟨some "e", 0⟩ m "s" new "u" = (.ok created, ids', m₁) ∧
        Resource.delete setup m₁ "s" "e" = (.ok (), m₂) ∧ m₂.items ≠ m.items := by
  intro setup m new
  obtain ⟨hfaults, hrun⟩ : m.faults = [] ∧
      let after := Resource.create setup ⟨4, 0⟩ ⟨some "e", 0⟩ m "s" new "u"
      after.1.isOk = true ∧ (Resource.delete setup after.2.2 "s" "e").1.isOk = true ∧
        m.newestState? "c" = some "b2" ∧
        (Resource.delete setup after.2.2 "s" "e").2.newestState? "c" = some "d" := by decide +kernel
  rcases hcreate : Resource.create setup ⟨4, 0⟩ ⟨some "e", 0⟩ m "s" new "u" with ⟨answer, ids', m₁⟩
  simp only [hcreate] at hrun
  obtain ⟨hcreated, hdeleted, hbefore, hafter⟩ := hrun
  obtain ⟨created, rfl⟩ := Outcome.isOk_iff.mp hcreated
  obtain ⟨_, hdelete⟩ := Outcome.eq_of_isOk_fst hdeleted
  refine ⟨hfaults, created, ids', m₁, _, rfl, hdelete, fun hsame => ?_⟩
  rw [Memory.newestState?, hsame] at hafter
  exact absurd (hbefore.symm.trans hafter) (by decide)

end TagStore
