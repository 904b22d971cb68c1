import TagStore.Proofs.Loading

namespace TagStore

/-- Whether a child comes before another, or is that, where the newest come first: its ordering is greater, or
the same and its id not less. -/
def Pointer.Precedes (p q : Pointer) : Prop :=
  q.ordering < p.ordering ∨ p.ordering = q.ordering ∧ ¬ p.child < q.child

namespace Pointer.Precedes
variable {p q : Pointer}

theorem refl (p : Pointer) : p.Precedes p := .inr ⟨rfl, String.lt_irrefl _⟩

theorem not_lt (h : p.Precedes q) : ¬ p.ordering < q.ordering := by
  rcases h with hlt | ⟨heq, _⟩
  · exact String.lt_asymm hlt
  · exact heq ▸ String.lt_irrefl _

theorem antisymm (h : p.Precedes q) (h' : q.Precedes p) : p = q := by
  obtain ⟨child, ordering⟩ := p
  obtain ⟨child', ordering'⟩ := q
  rcases h with hlt | ⟨rfl, hnot⟩
  · exact absurd hlt h'.not_lt
  · rcases h' with hlt | ⟨_, hnot'⟩
    · exact absurd hlt (String.lt_irrefl _)
    · obtain rfl : child = child' := String.le_antisymm (String.not_lt.mp hnot') (String.not_lt.mp hnot)
      rfl

end Pointer.Precedes

/-- Whether a pointer is to the first of a parent's children but one, if there are others. -/
structure Registry.Heads (r : Registry) (t : ResourceType) (v : Versioning) (parentId gone : String)
    (next : Option Pointer) : Prop extends r.Succeeds t v parentId gone next where
  first : ∀ id e ordering, r.entries t.code id = some e → id ≠ gone →
    Resource.standing v e.fields = .ok (parentId, ordering) → ∃ p, next = some p ∧ p.Precedes ⟨id, ordering⟩

namespace Version

/-- Whether an item tells of a child, and of one that stays unless it is the one that goes. -/
structure Tells (b : Batch) (gone : String) (item : Item) (p : Pointer) : Prop where
  id : item.text? Attribute.id = some p.child
  order : (item.text? Attribute.order).bind Key.id? = some p.ordering
  stays : p.child ≠ gone → ∃ key, item.key = .ok key ∧ b.deletes key = false

section
variable {b : Batch} {gone : String}

theorem Tells.eq {item : Item} {p q : Pointer} (hp : Tells b gone item p) (hq : Tells b gone item q) :
    p = q := by
  obtain ⟨child, ordering⟩ := p
  obtain ⟨child', ordering'⟩ := q
  have hid := hp.id.symm.trans hq.id
  have horder := hp.order.symm.trans hq.order
  simp only [Option.some.injEq] at hid horder
  rw [hid, horder]

/-- Of children that come in descending order, the survivor is the first but for the one that goes. -/
theorem survivor?_spec {items : List Item} (htells : ∀ item ∈ items, ∃ p, Tells b gone item p)
    (hdesc : items.Pairwise fun x y => ∀ p q, Tells b gone x p → Tells b gone y q → p.Precedes q) :
    ∃ next, survivor? b gone items = .ok next ∧
      (∀ p, next = some p → p.child ≠ gone ∧ ∃ item ∈ items, Tells b gone item p) ∧
      ∀ item ∈ items, ∀ p, Tells b gone item p → p.child ≠ gone →
        ∃ q, next = some q ∧ q.Precedes p := by
  induction items with
  | nil => exact ⟨none, rfl, nofun, nofun⟩
  | cons item items ih =>
    obtain ⟨hbelow, hdesc⟩ := List.pairwise_cons.mp hdesc
    obtain ⟨p, hp⟩ := htells item List.mem_cons_self
    rw [survivor?, hp.id]
    dsimp only
    by_cases hgone : p.child = gone
    · obtain ⟨next, hnext, hsome, hfirst⟩ := ih (fun i hi => htells i (List.mem_cons_of_mem _ hi)) hdesc
      refine ⟨next, by rw [if_pos hgone, hnext], fun q hq => ?_, fun i hi q hq hne => ?_⟩
      · obtain ⟨hne, i, hi, ht⟩ := hsome q hq
        exact ⟨hne, i, List.mem_cons_of_mem _ hi, ht⟩
      · rcases List.mem_cons.mp hi with rfl | hi
        · exact absurd (hp.eq hq ▸ hgone) hne
        · exact hfirst i hi q hq hne
    · obtain ⟨key, hkey, hstays⟩ := hp.stays hgone
      refine ⟨some p, ?_, fun q hq => ?_, fun i hi q hq hne => ?_⟩
      · simp [hgone, hkey, hstays, hp.order, bind, Except.bind, pure, Except.pure]
      · cases hq
        exact ⟨hgone, item, List.mem_cons_self, hp⟩
      · refine ⟨p, rfl, ?_⟩
        rcases List.mem_cons.mp hi with rfl | hi
        · exact hp.eq hq ▸ .refl p
        · exact hbelow i hi p q hp hq

theorem survivor?_append {items rest : List Item} {next : Option Pointer}
    (h : survivor? b gone (items ++ rest) = .ok next) :
    (∃ p, next = some p ∧ survivor? b gone items = .ok (some p)) ∨
      survivor? b gone items = .ok none ∧ survivor? b gone rest = .ok next := by
  induction items with
  | nil => exact .inr ⟨rfl, h⟩
  | cons item items ih =>
    rw [List.cons_append, survivor?] at h
    rw [survivor?]
    split at h
    next hid => exact ih h
    next id hid =>
      split at h
      next hgone => simpa only [if_pos hgone] using ih h
      next hgone =>
        simp only [if_neg hgone]
        obtain ⟨key, hkey, h⟩ := Outcome.bind_eq_ok_iff.mp h
        simp only [hkey, bind, Except.bind]
        split at h
        next hdel => simpa only [if_pos hdel] using ih h
        next hdel =>
          simp only [if_neg hdel]
          split at h
          next ordering horder => exact .inl ⟨_, (Except.ok.inj h).symm, rfl⟩
          next horder => cases h

/-- A survivor is told of by one of the items, and is not the child that goes. -/
theorem survivor?_some {items : List Item} {p : Pointer} (h : survivor? b gone items = .ok (some p)) :
    p.child ≠ gone ∧ ∃ item ∈ items, item.text? Attribute.id = some p.child := by
  induction items with
  | nil => cases h
  | cons item items ih =>
    have hrest : survivor? b gone items = .ok (some p) →
        p.child ≠ gone ∧ ∃ i ∈ item :: items, i.text? Attribute.id = some p.child := by
      intro h
      obtain ⟨hne, i, hi, hid⟩ := ih h
      exact ⟨hne, i, List.mem_cons_of_mem _ hi, hid⟩
    rw [survivor?] at h
    split at h
    · exact hrest h
    next id hid =>
      split at h
      · exact hrest h
      next hne =>
        obtain ⟨key, _, h⟩ := Outcome.bind_eq_ok_iff.mp h
        split at h
        · exact hrest h
        · split at h
          · cases h
            exact ⟨hne, item, List.mem_cons_self, hid⟩
          · cases h

/-- What a search finds is told of by one of the items that are to come. -/
theorem search_some {m : Memory} {pages size : Nat} {w : Walk} (hw : w.exhausted = false)
    (hlimit : w.read.limit = some size) (hsize : 0 < size) {p : Pointer}
    (h : search m b gone pages w = .ok (some p)) :
    p.child ≠ gone ∧ ∃ item ∈ m.ahead w, item.text? Attribute.id = some p.child := by
  induction pages generalizing w with
  | zero => cases h
  | succ pages ih =>
    obtain ⟨w', hpage, hahead, _, _, hread⟩ := m.next_limited hw hlimit hsize
    rw [search, hpage] at h
    obtain ⟨_, hnext, h⟩ := Outcome.bind_eq_ok_iff.mp h
    cases hnext
    obtain ⟨found, hfound, h⟩ := Outcome.bind_eq_ok_iff.mp h
    rw [Outcome.mapError_eq_ok_iff] at hfound
    cases found with
    | some q =>
      cases h
      obtain ⟨hne, item, hi, hid⟩ := survivor?_some hfound
      exact ⟨hne, item, List.mem_of_mem_take hi, hid⟩
    | none =>
      cases hw' : w'.exhausted with
      | false =>
        obtain ⟨hne, item, hi, hid⟩ := ih hw' (by rw [hread]; exact hlimit) h
        exact ⟨hne, item, List.mem_of_mem_drop (hahead ▸ hi), hid⟩
      | true =>
        cases pages with
        | zero => cases h
        | succ pages =>
          simp only [search, Walk.next, hw', if_true] at h
          cases h

/-- Looking through the pages of a walk finds the survivor among all items that are to come. -/
theorem search_eq {m : Memory} {pages size : Nat} {w : Walk} (hw : w.exhausted = false)
    (hlimit : w.read.limit = some size) (hsize : 0 < size) (hpages : (m.ahead w).length < pages)
    {next : Option Pointer} (hnext : survivor? b gone (m.ahead w) = .ok next) :
    search m b gone pages w = .ok next := by
  induction pages generalizing w with
  | zero => omega
  | succ pages ih =>
    obtain ⟨w', hpage, hahead, hend, _, hread⟩ := m.next_limited hw hlimit hsize
    rw [search, hpage]
    rw [← List.take_append_drop size (m.ahead w)] at hnext
    simp only [bind, Except.bind]
    rcases survivor?_append hnext with ⟨p, rfl, hp⟩ | ⟨hnone, hrest⟩
    · rw [hp]
      rfl
    · rw [hnone]
      rw [← hahead] at hrest
      cases hw' : w'.exhausted with
      | false =>
        rw [hw'] at hend
        have hmore := of_decide_eq_false hend.symm
        apply ih hw'
        · rw [hread]
          exact hlimit
        · rw [hahead, List.length_drop]
          omega
        · exact hrest
      | true =>
        rw [Memory.ahead, hw'] at hrest
        obtain rfl := Except.ok.inj hrest
        cases pages with
        | zero => rfl
        | succ pages =>
          simp only [Outcome.mapError_ok, search, Walk.next, hw', if_true]
          rfl

end

end Version

namespace Stands
variable {c : Catalog} {m : Memory} {r : Registry} (h : Stands c m r) (hc : c.Sound)
  {t : ResourceType} (ht : c.Has t) {v : Versioning} (hv : t.versioning = some v) (parentId : String)
include h hc ht hv

/-- The place of a child under its parent. -/
theorem mem_indexed_parentOrder {p : Selection.Place} {item : Item} :
    (p, item) ∈ (Selection.indexed Memory.places .parentOrder (Key.resource v.parentCode parentId)
      (Key.stem t.code) m.items.entries).entries ↔
    ∃ id e ordering, r.entries t.code id = some e ∧
      Resource.standing v e.fields = .ok (parentId, ordering) ∧
      Resource.canonicalItem t id e.fields e.audit = .ok item ∧
      p = ⟨Key.resource t.code ordering, Key.resource t.code id, Key.resource t.code id⟩ := by
  rw [Memory.mem_indexed]
  constructor
  · rintro ⟨hf, hhash, hrange, hb⟩
    rw [Index.hash] at hhash
    rw [Index.range] at hrange
    rcases h.item_cases hf with ⟨t', id, e, ht', he, hi, hk⟩ | ⟨t', id, name, value, _, _, rfl, _⟩ |
      ⟨t', v', pid, q, _, _, _, rfl, _⟩
    · have hsound := (h.sound.entry ht' he).2
      cases hv' : t'.versioning with
      | none =>
        rw [Resource.text?_canonical_parent_unversioned hi hsound.fields hv'] at hhash
        cases hhash
      | some v' =>
        obtain ⟨pid, ordering, hs⟩ := hsound.standing v' hv'
        obtain ⟨hparent, horder⟩ := Resource.text?_canonical_place hi hv' hs
        rw [hparent, Option.some.injEq] at hhash
        rw [horder, Option.some.injEq] at hrange
        obtain ⟨x, hx⟩ := Key.beginsWith_stem_iff.mp (hrange ▸ hb)
        have hcode := (Key.resource_inj (hc.hasDelimiter_code ht') (hc.hasDelimiter_code ht) hx).1
        obtain rfl := ht'.eq_of_code ht hcode
        obtain rfl := Option.some.inj (hv.symm.trans hv')
        obtain rfl := Key.resource_right_inj.mp hhash
        refine ⟨id, e, ordering, he, hs, hi, ?_⟩
        obtain ⟨range, key⟩ := p
        dsimp only at hk hrange ⊢
        rw [hk, ← hrange]
        rfl
    · rw [Tag.text?_item_parent] at hhash
      cases hhash
    · rw [Pointer.text?_item_parent] at hhash
      cases hhash
  · rintro ⟨id, e, ordering, he, hs, hi, rfl⟩
    obtain ⟨hparent, horder⟩ := Resource.text?_canonical_place hi hv hs
    refine ⟨?_, hparent, horder, Key.beginsWith_stem_iff.mpr ⟨ordering, rfl⟩⟩
    dsimp only
    rw [h.mirrors.canonical t id ht (h.sound.entry ht he).1]
    exact Registry.canonical?_eq_some_iff.mpr ⟨e, he, hi⟩

omit h hc ht hv in
theorem rows_newestFirst (childCode : String) (v : Versioning) :
    m.rows (Version.newestFirst childCode v parentId) =
      (Selection.indexed Memory.places .parentOrder (Key.resource v.parentCode parentId)
        (Key.stem childCode) m.items.entries).entries.reverse.map
          (Memory.indexRow (Key.resource v.parentCode parentId)) := by
  rw [Version.newestFirst, Memory.rows_index_whole, Selection.directed_false]

omit h hc ht in
theorem tells {b : Batch} {gone id : String} {e : Entry} {ordering : String} {item : Item}
    (hcode : Key.hasDelimiter t.code = false)
    (hs : Resource.standing v e.fields = .ok (parentId, ordering))
    (hi : Resource.canonicalItem t id e.fields e.audit = .ok item)
    (hstays : id ≠ gone → b.deletes ⟨Key.resource t.code id, Key.resource t.code id⟩ = false) :
    Version.Tells b gone item ⟨id, ordering⟩ := by
  refine ⟨Resource.text?_canonical_id hi, ?_, fun hne => ⟨_, Resource.key_canonical hi, hstays hne⟩⟩
  rw [(Resource.text?_canonical_place hi hv hs).2, Option.bind_some]
  exact Key.id?_resource hcode ordering

theorem mem_newestFirst {item : Item} :
    item ∈ (m.rows (Version.newestFirst t.code v parentId)).map Prod.snd ↔ ∃ id e ordering,
      r.entries t.code id = some e ∧ Resource.standing v e.fields = .ok (parentId, ordering) ∧
      Resource.canonicalItem t id e.fields e.audit = .ok item := by
  rw [rows_newestFirst, List.map_map]
  constructor
  · intro hi
    obtain ⟨⟨place, _⟩, hin, rfl⟩ := List.mem_map.mp hi
    obtain ⟨id, e, ordering, he, hs, hcan, _⟩ :=
      (h.mem_indexed_parentOrder hc ht hv parentId).mp (List.mem_reverse.mp hin)
    exact ⟨id, e, ordering, he, hs, hcan⟩
  · rintro ⟨id, e, ordering, he, hs, hcan⟩
    have hin := (h.mem_indexed_parentOrder hc ht hv parentId).mpr ⟨id, e, ordering, he, hs, hcan, rfl⟩
    exact List.mem_map.mpr ⟨_, List.mem_reverse.mpr hin, rfl⟩

section
variable (b : Batch) (gone : String)
  (hstays : ∀ id, id ≠ gone → b.deletes ⟨Key.resource t.code id, Key.resource t.code id⟩ = false)
include hstays

/-- Children come in the order of their orderings and ids, the greatest first. -/
theorem newestFirst_descends : ((m.rows (Version.newestFirst t.code v parentId)).map Prod.snd).Pairwise
    fun x y => ∀ p q, Version.Tells b gone x p → Version.Tells b gone y q → p.Precedes q := by
  have hcode := hc.hasDelimiter_code ht
  rw [rows_newestFirst, List.map_map]
  apply List.pairwise_map.mpr
  apply List.pairwise_reverse.mpr
  apply List.Pairwise.imp_of_mem _ (SortedMap.sorted _)
  rintro ⟨place, item⟩ ⟨place', item'⟩ hx hy hlt p q hp hq
  obtain ⟨id, e, ordering, he, hs, hcan, rfl⟩ := (h.mem_indexed_parentOrder hc ht hv parentId).mp hx
  obtain ⟨id', e', ordering', he', hs', hcan', rfl⟩ := (h.mem_indexed_parentOrder hc ht hv parentId).mp hy
  obtain rfl := hp.eq (tells hv parentId hcode hs' hcan' (hstays id'))
  obtain rfl := hq.eq (tells hv parentId hcode hs hcan (hstays id))
  rcases Selection.lt_or_of_compare hlt with hranges | ⟨rfl, hkeys⟩
  · exact .inl hranges
  · refine .inr ⟨rfl, fun hless => ?_⟩
    rw [Selection.compare_key_eq, Key.compare_resource, Text.compare_eq_gt_iff.mpr hless] at hkeys
    cases hkeys

/-- The search among the children of a parent ends, and finds the first but for the one that goes, unless the
batch deletes others. -/
theorem search_newest : ∃ next, Version.search m b gone (Store.size m + 1)
      (Walk.ofRead (Version.newestFirst t.code v parentId)) = .ok next ∧
    r.Heads t v parentId gone next := by
  have hcode := hc.hasDelimiter_code ht
  have htells : ∀ item ∈ (m.rows (Version.newestFirst t.code v parentId)).map Prod.snd,
      ∃ p, Version.Tells b gone item p := by
    intro item hi
    obtain ⟨id, e, ordering, he, hs, hcan⟩ := (h.mem_newestFirst hc ht hv parentId).mp hi
    exact ⟨_, tells hv parentId hcode hs hcan (hstays id)⟩
  obtain ⟨next, hnext, hsome, hfirst⟩ :=
    Version.survivor?_spec htells (h.newestFirst_descends hc ht hv parentId b gone hstays)
  have hfirst : ∀ id e ordering, r.entries t.code id = some e → id ≠ gone →
      Resource.standing v e.fields = .ok (parentId, ordering) →
      ∃ p, next = some p ∧ p.Precedes ⟨id, ordering⟩ := by
    intro id e ordering he hne hs
    obtain ⟨item, hcan⟩ := Registry.canonical_of_sound (h.sound.entry ht he).2 id
    exact hfirst item ((h.mem_newestFirst hc ht hv parentId).mpr ⟨id, e, ordering, he, hs, hcan⟩)
      ⟨id, ordering⟩ (tells hv parentId hcode hs hcan (hstays id)) hne
  refine ⟨next, ?_, ⟨fun p hp => ?_, fun id e ordering he hne hs => ?_⟩, hfirst⟩
  · exact Version.search_eq rfl rfl Nat.two_pos (Nat.lt_succ_of_le (m.length_ahead_le _)) hnext
  · obtain ⟨hne, item, hi, htell⟩ := hsome p hp
    obtain ⟨id, e, ordering, he, hs, hcan⟩ := (h.mem_newestFirst hc ht hv parentId).mp hi
    obtain rfl := htell.eq (tells hv parentId hcode hs hcan (hstays id))
    exact ⟨hne, e, he, hs⟩
  · obtain ⟨p, hp, hprecedes⟩ := hfirst id e ordering he hne hs
    exact ⟨p, hp, hprecedes.not_lt⟩

end

end Stands

end TagStore
