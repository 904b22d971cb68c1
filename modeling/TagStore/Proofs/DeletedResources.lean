import TagStore.Proofs.Agreement
import TagStore.Proofs.Deletable
import TagStore.Proofs.KeptItems
import TagStore.Proofs.StalePlans

namespace TagStore

/-- Whether a child of a parent is stored, with its place among the parent's children. -/
def Memory.HasChild (m : Memory) (t : ResourceType) (v : Versioning) (parentId : String) (p : Pointer) : Prop :=
  ∃ fields, m.fieldsOf? t p.child = some fields ∧ Resource.standing v fields = .ok (parentId, p.ordering)

/-- What a deletion changes outside of the partition of what it deletes: nothing, unless a pointer names that.
The pointer goes if no sibling is stored, and else it is set to the one with the greatest ordering, and of
those with the greatest id, which gets the tag of newest children. -/
inductive Resource.Succession (m m' : Memory) (t : ResourceType) (id : String) : Prop where
  | unnamed
    (hnot : ∀ v parentId p, t.versioning = some v →
      Pointer.find? m (Pointer.key t.code v parentId) = .ok (some p) → p.child ≠ id)
    (hothers : ∀ key, key.partition ≠ Key.resource t.code id → m'.items.find? key = m.items.find? key)
  | last {v : Versioning} {parentId ordering : String} (hv : t.versioning = some v)
    (hchild : m.HasChild t v parentId ⟨id, ordering⟩)
    (hnamed : Pointer.find? m (Pointer.key t.code v parentId) = .ok (some ⟨id, ordering⟩))
    (halone : ∀ p, m.HasChild t v parentId p → p.child = id)
    (hgone : m'.items.find? (Pointer.key t.code v parentId) = none)
    (hothers : ∀ key, key.partition ≠ Key.resource t.code id → key ≠ Pointer.key t.code v parentId →
      m'.items.find? key = m.items.find? key)
  | next {v : Versioning} {parentId ordering : String} {next : Pointer} (hv : t.versioning = some v)
    (hchild : m.HasChild t v parentId ⟨id, ordering⟩)
    (hnamed : Pointer.find? m (Pointer.key t.code v parentId) = .ok (some ⟨id, ordering⟩))
    (hnext : m.HasChild t v parentId next) (hne : next.child ≠ id)
    (hfirst : ∀ p, m.HasChild t v parentId p → p.child ≠ id → next.Precedes p)
    (hset : m'.items.find? (Pointer.key t.code v parentId) =
      some (Pointer.item (Pointer.key t.code v parentId) next))
    (hplain : m.items.find? (Version.latestKey t.code next.child) = none)
    (hflag : m'.items.find? (Version.latestKey t.code next.child) =
      some (Version.latestItem t.code next.child))
    (hothers : ∀ key, key.partition ≠ Key.resource t.code id → key ≠ Pointer.key t.code v parentId →
      key ≠ Version.latestKey t.code next.child → m'.items.find? key = m.items.find? key)

/-- A resource that is gone, with what that changes elsewhere. -/
structure Resource.Deleted (setup : Setup) (m m' : Memory) (t : ResourceType) (id : String) : Prop where
  gone : m'.itemsIn (Key.resource t.code id) = []
  succession : Succession m m' t id
  others : ∀ code' id', ¬ (code' = t.code ∧ id' = id) → get setup m' code' id' = get setup m code' id'

namespace Stands
variable {c : Catalog} {m m' : Memory} {r r' : Registry} (h : Stands c m r) {t : ResourceType} (ht : c.Has t)
include h ht

theorem fieldsOf?_eq (hc : c.Sound) (id : String) :
    m.fieldsOf? t id = (r.entries t.code id).map Entry.fields := by
  cases he : r.entries t.code id with
  | none => rw [Memory.fieldsOf?, h.find?_isCanonical_none hc ht he, Option.map_none, Option.map_none]
  | some e =>
    obtain ⟨item, hi, hfind⟩ := (h.stores ht he).find?_isCanonical h.keyed
    rw [Memory.fieldsOf?, hfind, Option.map_some, Option.map_some,
      Resource.filter_canonical hi (h.sound.entry ht he).2.fields]

theorem hasChild_iff (hc : c.Sound) {v : Versioning} {parentId : String} {p : Pointer} :
    m.HasChild t v parentId p ↔ ∃ e, r.entries t.code p.child = some e ∧
      Resource.standing v e.fields = .ok (parentId, p.ordering) := by
  simp only [Memory.HasChild, h.fieldsOf?_eq ht hc, Option.map_eq_some_iff]
  constructor
  · rintro ⟨_, ⟨e, he, rfl⟩, hs⟩
    exact ⟨e, he, hs⟩
  · rintro ⟨e, he, hs⟩
    exact ⟨e.fields, ⟨e, he, rfl⟩, hs⟩

variable {v : Versioning} (hv : t.versioning = some v) {parentId : String}
include hv

theorem hasChild_of_named (hc : c.Sound) {p : Pointer} (hp : r.pointers t.code parentId = some p) :
    m.HasChild t v parentId p :=
  (h.hasChild_iff ht hc).mpr (h.sound.pointee ht hv hp)

/-- A child has not the tag of newest children where the pointer of its parent names another. -/
theorem find?_flag_of_ne {p q : Pointer} (hp : r.pointers t.code parentId = some p) {e : Entry}
    (he : r.entries t.code q.child = some e)
    (hs : Resource.standing v e.fields = .ok (parentId, q.ordering)) (hne : q.child ≠ p.child) :
    m.items.find? (Version.latestKey t.code q.child) = none := by
  rw [h.find?_flag ht, if_neg]
  intro hnewest
  obtain ⟨pid, p', hp', hchild⟩ := (h.sound.isNewest_iff_named ht).mp hnewest
  obtain rfl := h.sound.eq_parent ht hv he hs hp' hchild
  obtain rfl := Option.some.inj (hp.symm.trans hp')
  exact hne hchild.symm

omit h in
/-- A pointer that is set is stored, with the tag of the child that it names. -/
theorem find?_setPointer {q : Pointer} (h' : Stands c m' (r.setPointer t.code parentId (some q))) :
    m'.items.find? (Pointer.key t.code v parentId) = some (Pointer.item (Pointer.key t.code v parentId) q) ∧
      m'.items.find? (Version.latestKey t.code q.child) = some (Version.latestItem t.code q.child) := by
  have hq := Registry.pointers_setPointer_self r t.code parentId (some q)
  refine ⟨?_, ?_⟩
  · rw [h'.mirrors.pointers t v parentId ht hv, hq]
    rfl
  · rw [h'.find?_flag ht, if_pos ((h'.sound.isNewest_iff_named ht).mpr ⟨parentId, q, hq, rfl⟩)]

end Stands

namespace Resource
variable {setup : Setup} (hc : setup.catalog.Sound) {m m' : Memory} {r r' : Registry}
  (h : Stands setup.catalog m r) {t : ResourceType} (ht : setup.catalog.Has t) {id : String}
  (h' : Stands setup.catalog m' r')
include hc h ht h'

/-- What a registry comes to where a resource goes is what its deletion changes. -/
theorem succession_of_delists (hdelists : r.Delists t id r') : Succession m m' t id := by
  cases hdelists with
  | unnamed hnot =>
    refine .unnamed (fun v parentId p hv hp => ?_) fun key hkey =>
      h.mirrors.eq_of_agreeAt h'.mirrors (Registry.agreeAt_setEntry ht none hkey)
    rw [h.find?_pointer ht hv parentId, Except.ok.injEq] at hp
    exact hnot parentId p hp
  | @newest v parentId p next hv hp hid hheads =>
    obtain ⟨child, ordering⟩ := p
    obtain rfl : child = id := hid
    have hchild := h.hasChild_of_named ht hv hc hp
    have hnamed := h.find?_pointer ht hv parentId
    rw [hp] at hnamed
    have hfirst : ∀ q, m.HasChild t v parentId q → q.child ≠ child → ∃ p, next = some p ∧ p.Precedes q := by
      intro q hq hne
      obtain ⟨d, hd, hsd⟩ := (h.hasChild_iff ht hc).mp hq
      exact hheads.first q.child d q.ordering hd hne hsd
    -- the tag of the child that goes stands in its own partition
    have hagree : ∀ {key : ItemKey}, key.partition ≠ Key.resource t.code child →
        key ≠ Pointer.key t.code v parentId →
        (∀ p, next = some p → key ≠ Version.latestKey t.code p.child) →
        m'.items.find? key = m.items.find? key := by
      intro key hkey hpointer hflag
      refine h.mirrors.eq_of_agreeAt h'.mirrors ((Registry.agreeAt_setEntry ht none hkey).trans ?_)
      refine Registry.agreeAt_setPointer ht hv hpointer hflag fun p hold hk => hkey ?_
      obtain rfl := Option.some.inj (hp.symm.trans hold)
      exact congrArg ItemKey.partition hk
    cases next with
    | none =>
      refine .last hv hchild hnamed (fun q hq => ?_) ?_ fun key hkey hpointer =>
        hagree hkey hpointer nofun
      · refine Classical.byContradiction fun hne => ?_
        obtain ⟨p, hnone, _⟩ := hfirst q hq hne
        cases hnone
      · rw [h'.mirrors.pointers t v parentId ht hv, Registry.pointers_setPointer_self]
        rfl
    | some q =>
      obtain ⟨hne, d, hd, hsd⟩ := hheads.child q rfl
      obtain ⟨hset, hflag⟩ := Stands.find?_setPointer ht hv h'
      refine .next hv hchild hnamed ((h.hasChild_iff ht hc).mpr ⟨d, hd, hsd⟩) hne (fun p hp hne => ?_) hset
        (h.find?_flag_of_ne ht hv hp hd hsd hne) hflag fun key hkey hpointer hlatest =>
          hagree hkey hpointer fun p hp => Option.some.inj hp ▸ hlatest
      obtain ⟨q', hq', hprecedes⟩ := hfirst p hp hne
      exact Option.some.inj hq' ▸ hprecedes

end Resource

/-- A deletion that succeeds leaves nothing of the resource, and everything else as it was but for the
succession. -/
theorem Resource.delete_deleted {setup : Setup} (hc : setup.catalog.Sound) {m m' : Memory} {r : Registry}
    (h : Stands setup.catalog m r) {code id : String} (hdelete : delete setup m code id = (.ok (), m')) :
    ∃ t, setup.catalog.types.find? code = some t ∧ Deleted setup m m' t id := by
  rcases delete_delists hc h code id with ⟨⟨err, herror⟩, _⟩ |
    ⟨t, e, r', ht, rfl, he, hnone, _, hdelists, h'⟩
  · rw [hdelete] at herror
    cases herror
  rw [hdelete] at h'
  have hentries : ∀ code i, ¬ (code = t.code ∧ i = id) → r'.entries code i = r.entries code i := by
    intro code i hne
    rw [hdelists.entries_eq, Registry.entries_setEntry_of_ne _ _ _ _ hne]
  have hgone : r'.entries t.code id = none := by
    rw [hdelists.entries_eq, Registry.entries_setEntry_self]
  have hnone' : r'.Childless setup.catalog t.code id := by
    intro t' field ht' hf i d hd
    by_cases hself : t'.code = t.code ∧ i = id
    · obtain ⟨hcode, rfl⟩ := hself
      rw [hcode, hgone] at hd
      cases hd
    · exact hnone t' field ht' hf i d ((hentries _ _ hself).symm.trans hd)
  exact ⟨t, ht, h'.itemsIn_eq_nil hc ht hgone hnone', succession_of_delists hc h ht h' hdelists,
    fun code' id' hne => h.get_congr hc h' (hentries code' id' hne)⟩

/-- After any calls, a deletion that succeeds leaves nothing of the resource, and everything else as it was
but for what its parent's pointer comes to. -/
theorem Call.runAll_deleted (settings : Settings) (calls : List Call) (code id : String) :
    let setup : Setup := ⟨.standard, settings⟩
    let m := runAll setup calls
    ∀ {m' : Memory}, Resource.delete setup m code id = (.ok (), m') →
      ∃ t, Catalog.standard.types.find? code = some t ∧ Resource.Deleted setup m m' t id := by
  intro setup m m' hdelete
  have hc : setup.catalog.Sound := Catalog.standard_sound
  obtain ⟨r, h⟩ := @runAll_stands setup hc Catalog.standard_apart calls
  exact Resource.delete_deleted hc h hdelete

/-- The id of the state that the pointer of a polygon names. -/
def Memory.newestState? (m : Memory) (polygonId : String) : Option String :=
  (m.items.find? (Pointer.key "s" ⟨"p", "polygonId", "timestamp"⟩ polygonId)).bind fun item =>
    item.text? Attribute.id

/-- The older state of the polygon `c` is the newest again once the other one is deleted. -/
theorem Call.runAll_deleted_newerState :
    let setup : Setup := ⟨.standard, {}⟩
    let m := runAll setup toTwoStates
    ∃ m', Resource.delete setup m "s" "e" = (.ok (), m') ∧
      Resource.Deleted setup m m' Catalog.state "e" ∧ m'.newestState? "c" = some "d" := by
  intro setup m
  obtain ⟨hok, hpointer⟩ : (Resource.delete setup m "s" "e").1.isOk = true ∧
      (Resource.delete setup m "s" "e").2.newestState? "c" = some "d" := by decide +kernel
  obtain ⟨_, hdelete⟩ := Outcome.eq_of_isOk_fst hok
  obtain ⟨t, ht, hdeleted⟩ := runAll_deleted {} toTwoStates "s" "e" hdelete
  obtain rfl : Catalog.state = t := Option.some.inj ht
  exact ⟨_, hdelete, hdeleted, hpointer⟩

end TagStore
