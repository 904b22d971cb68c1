import TagStore.Proofs.ListWalks

namespace TagStore

/-- Whether a resource is a stored state of a polygon. -/
def IsStateOf (setup : Setup) (m : Memory) (polygonId id : String) (s : Resource) : Prop :=
  Resource.get setup m "s" id = .ok s ∧ s.fields.text? "polygonId" = some polygonId

/-- Whether a state's time is this one, in the form in which times are compared. -/
def HasTime (s : Resource) (ordering : String) : Prop :=
  ∃ value, s.fields.find? "timestamp" = some value ∧ Version.orderingText value = .ok ordering

theorem HasTime.unique {s : Resource} {a b : String} (ha : HasTime s a) (hb : HasTime s b) : a = b := by
  obtain ⟨value, hv, ha⟩ := ha
  obtain ⟨value', hv', hb⟩ := hb
  obtain rfl := Option.some.inj (hv.symm.trans hv')
  exact Except.ok.inj (ha.symm.trans hb)

theorem isStateOf_of_standing {setup : Setup} {m : Memory} {id : String} {s : Resource}
    (hget : Resource.get setup m "s" id = .ok s) {polygonId ordering : String}
    (hs : Resource.standing ⟨"p", "polygonId", "timestamp"⟩ s.fields = .ok (polygonId, ordering)) :
    IsStateOf setup m polygonId id s ∧ HasTime s ordering := by
  obtain ⟨hparent, text, htext, hordering⟩ := Resource.standing_eq_ok_iff.mp hs
  exact ⟨⟨hget, (Checks.requiredText_eq_ok_iff.mp hparent).1⟩, _, htext, hordering⟩

def statePointerKey (polygonId : String) : ItemKey :=
  ⟨Key.resource "p" polygonId, Key.pointerSort "s"⟩

/-- Whether the pointer of a polygon is kept: there is none if the polygon has no states, and else it
names one of the greatest, which alone among them has the tag of the newest. -/
structure LatestKept (setup : Setup) (m : Memory) (polygonId : String) : Prop where
  without : (∀ id s, ¬ IsStateOf setup m polygonId id s) →
    m.items.find? (statePointerKey polygonId) = none ∧
      Resource.latestChild setup m "s" polygonId = .ok none
  newest : ∀ id s, IsStateOf setup m polygonId id s → ∃ (p : Pointer) (n : Resource),
    m.items.find? (statePointerKey polygonId) = some (p.item (statePointerKey polygonId)) ∧
    IsStateOf setup m polygonId p.child n ∧ HasTime n p.ordering ∧
    Resource.latestChild setup m "s" polygonId = .ok (some n) ∧
    ∀ id s, IsStateOf setup m polygonId id s →
      (∃ ordering, HasTime s ordering ∧ ¬ p.ordering < ordering) ∧
      m.items.find? (Version.latestKey "s" id) =
        if id = p.child then some (Version.latestItem "s" id) else none
  only : ∀ key item, m.items.find? key = some item → key.partition = Key.resource "p" polygonId →
    item.text? Attribute.kind = some Key.pointerCode → key = statePointerKey polygonId

/-- Where the pointer of a polygon is kept, its newest state can be asked for. -/
theorem LatestKept.latestChild_ok {setup : Setup} {m : Memory} {polygonId : String}
    (h : LatestKept setup m polygonId) : ∃ n, Resource.latestChild setup m "s" polygonId = .ok n := by
  by_cases hsome : ∃ id s, IsStateOf setup m polygonId id s
  · obtain ⟨id, s, hs⟩ := hsome
    obtain ⟨_, n, _, _, _, hn, _⟩ := h.newest id s hs
    exact ⟨some n, hn⟩
  · exact ⟨none, (h.without fun id s hs => hsome ⟨id, s, hs⟩).2⟩

namespace Holds
variable {settings : Settings} {m : Memory} {r : Registry} (h : Holds Catalog.standard m r)
include h

theorem isStateOf_iff {polygonId id : String} {s : Resource} :
    IsStateOf ⟨.standard, settings⟩ m polygonId id s ↔ ∃ e ordering, r.entries "s" id = some e ∧
      s = e.resource Catalog.state id ∧
      Resource.standing ⟨"p", "polygonId", "timestamp"⟩ e.fields = .ok (polygonId, ordering) ∧
      HasTime s ordering := by
  have hc := Catalog.standard_sound
  have ht : Catalog.standard.Has Catalog.state := rfl
  constructor
  · rintro ⟨hget, hpolygon⟩
    obtain ⟨t, e, ht', he, rfl⟩ := Resource.get_eq_ok h hc hget
    obtain rfl : Catalog.state = t := Option.some.inj ht'
    obtain ⟨pid, ordering, hs⟩ := (h.sound.entry ht he).2.standing _ rfl
    obtain ⟨hparent, text, htext, hordering⟩ := Resource.standing_eq_ok_iff.mp hs
    have hpid := (Checks.requiredText_eq_ok_iff.mp hparent).1
    obtain rfl := Option.some.inj (hpolygon.symm.trans hpid)
    exact ⟨e, ordering, he, rfl, hs, _, htext, hordering⟩
  · rintro ⟨e, ordering, he, rfl, hs, _⟩
    have hget : Resource.get ⟨.standard, settings⟩ m Catalog.state.code id =
        .ok (e.resource Catalog.state id) := Resource.get_some h hc ht he
    exact (isStateOf_of_standing hget hs).1

variable (settings) in
/-- What is stored for a state is one of its polygon's states, with its time. -/
theorem isStateOf_entry {id : String} {e : Entry} (he : r.entries "s" id = some e) {polygonId ordering : String}
    (hs : Resource.standing ⟨"p", "polygonId", "timestamp"⟩ e.fields = .ok (polygonId, ordering)) :
    IsStateOf ⟨.standard, settings⟩ m polygonId id (e.resource Catalog.state id) ∧
      HasTime (e.resource Catalog.state id) ordering := by
  have ht : Catalog.standard.Has Catalog.state := rfl
  have hget : Resource.get ⟨.standard, settings⟩ m Catalog.state.code id =
      .ok (e.resource Catalog.state id) := Resource.get_some h Catalog.standard_sound ht he
  exact isStateOf_of_standing hget hs

variable (settings) in
/-- A pointer names a stored state of its polygon, whose time it holds. -/
theorem pointee {polygonId : String} {p : Pointer} (hp : r.pointers "s" polygonId = some p) :
    ∃ n, r.newest? Catalog.state polygonId = some n ∧
      IsStateOf ⟨.standard, settings⟩ m polygonId p.child n ∧ HasTime n p.ordering := by
  obtain ⟨t, v, e, ht, hv, he, hs⟩ := h.sound.pointers _ _ p hp
  obtain rfl : Catalog.state = t := Option.some.inj ht
  cases hv
  have hpointers : r.pointers Catalog.state.code polygonId = some p := hp
  have hentries : r.entries Catalog.state.code p.child = some e := he
  refine ⟨e.resource Catalog.state p.child, ?_, h.isStateOf_entry settings he hs⟩
  rw [Registry.newest?, hpointers, Option.bind_some, hentries, Option.map_some]

theorem latestChild_state (polygonId : String) :
    Resource.latestChild ⟨.standard, settings⟩ m "s" polygonId =
      .ok (r.newest? Catalog.state polygonId) := by
  have ht : Catalog.standard.Has Catalog.state := rfl
  exact @latestChild_eq ⟨.standard, settings⟩ _ _ h Catalog.standard_sound _ ht _ rfl polygonId

theorem find?_statePointer (polygonId : String) : m.items.find? (statePointerKey polygonId) =
    (r.pointers "s" polygonId).map (Pointer.item (statePointerKey polygonId)) :=
  h.mirrors.pointers Catalog.state ⟨"p", "polygonId", "timestamp"⟩ polygonId rfl rfl

/-- Of a polygon's states that which its pointer names has the tag of the newest. -/
theorem find?_latestKey {polygonId id : String} {s : Resource} {p : Pointer}
    (hs : IsStateOf ⟨.standard, settings⟩ m polygonId id s) (hp : r.pointers "s" polygonId = some p) :
    m.items.find? (Version.latestKey "s" id) =
      if id = p.child then some (Version.latestItem "s" id) else none := by
  have ht : Catalog.standard.Has Catalog.state := rfl
  have hv : Catalog.state.versioning = some ⟨"p", "polygonId", "timestamp"⟩ := rfl
  obtain ⟨e, ordering, he, _, hstands, _⟩ := h.isStateOf_iff.mp hs
  have hiff : r.isNewest Catalog.state id = true ↔ id = p.child := by
    rw [Registry.isNewest_iff hv]
    constructor
    · rintro ⟨e', pid, o, q, he', hstands', hq, rfl⟩
      obtain rfl := Option.some.inj (he.symm.trans he')
      rw [hstands, Except.ok.injEq, Prod.mk.injEq] at hstands'
      obtain ⟨rfl, rfl⟩ := hstands'
      rw [Option.some.inj (hp.symm.trans hq)]
    · rintro rfl
      exact ⟨e, polygonId, ordering, p, he, hstands, hp, rfl⟩
  have hkey : Version.latestKey "s" id = Tag.key (Key.resource Catalog.state.code id) Key.latestTag := rfl
  rw [hkey, h.mirrors.tags Catalog.state id Key.latestTag ht, Registry.tag?, if_pos rfl]
  by_cases hid : id = p.child
  · rw [if_pos hid, if_pos (hiff.mpr hid)]
    rfl
  · rw [if_neg hid, if_neg fun hn => hid (hiff.mp hn)]
    rfl

theorem latestKept (polygonId : String) : LatestKept ⟨.standard, settings⟩ m polygonId := by
  have ht : Catalog.standard.Has Catalog.state := rfl
  refine ⟨fun hnone => ?_, fun id s hs => ?_, fun key item hf hpartition hkind => ?_⟩
  · cases hp : r.pointers "s" polygonId with
    | none =>
      have hpointers : r.pointers Catalog.state.code polygonId = none := hp
      rw [h.find?_statePointer, hp, h.latestChild_state, Registry.newest?, hpointers]
      exact ⟨rfl, rfl⟩
    | some p =>
      obtain ⟨n, _, hn, _⟩ := h.pointee settings hp
      exact absurd hn (hnone p.child n)
  · obtain ⟨e, ordering, he, _, hstands, _⟩ := h.isStateOf_iff.mp hs
    obtain ⟨p, hp, _⟩ := h.sound.greatest _ _ id e polygonId ordering ht rfl he hstands
    obtain ⟨n, hnewest, hn, htime⟩ := h.pointee settings hp
    refine ⟨p, n, ?_, hn, htime, by rw [h.latestChild_state, hnewest], fun id s hs => ?_⟩
    · rw [h.find?_statePointer]
      exact congrArg _ hp
    · obtain ⟨e, ordering, he, _, hstands, htime⟩ := h.isStateOf_iff.mp hs
      obtain ⟨p', hp', hle⟩ := h.sound.greatest _ _ id e polygonId ordering ht rfl he hstands
      obtain rfl := Option.some.inj (hp.symm.trans hp')
      exact ⟨⟨ordering, htime, hle⟩, h.find?_latestKey hs hp⟩
  · have hc := Catalog.standard_sound
    rcases h.item_cases hf with ⟨t, id, e, ht, _, hi, _⟩ | ⟨t, id, name, value, _, _, rfl, _⟩ |
      ⟨t, v, parentId, p, ht, hv, _, _, rfl⟩
    · rw [Resource.text?_canonical_kind hi, Option.some.injEq] at hkind
      exact absurd hkind (hc.code_ne_pointerCode ht)
    · rw [Tag.text?_item_kind] at hkind
      exact absurd (Option.some.inj hkind) (by decide)
    · obtain ⟨rfl, rfl⟩ := Catalog.eq_state_of_versioning ht hv
      obtain rfl := Key.resource_right_inj.mp hpartition
      rfl

/-- The states that have the tag of the newest are those that pointers name. -/
theorem carries_latest_iff {id : String} :
    Tag.Carries m "s" [(Key.latestTag, Key.latestValue)] id ↔
      ∃ polygonId p, r.pointers "s" polygonId = some p ∧ p.child = id := by
  have ht : Catalog.standard.Has Catalog.state := rfl
  have hv : Catalog.state.versioning = some ⟨"p", "polygonId", "timestamp"⟩ := rfl
  refine (h.carries_iff ht).trans ?_
  rw [List.forall_mem_singleton, Registry.tag?, if_pos rfl]
  constructor
  · intro hn
    split at hn
    next hnewest =>
      obtain ⟨_, polygonId, _, p, _, _, hp, hid⟩ := (Registry.isNewest_iff hv).mp hnewest
      exact ⟨polygonId, p, hp, hid⟩
    · cases hn
  · rintro ⟨polygonId, p, hp, rfl⟩
    obtain ⟨t, v, e, ht, hv, he, hs⟩ := h.sound.pointers _ _ p hp
    obtain rfl : Catalog.state = t := Option.some.inj ht
    exact if_pos ((Registry.isNewest_iff hv).mpr ⟨e, polygonId, p.ordering, p, he, hs, hp, rfl⟩)

theorem latestChild_eq_some_iff {polygonId : String} {s : Resource} :
    Resource.latestChild ⟨.standard, settings⟩ m "s" polygonId = .ok (some s) ↔
      ∃ p, r.pointers "s" polygonId = some p ∧
        Resource.get ⟨.standard, settings⟩ m "s" p.child = .ok s := by
  rw [h.latestChild_state, Except.ok.injEq]
  constructor
  · intro hlatest
    cases hp : r.pointers "s" polygonId with
    | none =>
      have hpointers : r.pointers Catalog.state.code polygonId = none := hp
      rw [Registry.newest?, hpointers] at hlatest
      cases hlatest
    | some p =>
      obtain ⟨n, hnewest, hn, _⟩ := h.pointee settings hp
      obtain rfl := Option.some.inj (hnewest.symm.trans hlatest)
      exact ⟨p, rfl, hn.1⟩
  · rintro ⟨p, hp, hget⟩
    obtain ⟨n, hnewest, hn, _⟩ := h.pointee settings hp
    rw [hnewest, Except.ok.inj (hn.1.symm.trans hget)]

variable (settings) in
/-- A listing of the newest states shows exactly those that pointers name, each once. -/
theorem latestOnly_walk {count : Option Nat} (hcount : count.getD settings.pageSize ≠ 0) :
    let page := Resource.listPage ⟨.standard, settings⟩ m "s" { latestOnly := true, count }
    (∃ pages, Follows page 0 none pages) ∧
    ∀ pages, Follows page 0 none pages → (pages.flatten.map Resource.id).Nodup ∧
      ∀ s, s ∈ pages.flatten ↔
        ∃ polygonId, Resource.latestChild ⟨.standard, settings⟩ m "s" polygonId = .ok (some s) := by
  intro page
  have hfits : ListQuery.Fits { latestOnly := true, count } ⟨.standard, settings⟩ Catalog.state :=
    ⟨hcount, nofun, nofun, fun _ => rfl, nofun⟩
  have ht : Catalog.standard.Has Catalog.state := rfl
  obtain ⟨hends, hanswers⟩ := @answers ⟨.standard, settings⟩ _ _ h Catalog.standard_sound _ ht _ hfits
  refine ⟨hends, fun pages hp => ?_⟩
  have hpages := hanswers pages hp
  have hplain : ∀ s ∈ pages.flatten, Resource.get ⟨.standard, settings⟩ m "s" s.id = .ok s := by
    intro s hs
    have hlatest : s.latest = [] := by
      apply List.eq_nil_iff_forall_not_mem.mpr
      rintro ⟨code, child⟩ hm
      have hwith := (((hpages.latest s hs).2 code child).mp hm).1
      cases hwith
    have hget := hpages.stored s hs
    rw [← hlatest] at hget
    cases s
    exact hget
  have hids : ∀ id, id ∈ pages.flatten.map Resource.id ↔
      (∃ s, Resource.get ⟨.standard, settings⟩ m "s" id = .ok s) ∧
        ∃ polygonId p, r.pointers "s" polygonId = some p ∧ p.child = id := fun id =>
    (hpages.ids id).trans (and_congr_right fun _ => h.carries_latest_iff)
  refine ⟨?_, fun s => ⟨fun hs => ?_, fun ⟨polygonId, hlatest⟩ => ?_⟩⟩
  · apply hpages.ascending.imp
    rintro a b hlt rfl
    exact String.lt_irrefl a hlt
  · obtain ⟨_, polygonId, p, hp, hid⟩ := (hids s.id).mp (List.mem_map.mpr ⟨s, hs, rfl⟩)
    exact ⟨polygonId, h.latestChild_eq_some_iff.mpr ⟨p, hp, hid ▸ hplain s hs⟩⟩
  · obtain ⟨p, hp, hget⟩ := h.latestChild_eq_some_iff.mp hlatest
    obtain ⟨s', hs, hid⟩ := List.mem_map.mp ((hids p.child).mpr ⟨⟨_, hget⟩, polygonId, p, hp, rfl⟩)
    have hsame := Except.ok.inj ((hplain s' hs).symm.trans (hid.symm ▸ hget))
    exact hsame ▸ hs

end Holds

/-- After any calls the pointers of all polygons are kept, and a listing of the newest states shows
exactly those that the pointers name, each once. -/
theorem Call.runAll_latestKept (settings : Settings) {calls : List Call}
    (htimely : ∀ call ∈ calls, call.Timely) :
    let setup : Setup := ⟨.standard, settings⟩
    let m := runAll setup calls
    (∀ polygonId, LatestKept setup m polygonId) ∧
    ∀ count : Option Nat, count.getD settings.pageSize ≠ 0 →
      let q : ListQuery := { latestOnly := true, count }
      (∃ pages, Follows (Resource.listPage setup m "s" q) 0 none pages) ∧
      ∀ pages, Follows (Resource.listPage setup m "s" q) 0 none pages →
        (pages.flatten.map Resource.id).Nodup ∧
        ∀ s, s ∈ pages.flatten ↔
          ∃ polygonId, Resource.latestChild setup m "s" polygonId = .ok (some s) := by
  intro setup m
  obtain ⟨r, h⟩ := @runAll_holds setup Catalog.standard_sound Catalog.standard_apart calls htimely
  exact ⟨fun polygonId => h.latestKept polygonId, fun count hcount => h.latestOnly_walk settings hcount⟩

/-- The state of the polygon `c` is that which its pointer names. -/
theorem Call.runAll_latestKept_toState :
    let setup : Setup := ⟨.standard, {}⟩
    let m := runAll setup toState
    let q : ListQuery := { latestOnly := true, count := some 1 }
    (∀ call ∈ toState, call.Timely) ∧ (∃ s, IsStateOf setup m "c" "d" s) ∧
      (∃ (p : Pointer) (n : Resource),
        m.items.find? (statePointerKey "c") = some (p.item (statePointerKey "c")) ∧
        IsStateOf setup m "c" p.child n ∧ HasTime n p.ordering) ∧
      ∃ pages, Follows (Resource.listPage setup m "s" q) 0 none pages := by
  intro setup m q
  have hpolygon : (Resource.get setup m "s" "d").toOption.bind (·.fields.text? "polygonId") = some "c" := by
    decide +kernel
  have hstate : ∃ s, IsStateOf setup m "c" "d" s := by
    cases hget : Resource.get setup m "s" "d" with
    | error err =>
      rw [hget] at hpolygon
      cases hpolygon
    | ok s =>
      rw [hget] at hpolygon
      exact ⟨s, hget, hpolygon⟩
  obtain ⟨hkept, hwalk⟩ := runAll_latestKept {} timely_toState
  obtain ⟨s, hs⟩ := hstate
  obtain ⟨p, n, hpointer, hn, htime, _⟩ := (hkept "c").newest "d" s hs
  exact ⟨timely_toState, ⟨s, hs⟩, ⟨p, n, hpointer, hn, htime⟩, (hwalk (some 1) (by decide)).1⟩

end TagStore
