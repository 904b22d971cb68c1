import TagStore.Proofs.Listings
import TagStore.Proofs.Runs

namespace TagStore

namespace Resource

/-- A page of the answer to a query, for its token. -/
def listPage (setup : Setup) (m : Memory) (code : String) (q : ListQuery) (_ : Nat)
    (token : Option String) : Except Error (List Resource × Option String) :=
  (list setup m code { q with token }).map fun page => (page.items, page.next)

/-- Whether pages answer a query: with the stored resources that carry all the tags it asks for, each
once and in ascending order, as they are read one by one but for their newest children. -/
structure Answers (setup : Setup) (m : Memory) (t : ResourceType) (q : ListQuery)
    (pages : List (List Resource)) : Prop where
  size : ∀ page ∈ pages, page.length ≤ q.pageSize setup
  ascending : (pages.flatten.map Resource.id).Pairwise (· < ·)
  ids : ∀ id, id ∈ pages.flatten.map Resource.id ↔
    (∃ s, get setup m t.code id = .ok s) ∧ Tag.Carries m t.code q.wanted.entries id
  stored : ∀ s ∈ pages.flatten, get setup m t.code s.id = .ok { s with latest := [] }
  latest : ∀ s ∈ pages.flatten, (s.latest.map Prod.fst).Nodup ∧ ∀ code child,
    (code, child) ∈ s.latest ↔ q.withLatest = true ∧
      ∃ t' ∈ setup.catalog.versionedChildren t.code, t'.code = code ∧
        latestChild setup m code s.id = .ok (some child)

end Resource

theorem ListQuery.Fits.withToken {setup : Setup} {t : ResourceType} {q : ListQuery} (hq : q.Fits setup t)
    (token : Option String) : { q with token }.Fits setup t :=
  ⟨hq.count, hq.tags, hq.fields, hq.latestOnly, hq.withLatest⟩

/-- That there is a page shows that the query fits. -/
theorem Resource.fits_of_listPage {setup : Setup} {m : Memory} {t : ResourceType} (ht : setup.catalog.Has t)
    {q : ListQuery} {i : Nat} {token : Option String} {found : List Resource × Option String}
    (h : listPage setup m t.code q i token = .ok found) : q.Fits setup t := by
  unfold listPage at h
  cases hlist : list setup m t.code { q with token } with
  | error err =>
    rw [hlist] at h
    cases h
  | ok page => exact ((list_eq_ok_iff ht).mp hlist).1.withToken q.token

/-- Types that have different codes stand under different ones. -/
theorem Catalog.Sound.nodup_codes {c : Catalog} (hc : c.Sound) :
    (c.types.values.map ResourceType.code).Nodup := by
  have hcodes : c.types.values.map ResourceType.code = c.types.keys := by
    rw [SortedMap.values, SortedMap.keys, List.map_map]
    apply List.map_congr_left
    rintro ⟨code, t⟩ hm
    exact hc.code code t (SortedMap.mem_entries_iff.mp hm)
  rw [hcodes]
  exact SortedMap.nodup_keys c.types

namespace Holds
variable {setup : Setup} {m : Memory} {r : Registry} (h : Holds setup.catalog m r)
  (hc : setup.catalog.Sound) {t : ResourceType} (ht : setup.catalog.Has t)
include h hc ht

omit h ht in
theorem nodup_latest (r : Registry) (q : ListQuery) (id : String) :
    ((r.shown t (q.attached setup t) id).latest.map Prod.fst).Nodup := by
  have hsub : ((r.shown t (q.attached setup t) id).latest.map Prod.fst).Sublist
      ((q.attached setup t).map ResourceType.code) := by
    rw [Registry.shown]
    dsimp only
    generalize q.attached setup t = types
    induction types with
    | nil => exact .slnil
    | cons child types ih =>
      rw [List.filterMap_cons]
      cases r.newest? child id with
      | none => exact .cons _ ih
      | some s => exact .cons_cons _ ih
  refine List.Pairwise.sublist hsub ?_
  unfold ListQuery.attached
  split
  · exact List.Pairwise.sublist (List.filter_sublist.map _) hc.nodup_codes
  · exact List.nodup_nil

omit ht in
theorem mem_latest_iff {q : ListQuery} {id code : String} {child : Resource} :
    (code, child) ∈ (r.shown t (q.attached setup t) id).latest ↔ q.withLatest = true ∧
      ∃ t' ∈ setup.catalog.versionedChildren t.code, t'.code = code ∧
        Resource.latestChild setup m code id = .ok (some child) := by
  simp only [Registry.shown, ListQuery.attached, List.mem_filterMap, Option.map_eq_some_iff,
    Prod.mk.injEq]
  have hchild : ∀ t' ∈ setup.catalog.versionedChildren t.code,
      Resource.latestChild setup m t'.code id = .ok (r.newest? t' id) := by
    intro t' ht'
    obtain ⟨hin, hversioned⟩ := List.mem_filter.mp ht'
    obtain ⟨code, hcode⟩ := SortedMap.mem_values_iff.mp hin
    obtain ⟨v, hv, _⟩ := (Option.any_eq_true _ _).mp hversioned
    exact h.latestChild_eq hc (hc.has hcode) hv id
  constructor
  · rintro ⟨t', ht', s, hs, rfl, rfl⟩
    split at ht'
    next hwith => exact ⟨hwith, t', ht', rfl, by rw [hchild t' ht', hs]⟩
    · cases ht'
  · rintro ⟨hwith, t', ht', rfl, hs⟩
    rw [hchild t' ht', Except.ok.injEq] at hs
    exact ⟨t', by rwa [if_pos hwith], child, hs, rfl, rfl⟩

/-- The pages of a listing deal out the stored resources that carry the tags it asks for, as they are
shown. -/
theorem listPage_deals {q : ListQuery} (hq : q.Fits setup t) :
    ∃ (toCome : Option String → List Resource → Prop) (ids : List String),
      Deals (Resource.listPage setup m t.code q) (fun _ => q.pageSize setup) toCome ∧
      toCome none (ids.map (r.shown t (q.attached setup t))) ∧ ids.Pairwise (· < ·) ∧
      ∀ id, id ∈ ids ↔
        (∃ e, r.entries t.code id = some e) ∧ Tag.Carries m t.code q.wanted.entries id := by
  have hcount : 0 < q.pageSize setup := Nat.pos_of_ne_zero hq.count
  obtain ⟨toCome, hdeals, hstored, ids, hids, hmem⟩ := h.pageOfIds_deals hc ht (hq.plain hc ht) hcount
  refine ⟨fun token shown => ∃ ids, toCome token ids ∧ shown = ids.map (r.shown t (q.attached setup t)),
    ids, ?_, ⟨ids, hids, rfl⟩, (hstored none ids hids).1, hmem⟩
  apply hdeals.map
  intro i token ids next hids hp
  obtain ⟨hasc, hall⟩ := hstored token ids hids
  have hnodup : (ids.take (q.pageSize setup)).Nodup := by
    apply (hasc.sublist (List.take_sublist _ _)).imp
    rintro a b hlt rfl
    exact String.lt_irrefl a hlt
  have hanswer := h.answer_eq hc ht (q := q) hnodup (fun id hid => hall id (List.mem_of_mem_take hid)) next
  have hpage := (Resource.list_eq_ok_iff (m := m) ht).mpr
    ⟨hq.withToken token, Outcome.bind_eq_ok_iff.mpr ⟨_, hp, hanswer⟩⟩
  rw [Resource.listPage, hpage]
  rfl

/-- Following the tokens of a listing ends, and shows what the query asks for. -/
theorem answers {q : ListQuery} (hq : q.Fits setup t) :
    (∃ pages, Follows (Resource.listPage setup m t.code q) 0 none pages) ∧
    ∀ pages, Follows (Resource.listPage setup m t.code q) 0 none pages →
      Resource.Answers setup m t q pages := by
  obtain ⟨toCome, ids, hdeals, hstart, hasc, hmem⟩ := h.listPage_deals hc ht hq
  refine ⟨hdeals.follows (fun _ => Nat.pos_of_ne_zero hq.count) 0 hstart, fun pages hp => ?_⟩
  have hflatten := hdeals.flatten_eq hstart hp
  have hidmap : pages.flatten.map Resource.id = ids := by
    rw [hflatten, List.map_map]
    exact List.map_id ids
  have hshown : ∀ s ∈ pages.flatten, ∃ id e, r.entries t.code id = some e ∧
      s = r.shown t (q.attached setup t) id ∧ s = { e.resource t id with latest := s.latest } := by
    intro s hs
    rw [hflatten] at hs
    obtain ⟨id, hid, rfl⟩ := List.mem_map.mp hs
    obtain ⟨e, he⟩ := ((hmem id).mp hid).1
    refine ⟨id, e, he, rfl, ?_⟩
    rw [Registry.shown, he]
    rfl
  refine ⟨hdeals.length_le (fun _ => Nat.le_refl _) hstart hp, hidmap ▸ hasc, fun id => ?_,
    fun s hs => ?_, fun s hs => ?_⟩
  · rw [hidmap, hmem]
    apply and_congr_left
    intro _
    constructor
    · rintro ⟨e, he⟩
      exact ⟨_, Resource.get_some h hc ht he⟩
    · rintro ⟨s, hs⟩
      obtain ⟨_, e, _, he, _⟩ := Resource.get_eq_ok h hc hs
      exact ⟨e, he⟩
  · obtain ⟨id, e, he, _, hs⟩ := hshown s hs
    rw [hs]
    exact Resource.get_some h hc ht he
  · obtain ⟨id, e, he, rfl, _⟩ := hshown s hs
    exact ⟨nodup_latest hc r q id, fun code child => h.mem_latest_iff hc⟩

end Holds

/-- Creates a group, a region of it, a polygon of that and a state of that. -/
def Call.toState : List Call :=
  [.create ⟨0, 0⟩ ⟨some "a", 0⟩ "g" ⟨.ofList [("name", .string "Alps")], .empty⟩ "u",
    .create ⟨1, 0⟩ ⟨some "b", 0⟩ "r"
      ⟨.ofList [("name", .string "East"), ("groupId", .string "a")], .empty⟩ "u",
    .create ⟨2, 0⟩ ⟨some "c", 0⟩ "p"
      ⟨.ofList [("name", .string "Pass"), ("regionId", .string "b")], .ofList [("area", "wide")]⟩ "u",
    .create ⟨3, 0⟩ ⟨some "d", 0⟩ "s"
      ⟨.ofList [("polygonId", .string "c"), ("timestamp", .string "2024-01-01T00:00:00Z")], .empty⟩ "u"]

theorem Call.timely_toState : ∀ call ∈ toState, call.Timely := by
  simp only [toState, List.forall_mem_cons, List.not_mem_nil, false_implies, implies_true, and_true]
  exact ⟨⟨by decide, by decide, by decide⟩, ⟨by decide, by decide, by decide⟩,
    ⟨by decide, by decide, by decide⟩, by decide, by decide, by decide⟩

end TagStore
