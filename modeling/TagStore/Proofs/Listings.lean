import TagStore.Proofs.Hydration
import TagStore.Proofs.Intersection
import TagStore.Proofs.Queries
import TagStore.Proofs.TypePages

namespace TagStore

namespace Registry

/-- The newest child of a type that a parent has. -/
def newest? (r : Registry) (t : ResourceType) (parentId : String) : Option Resource :=
  (r.pointers t.code parentId).bind fun p =>
    (r.entries t.code p.child).map fun e => e.resource t p.child

instance : Inhabited Entry := ⟨⟨.empty, .empty, ⟨⟨0, 0⟩, "", none⟩⟩⟩

/-- A resource with its newest children of some types, as listings show it. -/
def shown (r : Registry) (t : ResourceType) (attached : List ResourceType) (id : String) : Resource :=
  { ((r.entries t.code id).getD default).resource t id with
    latest := attached.filterMap fun child => (r.newest? child id).map fun s => (child.code, s) }

end Registry

section
variable {setup : Setup} {m : Memory} {r : Registry} (h : Holds setup.catalog m r)
  (hc : setup.catalog.Sound) {t : ResourceType} (ht : setup.catalog.Has t)
include h hc ht

theorem Holds.latestChild_eq {v : Versioning} (hv : t.versioning = some v) (parentId : String) :
    Resource.latestChild setup m t.code parentId = .ok (r.newest? t parentId) := by
  rw [Resource.latestChild, Resource.findType_eq_ok_iff.mpr ht, Registry.newest?]
  simp only [bind, Except.bind, hv, h.find?_pointer ht hv, Outcome.mapError_ok]
  cases hp : r.pointers t.code parentId with
  | none => rfl
  | some p =>
    obtain ⟨_, _, e, _, _, he, _⟩ := h.sound.pointers _ _ p hp
    simp only [Resource.get_some h hc ht he, Option.bind_some, he, Option.map_some]
    rfl

omit ht in
theorem Holds.attach_eq {types : List ResourceType}
    (htypes : ∀ t ∈ types, setup.catalog.Has t ∧ t.versioning.isSome = true) (s : Resource) :
    Resource.attach setup m s types = .ok { s with
      latest := s.latest ++ types.filterMap fun t => (r.newest? t s.id).map fun n => (t.code, n) } := by
  induction types generalizing s with
  | nil =>
    rw [Resource.attach, List.filterMap_nil, List.append_nil]
    cases s
    rfl
  | cons t types ih =>
    obtain ⟨ht, hversioned⟩ := htypes t List.mem_cons_self
    obtain ⟨v, hv⟩ := Option.isSome_iff_exists.mp hversioned
    have hrest := ih fun t ht => htypes t (List.mem_cons_of_mem _ ht)
    rw [Resource.attach, h.latestChild_eq hc ht hv]
    simp only [bind, Except.bind, List.filterMap_cons]
    cases r.newest? t s.id with
    | none => exact hrest s
    | some n =>
      refine (hrest _).trans ?_
      simp only [Option.map_some, List.append_assoc, List.cons_append, List.nil_append]

theorem Holds.ofGroups_eq {types : List ResourceType}
    (htypes : ∀ t ∈ types, setup.catalog.Has t ∧ t.versioning.isSome = true) {ids : List String}
    (hids : ∀ id ∈ ids, ∃ e, r.entries t.code id = some e) :
    Resource.ofGroups setup m t types
      (ids.map fun id => (id, m.itemsIn (Key.resource t.code id))) = .ok (ids.map (r.shown t types)) := by
  induction ids with
  | nil => rfl
  | cons id ids ih =>
    obtain ⟨e, he⟩ := hids id List.mem_cons_self
    have hrest := ih fun id hid => hids id (List.mem_cons_of_mem _ hid)
    rw [List.map_cons, Resource.ofGroups, h.ofItems_some hc ht he]
    simp only [Outcome.mapError_ok, bind, Except.bind, h.attach_eq hc htypes, hrest]
    rw [List.map_cons, Registry.shown, he]
    rfl

/-- A page of ids of stored resources is answered with them. -/
theorem Holds.answer_eq {q : ListQuery} {ids : List String} (hnodup : ids.Nodup)
    (hids : ∀ id ∈ ids, ∃ e, r.entries t.code id = some e) (next : Option String) :
    Resource.answer setup m t q (ids, next) =
      .ok ⟨ids.map (r.shown t (q.attached setup t)), next⟩ := by
  have htypes : ∀ t' ∈ q.attached setup t, setup.catalog.Has t' ∧ t'.versioning.isSome = true := by
    intro t' ht'
    unfold ListQuery.attached at ht'
    split at ht'
    · obtain ⟨hin, hversioned⟩ := List.mem_filter.mp ht'
      obtain ⟨code, hcode⟩ := SortedMap.mem_values_iff.mp hin
      obtain ⟨v, hv, _⟩ := (Option.any_eq_true _ _).mp hversioned
      exact ⟨hc.has hcode, by rw [hv]; rfl⟩
    · cases ht'
  obtain ⟨items, hitems, hgroup⟩ := Listing.group_itemsOf h.keyed setup.settings.chunk t.code hnodup
  have hfull : ((ids.map fun id => (id, m.itemsIn (Key.resource t.code id))).filter
      fun g => !g.2.isEmpty) = ids.map fun id => (id, m.itemsIn (Key.resource t.code id)) := by
    apply List.filter_eq_self.mpr
    intro g hg
    obtain ⟨id, hid, rfl⟩ := List.mem_map.mp hg
    obtain ⟨e, he⟩ := hids id hid
    have hsome := h.ofItems_some hc ht he
    cases hnil : m.itemsIn (Key.resource t.code id) with
    | nil =>
      rw [hnil] at hsome
      cases hsome
    | cons item items => rfl
  rw [hfull] at hgroup
  simp only [Resource.answer, hitems, hgroup, h.ofGroups_eq hc ht htypes hids, Outcome.mapError_ok, bind,
    Except.bind, pure, Except.pure]

end

/-- No tag that a query asks for is named with a delimiter. -/
theorem ListQuery.Fits.plain {setup : Setup} {t : ResourceType} {q : ListQuery} (hq : q.Fits setup t)
    (hc : setup.catalog.Sound) (ht : setup.catalog.Has t) :
    ∀ tag ∈ q.wanted.entries, Key.hasDelimiter tag.1 = false := by
  have hbase : ∀ name, (∃ value, (q.tags.insertAll (q.fields.entries.map fun e =>
      (Key.reserved e.1, e.2))).find? name = some value) → Key.hasDelimiter name = false := by
    rintro name ⟨value, hv⟩
    by_cases hfield : ∃ e ∈ q.fields.entries, Key.reserved e.1 = name
    · obtain ⟨⟨field, w⟩, he, rfl⟩ := hfield
      rw [Key.hasDelimiter_reserved]
      exact hc.hasDelimiter_searchable ht (hq.fields field (List.mem_map.mpr ⟨_, he, rfl⟩))
    · rw [SortedMap.find?_insertAll_of_ne] at hv
      · exact hq.tags name (SortedMap.mem_keys_iff.mpr ⟨value, hv⟩)
      · intro e he hname
        obtain ⟨e', he', rfl⟩ := List.mem_map.mp he
        exact hfield ⟨e', he', hname⟩
  rintro ⟨name, value⟩ hm
  have hv := SortedMap.mem_entries_iff.mp hm
  unfold ListQuery.wanted at hv
  dsimp only at hv
  split at hv
  · rw [SortedMap.find?_insert] at hv
    split at hv
    next hname =>
      subst hname
      exact (by decide : Key.hasDelimiter Key.latestTag = false)
    · exact hbase name ⟨value, hv⟩
  · exact hbase name ⟨value, hv⟩

namespace Holds
variable {setup : Setup} {m : Memory} {r : Registry} (h : Holds setup.catalog m r)
  (hc : setup.catalog.Sound) {t : ResourceType} (ht : setup.catalog.Has t)
include h hc ht

/-- Both ways of finding ids deal out those of the stored resources that carry the tags. -/
theorem pageOfIds_deals {tags : Tags} (hplain : ∀ tag ∈ tags.entries, Key.hasDelimiter tag.1 = false)
    {count : Nat} (hcount : 0 < count) : ∃ toCome : Option String → List String → Prop,
    Deals (fun _ token => Resource.pageOfIds m t.code count tags token) (fun _ => count) toCome ∧
    (∀ token ids, toCome token ids →
      ids.Pairwise (· < ·) ∧ ∀ id ∈ ids, ∃ e, r.entries t.code id = some e) ∧
    ∃ ids, toCome none ids ∧ ∀ id, id ∈ ids ↔
      (∃ e, r.entries t.code id = some e) ∧ Tag.Carries m t.code tags.entries id := by
  cases hempty : tags.isEmpty with
  | true =>
    have hnil : tags.entries = [] := List.isEmpty_iff.mp hempty
    have hpage : (fun (_ : Nat) token => Resource.pageOfIds m t.code count tags token) =
        fun _ => Listing.page m t.code count := by
      funext _ token
      rw [Resource.pageOfIds, if_pos hempty]
    obtain ⟨hasc, hmem⟩ := h.ids_of_type hc ht
    rw [hpage]
    refine ⟨_, Listing.page_deals (h.isSome_id_of_mem_rows hc ht) fun _ => hcount, ?_,
      _, ⟨none, rfl, rfl⟩, fun id => ?_⟩
    · rintro token _ ⟨start, _, rfl⟩
      have hsub := (Listing.rows_sublist m t.code start).map fun row => Listing.idOf row.2
      exact ⟨hasc.sublist hsub, fun id hid => (hmem id).mp (hsub.subset hid)⟩
    · rw [hmem, hnil]
      exact ⟨fun he => ⟨he, List.forall_mem_nil _⟩, fun he => he.1⟩
  | false =>
    have hne : tags.entries ≠ [] := fun hnil => by
      rw [SortedMap.isEmpty, hnil] at hempty
      cases hempty
    have hpage : (fun (_ : Nat) token => Resource.pageOfIds m t.code count tags token) =
        fun _ => Tag.idPage m t.code tags count := by
      funext _ token
      rw [Resource.pageOfIds, if_neg (by simp [hempty]), Tag.idPage]
      cases Tag.searchAll m t.code count tags token <;> rfl
    have hstored : ∀ id, Tag.Carries m t.code tags.entries id → ∃ e, r.entries t.code id = some e := by
      intro id hcarries
      obtain ⟨tag, htag⟩ := List.exists_mem_of_ne_nil _ hne
      exact h.sound.entry_of_tag? hc ht ((h.carries_iff ht).mp hcarries tag htag)
    obtain ⟨ids, hasc, hids, _⟩ := Tag.searchAll_eq h.keyed (h.only hc) (hc.hasDelimiter_code ht) hne
      hplain none
    rw [hpage]
    refine ⟨_, Tag.idPage_deals h.keyed (h.only hc) (hc.hasDelimiter_code ht) hne hplain fun _ => hcount,
      ?_, ids, ⟨hasc, hids⟩, fun id => ?_⟩
    · rintro token ids ⟨hasc, hids⟩
      exact ⟨hasc, fun id hid => hstored id ((hids id).mp hid).2⟩
    · rw [hids]
      refine ⟨fun hid => ⟨hstored id hid.2, hid.2⟩, fun hid => ⟨fun n hn => ?_, hid.2⟩⟩
      cases hn

end Holds

end TagStore
