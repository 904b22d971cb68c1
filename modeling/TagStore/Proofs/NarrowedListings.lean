import TagStore.Proofs.StableWalks

namespace TagStore

namespace ListQuery
variable {q q' : ListQuery} {name value : String}

/-- Whether another condition takes the place of that on a tag, since both are kept under one name. -/
def Replaces (q : ListQuery) (name value : String) : Prop :=
  (∃ field value', q.fields.find? field = some value' ∧ Key.reserved field = name ∧ value' ≠ value) ∨
    q.latestOnly = true ∧ name = Key.latestTag ∧ value ≠ Key.latestValue

/-- Whether no field of a query is kept in the tag of newest children. -/
def Unflagged (q : ListQuery) : Prop :=
  ∀ field value, q.fields.find? field = some value → Key.reserved field ≠ Key.latestTag

theorem Fits.unflagged {setup : Setup} {t : ResourceType} (hq : q.Fits setup t) (hc : setup.catalog.Sound)
    (ht : setup.catalog.Has t) : q.Unflagged := fun field value hfield =>
  hc.unflagged t ht field (hq.fields field (SortedMap.mem_keys_iff.mpr ⟨value, hfield⟩))

theorem find?_wanted_latest (h : q.latestOnly = true) :
    q.wanted.find? Key.latestTag = some Key.latestValue := by
  rw [wanted, h]
  exact SortedMap.find?_insert_self _ _ _

/-- Only the newest children take the place of other conditions on their tag. -/
theorem find?_wanted (h : q.latestOnly = true → name ≠ Key.latestTag) : q.wanted.find? name =
    (q.tags.insertAll (q.fields.entries.map fun e => (Key.reserved e.1, e.2))).find? name := by
  rw [wanted]
  dsimp only
  split
  next hlatest => exact SortedMap.find?_insert_of_ne _ (h hlatest) _
  next => rfl

theorem find?_wanted_field (hq : q.Unflagged) {field : String} (h : q.fields.find? field = some value) :
    q.wanted.find? (Key.reserved field) = some value := by
  rw [find?_wanted fun _ => hq field value h]
  apply SortedMap.find?_insertAll_of_mem
  · exact List.mem_map.mpr ⟨(field, value), SortedMap.mem_entries_iff.mpr h, rfl⟩
  · intro value' hin
    obtain ⟨⟨field', _⟩, he, hsame⟩ := List.mem_map.mp hin
    obtain ⟨hfield, rfl⟩ := Prod.mk.inj hsame
    obtain rfl := Key.reserved_inj.mp hfield
    exact Option.some.inj ((SortedMap.mem_entries_iff.mp he).symm.trans h)

theorem find?_wanted_tag (hfields : ∀ field value, q.fields.find? field = some value → Key.reserved field ≠ name)
    (hlatest : q.latestOnly = true → name ≠ Key.latestTag) : q.wanted.find? name = q.tags.find? name := by
  rw [find?_wanted hlatest]
  apply SortedMap.find?_insertAll_of_ne
  intro e he hname
  obtain ⟨⟨field, value⟩, hin, rfl⟩ := List.mem_map.mp he
  exact hfields field value (SortedMap.mem_entries_iff.mp hin) hname

/-- What a query asks for under a name: the newest children, a field or a tag, in this order. -/
theorem wanted_cases (q : ListQuery) (name : String) :
    (q.latestOnly = true ∧ name = Key.latestTag) ∨
      (∃ field value, q.fields.find? field = some value ∧ Key.reserved field = name) ∨
      (∀ field value, q.fields.find? field = some value → Key.reserved field ≠ name) ∧
        (q.latestOnly = true → name ≠ Key.latestTag) := by
  by_cases hlatest : q.latestOnly = true ∧ name = Key.latestTag
  · exact .inl hlatest
  by_cases hfield : ∃ field value, q.fields.find? field = some value ∧ Key.reserved field = name
  · exact .inr (.inl hfield)
  · exact .inr (.inr ⟨fun field value hf hname => hfield ⟨field, value, hf, hname⟩,
      fun hl hname => hlatest ⟨hl, hname⟩⟩)

/-- A tag that a query names is asked for unless another condition takes its place. -/
theorem find?_wanted_iff (hq : q.Unflagged) (h : q.tags.find? name = some value) :
    q.wanted.find? name = some value ↔ ¬ q.Replaces name value := by
  constructor
  · rintro hwanted (⟨field, value', hfield, rfl, hne⟩ | ⟨hlatest, rfl, hne⟩)
    · rw [find?_wanted_field hq hfield] at hwanted
      exact hne (Option.some.inj hwanted)
    · rw [find?_wanted_latest hlatest] at hwanted
      exact hne (Option.some.inj hwanted).symm
  · intro hkept
    rcases q.wanted_cases name with ⟨hlatest, rfl⟩ | ⟨field, value', hfield, rfl⟩ | ⟨hfields, hlatest⟩
    · rw [find?_wanted_latest hlatest, Option.some.injEq]
      exact (Classical.not_not.mp fun hne => hkept (.inr ⟨hlatest, rfl, hne⟩)).symm
    · rw [find?_wanted_field hq hfield, Option.some.injEq]
      exact Classical.not_not.mp fun hne => hkept (.inl ⟨field, value', hfield, rfl, hne⟩)
    · rw [find?_wanted_tag hfields hlatest, h]

/-- Something is asked for under the name of each tag, be it of another condition. -/
theorem exists_wanted (hq : q.Unflagged) (h : q.tags.find? name = some value) :
    ∃ value', q.wanted.find? name = some value' := by
  rcases q.wanted_cases name with ⟨hlatest, rfl⟩ | ⟨field, value', hfield, rfl⟩ | ⟨hfields, hlatest⟩
  · exact ⟨_, find?_wanted_latest hlatest⟩
  · exact ⟨_, find?_wanted_field hq hfield⟩
  · exact ⟨value, (find?_wanted_tag hfields hlatest).trans h⟩

/-- Whether a query has all conditions of another one, and more of them that take the place of none that
still stood. -/
structure Narrows (q q' : ListQuery) : Prop where
  tags : ∀ name value, q.tags.find? name = some value → q'.tags.find? name = some value
  fields : ∀ field value, q.fields.find? field = some value → q'.fields.find? field = some value
  latestOnly : q.latestOnly = true → q'.latestOnly = true
  withLatest : q'.withLatest = q.withLatest
  replaces : ∀ name value, q.tags.find? name = some value → q'.Replaces name value → q.Replaces name value

/-- One more tag narrows a query: it takes the place of nothing. -/
theorem Narrows.withTag (hnew : q.tags.find? name = none) (value : String) :
    q.Narrows { q with tags := q.tags.insert name value } := by
  refine ⟨fun name' value' h => ?_, fun _ _ h => h, id, rfl, fun _ _ _ hreplaced => hreplaced⟩
  have hne : name' ≠ name := by
    rintro rfl
    rw [hnew] at h
    cases h
  exact (SortedMap.find?_insert_of_ne _ hne value).trans h

/-- So does one more field, if a tag of its name has its value. -/
theorem Narrows.withField {field : String} (hnew : q.fields.find? field = none)
    (hsame : ∀ value', q.tags.find? (Key.reserved field) = some value' → value' = value) :
    q.Narrows { q with fields := q.fields.insert field value } := by
  refine ⟨fun _ _ h => h, fun field' value' h => ?_, id, rfl, fun name value' h hreplaced => ?_⟩
  · have hne : field' ≠ field := by
      rintro rfl
      rw [hnew] at h
      cases h
    exact (SortedMap.find?_insert_of_ne _ hne value).trans h
  · refine hreplaced.imp_left ?_
    rintro ⟨field', found, hfound, rfl, hne⟩
    rw [SortedMap.find?_insert] at hfound
    split at hfound
    next hfield =>
      subst hfield
      exact absurd ((Option.some.inj hfound).symm.trans (hsame value' h).symm) hne
    next => exact ⟨field', found, hfound, rfl, hne⟩

theorem Narrows.withNewest
    (hsame : ∀ value', q.tags.find? Key.latestTag = some value' → value' = Key.latestValue) :
    q.Narrows { q with latestOnly := true } := by
  refine ⟨fun _ _ h => h, fun _ _ h => h, fun _ => rfl, rfl, fun name value h hreplaced => ?_⟩
  rcases hreplaced with hfield | ⟨_, rfl, hne⟩
  · exact .inl hfield
  · exact absurd (hsame value h) hne

theorem Narrows.wanted (h : q.Narrows q') (hq : q.Unflagged) (hq' : q'.Unflagged) {name value : String}
    (hwanted : q.wanted.find? name = some value) : q'.wanted.find? name = some value := by
  rcases q.wanted_cases name with ⟨hlatest, rfl⟩ | ⟨field, value', hfield, rfl⟩ | ⟨hfields, hlatest⟩
  · rw [find?_wanted_latest hlatest] at hwanted
    rw [find?_wanted_latest (h.latestOnly hlatest), hwanted]
  · rw [find?_wanted_field hq hfield] at hwanted
    rw [find?_wanted_field hq' (h.fields field value' hfield), hwanted]
  · rw [find?_wanted_tag hfields hlatest] at hwanted
    have hstands : ¬ q.Replaces name value := by
      rw [← find?_wanted_iff hq hwanted, find?_wanted_tag hfields hlatest, hwanted]
    exact (find?_wanted_iff hq' (h.tags name value hwanted)).mpr fun hreplaced =>
      hstands (h.replaces name value hwanted hreplaced)

end ListQuery

namespace Resource

/-- Whether a resource on a page has what a query asks of it, but for tags that other conditions take the
place of. -/
structure Matches (setup : Setup) (m : Memory) (t : ResourceType) (q : ListQuery) (s : Resource) : Prop where
  tags : ∀ name value, q.tags.find? name = some value →
    (Tag.Carries m t.code [(name, value)] s.id ↔ ¬ q.Replaces name value)
  fields : ∀ field value, q.fields.find? field = some value → searchText? s.fields field = some value
  latestOnly : q.latestOnly = true → ∃ v parentId p, t.versioning = some v ∧
    s.fields.text? v.parentField = some parentId ∧
    m.items.find? (Pointer.key t.code v parentId) = some (Pointer.item (Pointer.key t.code v parentId) p) ∧
    p.child = s.id

theorem fits_of_follows {setup : Setup} {m : Memory} {t : ResourceType} (ht : setup.catalog.Has t)
    {q : ListQuery} {i : Nat} {token : Option String} {pages : List (List Resource)}
    (h : Follows (listPage setup m t.code q) i token pages) : q.Fits setup t := by
  cases h with
  | last hpage => exact fits_of_listPage ht hpage
  | more hpage _ => exact fits_of_listPage ht hpage

end Resource

/-- Whether a listing has one page, with these ids. -/
def Resource.listsOnly (setup : Setup) (m : Memory) (code : String) (q : ListQuery) (ids : List String) : Bool :=
  (listPage setup m code q 0 none).toOption.any fun found =>
    found.2.isNone && decide (found.1.map Resource.id = ids)

theorem Resource.page_of_listsOnly {setup : Setup} {m : Memory} {code : String} {q : ListQuery}
    {ids : List String}
    (h : listsOnly setup m code q ids = true) : ∃ items, items.map Resource.id = ids ∧
      list setup m code { q with token := none } = .ok ⟨items, none⟩ ∧
      Follows (listPage setup m code q) 0 none [items] := by
  obtain ⟨⟨items, next⟩, hfound, hids⟩ := (Option.any_eq_true _ _).mp h
  obtain ⟨hnext, hids⟩ := Bool.and_eq_true_iff.mp hids
  obtain rfl : next = none := Option.isNone_iff_eq_none.mp hnext
  have hpage := Outcome.toOption_eq_some_iff.mp hfound
  refine ⟨items, of_decide_eq_true hids, ?_, .last hpage⟩
  rw [listPage] at hpage
  cases hlist : list setup m code { q with token := none } with
  | error err =>
    rw [hlist] at hpage
    cases hpage
  | ok page =>
    rw [hlist] at hpage
    cases page
    cases hpage
    rfl

namespace Holds
variable {setup : Setup} {m : Memory} {r : Registry} (h : Holds setup.catalog m r)
  (hc : setup.catalog.Sound) {t : ResourceType} (ht : setup.catalog.Has t) {q q' : ListQuery}
include h hc ht

/-- Whatever token a page goes on after, it shows what is stored and carries the tags that are asked for. -/
theorem shown_of_list {page : ResourcePage} (hpage : Resource.list setup m t.code q = .ok page)
    (hwanted : q.wanted.isEmpty = false) {s : Resource} (hs : s ∈ page.items) :
    ∃ e, r.entries t.code s.id = some e ∧ s.fields = e.fields ∧
      Tag.Carries m t.code q.wanted.entries s.id := by
  have hfits := ((Resource.list_eq_ok_iff ht).mp hpage).1
  have htoken : q.token.map (Resource.tokenAfter t.code q.wanted) = q.token := by
    have hself : Resource.tokenAfter t.code q.wanted = id := by
      funext id
      rw [Resource.tokenAfter, hwanted]
      rfl
    rw [hself, Option.map_id_fun, id_eq]
  obtain ⟨items, next, hitems, hafter⟩ := h.listPage_after hc ht hfits 0 q.token
  rw [htoken, Resource.listPage] at hitems
  have hsame : page.items = items := by
    have hlist : Resource.list setup m t.code { q with token := q.token } = .ok page := hpage
    rw [hlist] at hitems
    exact congrArg Prod.fst (Except.ok.inj hitems)
  obtain ⟨hget, _, hcarries⟩ := hafter.shown s (hsame ▸ hs)
  obtain ⟨t', e, ht', he, hentry⟩ := Resource.get_eq_ok h hc hget
  obtain rfl := Option.some.inj (ht.symm.trans ht')
  exact ⟨e, he, congrArg Resource.fields hentry, hcarries⟩

/-- Each condition holds of what a page shows. -/
theorem matches_of_list {page : ResourcePage} (hpage : Resource.list setup m t.code q = .ok page) {s : Resource}
    (hs : s ∈ page.items) : Resource.Matches setup m t q s := by
  have hfits := ((Resource.list_eq_ok_iff ht).mp hpage).1
  have hflag := hfits.unflagged hc ht
  have htag : ∀ name value, q.wanted.find? name = some value → ∃ e, r.entries t.code s.id = some e ∧
      s.fields = e.fields ∧ r.tag? t s.id name = some value := by
    intro name value hwanted
    have hin := SortedMap.mem_entries_iff.mpr hwanted
    have hempty : q.wanted.isEmpty = false := by
      rw [SortedMap.isEmpty, List.isEmpty_eq_false_iff]
      exact List.ne_nil_of_mem hin
    obtain ⟨e, he, hfields, hcarries⟩ := h.shown_of_list hc ht hpage hempty hs
    exact ⟨e, he, hfields, (h.carries_iff ht).mp hcarries _ hin⟩
  refine ⟨fun name value hname => ?_, fun field value hfield => ?_, fun hlatest => ?_⟩
  · obtain ⟨value', hwanted⟩ := ListQuery.exists_wanted hflag hname
    obtain ⟨_, _, _, hvalue⟩ := htag name value' hwanted
    rw [← ListQuery.find?_wanted_iff hflag hname, h.carries_iff ht, List.forall_mem_singleton, hwanted, hvalue]
  · obtain ⟨e, he, hfields, hvalue⟩ := htag _ value (ListQuery.find?_wanted_field hflag hfield)
    have hsearchable := hfits.fields field (SortedMap.mem_keys_iff.mpr ⟨value, hfield⟩)
    rcases (h.sound.tag?_eq_some_iff hc ht).mp hvalue with ⟨hlatest, _⟩ | ⟨e', he', hkept⟩
    · exact absurd hlatest (hflag field value hfield)
    · obtain rfl := Option.some.inj (he.symm.trans he')
      rw [hfields, ← Entry.find?_allTags_reserved (h.sound.entry ht he).2.tags hsearchable, hkept]
  · obtain ⟨e, he, hfields, hvalue⟩ := htag _ _ (ListQuery.find?_wanted_latest hlatest)
    obtain ⟨v, hv⟩ := Option.isSome_iff_exists.mp (hfits.latestOnly hlatest)
    have hnewest : r.isNewest t s.id = true := by
      rw [Registry.tag?, if_pos rfl] at hvalue
      split at hvalue
      next hnewest => exact hnewest
      next => cases hvalue
    obtain ⟨e', parentId, ordering, p, he', hstanding, hpointer, hchild⟩ := (Registry.isNewest_iff hv).mp hnewest
    obtain rfl := Option.some.inj (he.symm.trans he')
    refine ⟨v, parentId, p, hv, ?_, ?_, hchild⟩
    · rw [hfields]
      exact (Checks.requiredText_eq_ok_iff.mp (Resource.standing_eq_ok_iff.mp hstanding).1).1
    · rw [h.mirrors.pointers t v parentId ht hv, hpointer, Option.map_some]

/-- A query with more conditions shows nothing more. -/
theorem shown_of_narrows (hn : q.Narrows q') {pages pages' : List (List Resource)}
    (hp : Follows (Resource.listPage setup m t.code q) 0 none pages)
    (hp' : Follows (Resource.listPage setup m t.code q') 0 none pages') :
    ∀ s ∈ pages'.flatten, s ∈ pages.flatten := by
  have hq := Resource.fits_of_follows ht hp
  have hq' := Resource.fits_of_follows ht hp'
  obtain ⟨_, ids, hdeals, hstart, _, hmem⟩ := h.listPage_deals hc ht hq
  obtain ⟨_, ids', hdeals', hstart', _, hmem'⟩ := h.listPage_deals hc ht hq'
  have hattached : q'.attached setup t = q.attached setup t := by
    rw [ListQuery.attached, ListQuery.attached, hn.withLatest]
  rw [hdeals.flatten_eq hstart hp, hdeals'.flatten_eq hstart' hp', hattached]
  intro s hs
  obtain ⟨id, hid, rfl⟩ := List.mem_map.mp hs
  obtain ⟨he, hcarries⟩ := (hmem' id).mp hid
  refine List.mem_map.mpr ⟨id, (hmem id).mpr ⟨he, fun tag htag => ?_⟩, rfl⟩
  have hwanted := hn.wanted (hq.unflagged hc ht) (hq'.unflagged hc ht) (SortedMap.mem_entries_iff.mp htag)
  exact hcarries tag (SortedMap.mem_entries_iff.mpr hwanted)

end Holds

/-- After any calls, what a page shows has all that is asked of it, but for tags that other conditions of the
query take the place of, and with more conditions that take no tag's place no more is shown. -/
theorem Call.runAll_narrows (settings : Settings) {calls : List Call}
    (htimely : ∀ call ∈ calls, call.Timely) {t : ResourceType} (ht : Catalog.standard.Has t) (q : ListQuery) :
    let setup : Setup := ⟨.standard, settings⟩
    let m := runAll setup calls
    (∀ page, Resource.list setup m t.code q = .ok page → ∀ s ∈ page.items, Resource.Matches setup m t q s) ∧
    ∀ q', q.Narrows q' → ∀ pages pages', Follows (Resource.listPage setup m t.code q) 0 none pages →
      Follows (Resource.listPage setup m t.code q') 0 none pages' → ∀ s ∈ pages'.flatten, s ∈ pages.flatten := by
  intro setup m
  obtain ⟨r, h⟩ := @runAll_holds setup Catalog.standard_sound Catalog.standard_apart calls htimely
  exact ⟨fun _ hpage _ hs => h.matches_of_list Catalog.standard_sound ht hpage hs,
    fun _ hn _ _ hp hp' => h.shown_of_narrows Catalog.standard_sound ht hn hp hp'⟩

/-- The newest states of a polygon are asked for by their tag, and then as such too. -/
theorem Call.runAll_narrows_newestStates :
    let setup : Setup := ⟨.standard, {}⟩
    let m := runAll setup toState
    let q : ListQuery := { fields := .ofList [("polygonId", "c")], tags := .ofList [("___isLatest", "true")] }
    let q' : ListQuery := { q with latestOnly := true }
    (∀ call ∈ toState, call.Timely) ∧ Catalog.standard.Has Catalog.state ∧ q.Narrows q' ∧
      (∃ page s, Resource.list setup m "s" q' = .ok page ∧ s ∈ page.items ∧
        Resource.Matches setup m Catalog.state q' s) ∧
      ∃ pages pages', Follows (Resource.listPage setup m "s" q) 0 none pages ∧
        Follows (Resource.listPage setup m "s" q') 0 none pages' ∧ ∀ s ∈ pages'.flatten, s ∈ pages.flatten := by
  intro setup m q q'
  have ht : Catalog.standard.Has Catalog.state := rfl
  have hn : q.Narrows q' := .withNewest (by decide)
  obtain ⟨items, _, _, hwalk⟩ := Resource.page_of_listsOnly
    (by decide +kernel : Resource.listsOnly setup m "s" q ["d"] = true)
  obtain ⟨items', hids, hlist, hwalk'⟩ := Resource.page_of_listsOnly
    (by decide +kernel : Resource.listsOnly setup m "s" q' ["d"] = true)
  obtain ⟨s, hs, _⟩ := List.mem_map.mp (hids ▸ List.mem_singleton_self "d")
  obtain ⟨hmatches, _⟩ := runAll_narrows {} timely_toState ht q'
  obtain ⟨_, hnarrows⟩ := runAll_narrows {} timely_toState ht q
  exact ⟨timely_toState, ht, hn, ⟨_, s, hlist, hs, hmatches _ hlist s hs⟩,
    [items], [items'], hwalk, hwalk', hnarrows q' hn _ _ hwalk hwalk'⟩

/-- A field that is kept in a tag takes the place of what is asked of the tag itself: groups are shown that
do not carry it, and that were not shown for the tag alone. -/
theorem Call.runAll_narrows_replaced :
    let setup : Setup := ⟨.standard, {}⟩
    let calls : List Call :=
      [.create ⟨0, 0⟩ ⟨some "a", 0⟩ "g" ⟨.ofList [("name", .string "Alps")], .empty⟩ "u",
        .create ⟨1, 0⟩ ⟨some "b", 0⟩ "g" ⟨.ofList [("name", .string "Jura")], .empty⟩ "u"]
    let m := runAll setup calls
    let q : ListQuery := { tags := .ofList [("___name", "Alps")] }
    let q' : ListQuery := { tags := .ofList [("___name", "Alps")], fields := .ofList [("name", "Jura")] }
    (∀ call ∈ calls, call.Timely) ∧
      (∃ page s, Resource.list setup m "g" q' = .ok page ∧ s ∈ page.items ∧
        ¬ Tag.Carries m "g" [("___name", "Alps")] s.id) ∧
      ∃ pages pages', Follows (Resource.listPage setup m "g" q) 0 none pages ∧
        Follows (Resource.listPage setup m "g" q') 0 none pages' ∧ ∃ s ∈ pages'.flatten, s ∉ pages.flatten := by
  intro setup calls m q q'
  have htimely : ∀ call ∈ calls, call.Timely := by
    simp only [calls, List.forall_mem_cons, List.not_mem_nil, false_implies, implies_true, and_true]
    exact ⟨⟨by decide, by decide, by decide⟩, by decide, by decide, by decide⟩
  obtain ⟨items, hids, _, hwalk⟩ := Resource.page_of_listsOnly
    (by decide +kernel : Resource.listsOnly setup m "g" q ["a"] = true)
  obtain ⟨items', hids', hlist', hwalk'⟩ := Resource.page_of_listsOnly
    (by decide +kernel : Resource.listsOnly setup m "g" q' ["b"] = true)
  obtain ⟨s, hs, hid⟩ := List.mem_map.mp (hids' ▸ List.mem_singleton_self "b")
  have hnot : ¬ Tag.Carries m "g" [("___name", "Alps")] s.id := by
    intro hcarries
    have hvalue := congrArg (fun item => item.bind fun i => Item.text? i Attribute.tagValue)
      (hcarries _ (List.mem_singleton_self _))
    rw [hid] at hvalue
    revert hvalue
    decide +kernel
  refine ⟨htimely, ⟨_, s, hlist', hs, hnot⟩, [items], [items'], hwalk, hwalk', s, by simpa using hs,
    fun hin => ?_⟩
  have hin : s ∈ items := by simpa using hin
  have hfirst : s.id ∈ items.map Resource.id := List.mem_map.mpr ⟨s, hin, rfl⟩
  rw [hids, hid] at hfirst
  revert hfirst
  decide

end TagStore
