import TagStore.Proofs.Agreement
import TagStore.Proofs.ListWalks

namespace TagStore

theorem Instant.ofReading?_toMillis {i : Instant} (h : ofReading? i.seconds i.nanos = some i) :
    ofReading? i.toMillis.seconds i.toMillis.nanos = some i.toMillis := by
  have hle : i.nanos / 1000000 * 1000000 ≤ i.nanos := Nat.div_mul_le_self _ _
  change ofReading? i.seconds (i.nanos / 1000000 * 1000000) = some ⟨i.seconds, i.nanos / 1000000 * 1000000⟩
  unfold ofReading? at h ⊢
  split at h
  · cases h
  next hrange =>
    rw [if_neg hrange]
    split at h
    · rw [if_pos (by omega)]
    · split at h
      next hleap =>
        split
        · rfl
        · rw [if_pos (by omega)]
      · cases h

/-- Whether an entry is for a resource that was created at a time that there is. -/
def Entry.Dated (e : Entry) : Prop :=
  Instant.ofReading? e.audit.createdAt.seconds e.audit.createdAt.nanos = some e.audit.createdAt

theorem Entry.ReadAs.createdAt_eq {t : ResourceType} {id : String} {e : Entry} {found : Resource}
    (h : e.ReadAs t id found) (he : e.Dated) :
    Rfc3339.Readable e.audit.createdAt ∧ found.createdAt = e.audit.createdAt.toMillis := by
  have hyear := Rfc3339.year_of_read_write (by omega) h.createdAt
  have hreadable : Rfc3339.Readable e.audit.createdAt := ⟨he, hyear.1, hyear.2⟩
  exact ⟨hreadable, Except.ok.inj (h.createdAt.symm.trans (Rfc3339.read_write_millis hreadable))⟩

namespace Call

/-- Whether the clock shows a time that there is. -/
def Actual : Call → Prop
  | create now .. => Instant.ofReading? now.seconds now.nanos = some now
  | update now .. => Instant.ofReading? now.seconds now.nanos = some now
  | delete .. => True
  | inject _ => True

theorem Timely.actual {call : Call} (h : call.Timely) : call.Actual := by
  cases call with
  | create now ids code new user => exact h.reading
  | update now code id change user => exact h.reading
  | delete code id => trivial
  | inject fault => trivial

variable {setup : Setup} (hc : setup.catalog.Sound) (hapart : ∀ code id, setup.catalog.Apart code id)
include hc hapart

theorem run_dated {m : Memory} {r : Registry} (h : Stands setup.catalog m r) (hdated : r.Every Entry.Dated)
    {call : Call} (hactual : call.Actual) :
    ∃ r', Stands setup.catalog (call.run setup m) r' ∧ r'.Every Entry.Dated := by
  cases call with
  | create now ids code new user =>
    rcases Resource.create_enlists hc h now ids (hapart code ids.take.1) new user with
      ⟨_, hitems⟩ | ⟨_, _, _, _, _, _, _, h'⟩
    · exact ⟨r, h.of_items_eq hitems, hdated⟩
    · exact ⟨_, h', hdated.enlist _ (Instant.ofReading?_toMillis hactual)⟩
  | update now code id change user =>
    rcases Resource.update_revises hc h now code id change user with
      ⟨_, hitems⟩ | ⟨_, e, existing, _, _, he, hread, _, _, _, h'⟩
    · exact ⟨r, h.of_items_eq hitems, hdated⟩
    · refine ⟨_, h', hdated.setEntry ?_⟩
      intro e' he'
      obtain rfl := Option.some.inj he'
      obtain ⟨hreadable, hcreated⟩ := hread.createdAt_eq (hdated _ _ e he)
      change Instant.ofReading? existing.createdAt.seconds existing.createdAt.nanos = some existing.createdAt
      rw [hcreated]
      exact Instant.ofReading?_toMillis hreadable.reading
  | delete code id =>
    rcases Resource.delete_delists hc h code id with ⟨_, hitems⟩ | ⟨_, _, r', _, _, _, _, _, hdelists, h'⟩
    · exact ⟨r, h.of_items_eq hitems, hdated⟩
    · exact ⟨r', h', hdated.delists hdelists⟩
  | inject fault => exact ⟨r, h.of_items_eq rfl, hdated⟩

/-- Where clocks show times that there are, resources are dated by them. -/
theorem runAll_dated {calls : List Call} (hactual : ∀ call ∈ calls, call.Actual) :
    ∃ r, Stands setup.catalog (runAll setup calls) r ∧ r.Every Entry.Dated := by
  apply runAll_induction (fun m => ∃ r, Stands setup.catalog m r ∧ r.Every Entry.Dated)
    ⟨.empty, Stands.empty _, nofun⟩
  rintro m ⟨r, h, hdated⟩ call hcall
  exact run_dated hc hapart h hdated (hactual call hcall)

end Call

namespace Resource

/-- A text stands in every field that an update leaves as it is. -/
theorem fixed_text {r : Registry} {t : ResourceType} {e : Entry} (h : e.Sound r t) {name : String}
    (hname : name ∈ t.fixedFields) : ∃ text, e.fields.find? name = some (.string text) := by
  have hrequired : ∀ {text}, Checks.requiredText e.fields name = .ok text →
      ∃ text, e.fields.find? name = some (.string text) := fun hp =>
    ⟨_, text?_eq_some_iff.mp (Checks.requiredText_eq_ok_iff.mp hp).1⟩
  rcases List.mem_append.mp hname with hname | hname
  · obtain ⟨link, hlink, rfl⟩ := Option.map_eq_some_iff.mp (Option.mem_toList.mp hname)
    obtain ⟨parentId, hp, _⟩ := h.parent link hlink
    exact hrequired hp
  · cases hv : t.versioning with
    | none =>
      rw [hv] at hname
      cases hname
    | some v =>
      obtain ⟨parentId, ordering, hs⟩ := h.standing v hv
      obtain ⟨hp, text, htext, _⟩ := standing_eq_ok_iff.mp hs
      simp only [hv, Option.map_some, Option.getD_some, List.mem_cons, List.not_mem_nil, or_false] at hname
      rcases hname with rfl | rfl
      · exact hrequired hp
      · exact ⟨text, htext⟩

theorem placement_merge {r : Registry} {t : ResourceType} {e : Entry} (h : e.Sound r t) {changes : Item}
    (hfixed : checkFixed e.fields changes t.fixedFields = .ok ()) :
    placement t (mergeFields e.fields changes) = placement t e.fields := by
  cases hv : t.versioning with
  | none => simp only [placement, hv]
  | some v =>
    obtain ⟨parentId, ordering, hs⟩ := h.standing v hv
    simp only [placement, hv, hs, standing_merge hfixed hv hs]

/-- The canonical item of a resource goes on to stand under its parent where it stood. -/
theorem place_merge {c : Catalog} {m m' : Memory} {r : Registry} (h : Stands c m r) {t : ResourceType}
    (ht : c.Has t) {id : String} {e e' : Entry} (he : r.entries t.code id = some e) {changes : Item}
    (hfixed : checkFixed e.fields changes t.fixedFields = .ok ())
    (hmerged : e'.fields = mergeFields e.fields changes)
    (h' : Stands c m' (r.setEntry t.code id (some e'))) : ∃ item item',
      m.items.find? ⟨Key.resource t.code id, Key.resource t.code id⟩ = some item ∧
      m'.items.find? ⟨Key.resource t.code id, Key.resource t.code id⟩ = some item' ∧
      item'.find? Attribute.parent = item.find? Attribute.parent ∧
      item'.find? Attribute.order = item.find? Attribute.order := by
  have hentry := Registry.entries_setEntry_self r t.code id (some e')
  obtain ⟨hid, hsound⟩ := h.sound.entry ht he
  obtain ⟨_, hsound'⟩ := h'.sound.entry ht hentry
  obtain ⟨item, hi⟩ := Registry.canonical_of_sound hsound id
  obtain ⟨item', hi'⟩ := Registry.canonical_of_sound hsound' id
  obtain ⟨place, hplace, _⟩ := canonicalItem_eq_ok_iff.mp hi
  have hplace' : placement t e'.fields = .ok place := by
    rw [hmerged, placement_merge hsound hfixed, hplace]
  refine ⟨item, item', ?_, ?_, ?_, ?_⟩
  · rw [h.mirrors.canonical t _ ht hid]
    exact Registry.canonical?_eq_some_iff.mpr ⟨e, he, hi⟩
  · rw [h'.mirrors.canonical t _ ht hid]
    exact Registry.canonical?_eq_some_iff.mpr ⟨e', hentry, hi'⟩
  · rw [find?_canonical_place hi' hsound'.fields hplace' (.inl rfl),
      find?_canonical_place hi hsound.fields hplace (.inl rfl)]
  · rw [find?_canonical_place hi' hsound'.fields hplace' (.inr rfl),
      find?_canonical_place hi hsound.fields hplace (.inr rfl)]

/-- A resource that was updated as it was asked for, and can be read back; it stays where it stands, and
nothing outside of its own partition is changed. -/
structure Updated (setup : Setup) (m m' : Memory) (t : ResourceType) (now : Instant) (change : ResourceUpdate)
    (user : String) (before after : Resource) : Prop where
  id : after.id = before.id
  code : after.code = before.code
  set : ∀ name value, change.fields.find? name = some value → value.isNull = false →
    after.fields.find? name = some value
  removed : ∀ name value, change.fields.find? name = some value → value.isNull = true →
    after.fields.find? name = none
  kept : ∀ name, change.fields.find? name = none → after.fields.find? name = before.fields.find? name
  tags : ∀ name, after.tags.find? name = (change.tags.find? name).getD (before.tags.find? name)
  createdAt : after.createdAt = before.createdAt
  createdBy : after.createdBy = before.createdBy
  updatedAt : after.updatedAt = some now.toMillis
  updatedBy : after.updatedBy = some user
  stored : get setup m' t.code before.id = .ok after
  fixed : ∀ name ∈ t.fixedFields, after.fields.find? name = before.fields.find? name
  place : ∃ item item',
    m.items.find? ⟨Key.resource t.code before.id, Key.resource t.code before.id⟩ = some item ∧
    m'.items.find? ⟨Key.resource t.code before.id, Key.resource t.code before.id⟩ = some item' ∧
    item'.find? Attribute.parent = item.find? Attribute.parent ∧
    item'.find? Attribute.order = item.find? Attribute.order
  outside : ∀ key, key.partition ≠ Key.resource t.code before.id → m'.items.find? key = m.items.find? key

/-- An update that is answered with a resource has updated it. -/
theorem update_updated {setup : Setup} (hc : setup.catalog.Sound) {m : Memory} {r : Registry}
    (h : Stands setup.catalog m r) (hdated : r.Every Entry.Dated) {now : Instant}
    (hnow : Rfc3339.Readable now) {code id : String} {change : ResourceUpdate} {user : String}
    {after : Resource} {m' : Memory} (hupdate : update setup now m code id change user = (.ok after, m')) :
    ∃ t before, setup.catalog.types.find? code = some t ∧ get setup m code id = .ok before ∧
      before.id = id ∧ Updated setup m m' t now change user before after := by
  rcases update_revises hc h now code id change user with ⟨⟨err, herror⟩, _⟩ |
    ⟨t, e, before, ht, rfl, he, hread, hget, hfixed, hanswer, h'⟩
  · rw [hupdate] at herror
    cases herror
  rw [hupdate] at hanswer h'
  obtain ⟨hreadable, hcreated⟩ := hread.createdAt_eq (hdated _ _ e he)
  have hlegible : (before.entry.updated change now user).Legible := by
    refine updated_legible ?_ hnow change user
    change Rfc3339.read (Rfc3339.write 3 before.createdAt) = .ok before.createdAt
    rw [hcreated, Rfc3339.write_toMillis]
    exact Rfc3339.read_write_millis hreadable
  have hentry := Registry.entries_setEntry_self r t.code id (some (before.entry.updated change now user))
  have hstored := get_legible h' hc ht hentry hlegible
  obtain rfl : after = (before.entry.updated change now user).resource t id :=
    Except.ok.inj (hanswer.trans hstored)
  have hmerged : (before.entry.updated change now user).fields = mergeFields before.fields change.fields := rfl
  have hfields := find?_mergeFields before.fields change.fields
  obtain ⟨_, hsound⟩ := h.sound.entry ht he
  refine ⟨t, before, ht, hget, hread.id, ?_⟩
  obtain rfl := hread.id
  refine
    { id := rfl
      code := hread.code.symm
      set := fun name value hv hnull => ?_
      removed := fun name value hv hnull => ?_
      kept := fun name hv => ?_
      tags := Tags.find?_granting before.tags change.tags
      createdAt := rfl
      createdBy := rfl
      updatedAt := rfl
      updatedBy := rfl
      stored := hstored
      fixed := fun name hname => ?_
      place := ?_
      outside := fun key hkey => ?_ }
  · exact (hfields name).trans (by simp only [hv, hnull, Bool.false_eq_true, if_false])
  · exact (hfields name).trans (by simp only [hv, hnull, if_true])
  · exact (hfields name).trans (by simp only [hv])
  · obtain ⟨text, htext⟩ := fixed_text hsound hname
    rw [← hread.fields] at hfixed htext
    exact (find?_mergeFields_fixed hfixed hname htext).trans htext.symm
  · exact place_merge h ht he hfixed (by rw [hmerged, hread.fields]) h'
  · exact h.mirrors.eq_of_agreeAt h'.mirrors (Registry.agreeAt_setEntry ht _ hkey)

end Resource

/-- After any calls, whatever the years that their clocks show, an update that is answered with a resource has
updated it as it was asked for, and nothing else. -/
theorem Call.runAll_updated (settings : Settings) {calls : List Call}
    (hactual : ∀ call ∈ calls, call.Actual) {now : Instant} (hnow : Rfc3339.Readable now)
    (code id : String) (change : ResourceUpdate) (user : String) :
    let setup : Setup := ⟨.standard, settings⟩
    let m := runAll setup calls
    ∀ {after : Resource} {m' : Memory}, Resource.update setup now m code id change user = (.ok after, m') →
      ∃ t before, Catalog.standard.types.find? code = some t ∧ Resource.get setup m code id = .ok before ∧
        before.id = id ∧ Resource.Updated setup m m' t now change user before after := by
  intro setup m after m' hupdate
  have hc : setup.catalog.Sound := Catalog.standard_sound
  obtain ⟨r, h, hdated⟩ := @runAll_dated setup hc Catalog.standard_apart calls hactual
  exact Resource.update_updated hc h hdated hnow hupdate

/-- The polygon `c` is renamed, and loses its tag for another. -/
theorem Call.runAll_updated_polygon :
    let setup : Setup := ⟨.standard, {}⟩
    let m := runAll setup toState
    let change : ResourceUpdate := ⟨.ofList [("name", .string "Peak"), ("regionId", .string "b")],
      .ofList [("area", none), ("snow", some "deep")]⟩
    (∀ call ∈ toState, call.Actual) ∧ Rfc3339.Readable ⟨4, 5000001⟩ ∧ ∃ before after m',
      Resource.update setup ⟨4, 5000001⟩ m "p" "c" change "w" = (.ok after, m') ∧
        Resource.Updated setup m m' Catalog.polygon ⟨4, 5000001⟩ change "w" before after ∧
        after.fields.find? "name" = some (.string "Peak") ∧ after.tags.find? "area" = none ∧
        after.updatedAt = some ⟨4, 5000000⟩ := by
  intro setup m change
  have hactual : ∀ call ∈ toState, call.Actual := fun call hcall => (timely_toState call hcall).actual
  have hnow : Rfc3339.Readable ⟨4, 5000001⟩ := ⟨by decide, by decide, by decide⟩
  refine ⟨hactual, hnow, ?_⟩
  have hok : (Resource.update setup ⟨4, 5000001⟩ m "p" "c" change "w").1.isOk = true := by decide +kernel
  rcases hupdate : Resource.update setup ⟨4, 5000001⟩ m "p" "c" change "w" with ⟨answer, m'⟩
  rw [hupdate] at hok
  obtain ⟨after, rfl⟩ := Outcome.isOk_iff.mp hok
  obtain ⟨t, before, ht, _, _, h⟩ := runAll_updated {} hactual hnow "p" "c" change "w" hupdate
  obtain rfl : Catalog.polygon = t := Option.some.inj ht
  exact ⟨before, after, m', rfl, h, h.set "name" _ rfl rfl, h.tags "area", h.updatedAt⟩

end TagStore
