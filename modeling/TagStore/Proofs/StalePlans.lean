import TagStore.Proofs.Effects
import TagStore.Proofs.LatestStates
import TagStore.Proofs.StoredItems

namespace TagStore

/-- Whether a registry is what another one has become by calls on the resources of one type: all others
are as they were, and those that are still there stand where they stood. -/
structure Registry.Later (t : ResourceType) (r r' : Registry) : Prop where
  others : ∀ code id, code ≠ t.code → r'.entries code id = r.entries code id
  stands : ∀ v id e e', t.versioning = some v → r.entries t.code id = some e →
    r'.entries t.code id = some e' → Resource.standing v e'.fields = Resource.standing v e.fields

namespace Registry.Later
variable {c : Catalog} {t : ResourceType} {r r' : Registry}

theorem refl (t : ResourceType) (r : Registry) : Later t r r := by
  refine ⟨fun _ _ _ => rfl, fun v id e e' _ he he' => ?_⟩
  rw [Option.some.inj (he.symm.trans he')]

variable (h : Later t r r')
include h

/-- A resource that was there stays where it stands, and a new one may stand anywhere. -/
theorem step {r'' : Registry} {id : String} {e : Option Entry}
    (hentries : r''.entries = (r'.setEntry t.code id e).entries)
    (hstands : ∀ v d d', t.versioning = some v → r.entries t.code id = some d → e = some d' →
      Resource.standing v d'.fields = Resource.standing v d.fields) : Later t r r'' := by
  refine ⟨fun code i hcode => ?_, fun v i d d' hv hd hd' => ?_⟩
  · rw [hentries, entries_setEntry_of_ne _ _ _ _ fun hself => hcode hself.1]
    exact h.others code i hcode
  · rw [hentries] at hd'
    by_cases hid : i = id
    · subst hid
      rw [entries_setEntry_self] at hd'
      exact hstands v d d' hv hd hd'
    · rw [entries_setEntry_of_ne _ _ _ _ fun hself => hid hself.2] at hd'
      exact h.stands v i d d' hv hd hd'

/-- A pointer that names the child that it named is the same. -/
theorem pointer_eq (hr : r.Sound c) (hr' : r'.Sound c) (ht : c.Has t) {parentId : String} {p p' : Pointer}
    (hp : r.pointers t.code parentId = some p) (hp' : r'.pointers t.code parentId = some p')
    (hchild : p'.child = p.child) : p' = p := by
  obtain ⟨child, ordering⟩ := p
  obtain ⟨child', ordering'⟩ := p'
  obtain rfl : child' = child := hchild
  obtain ⟨t', v, e, ht', hv, he, hs⟩ := hr.pointers _ _ _ hp
  obtain rfl := Option.some.inj (ht.symm.trans ht')
  obtain ⟨e', he', hs'⟩ := hr'.pointee ht hv hp'
  rw [h.stands v _ e e' hv he he', hs, Except.ok.injEq, Prod.mk.injEq] at hs'
  exact congrArg _ hs'.2.symm

/-- An entry that was sound stays so, if the resources of the type have no children. -/
theorem entry_sound (hleaf : ∀ t', c.Has t' → t'.linksTo t.code = []) (ht : c.Has t) {e : Entry}
    (he : e.Sound r t) : e.Sound r' t := by
  refine ⟨he.fields, he.tags, he.standing, fun link hl => ?_⟩
  obtain ⟨parentId, hparent, hsome⟩ := he.parent link hl
  have hcode : link.code ≠ t.code := fun hcode => by
    have hlink := ResourceType.mem_linksTo_parent hl
    rw [hcode, hleaf t ht] at hlink
    cases hlink
  exact ⟨parentId, hparent, by rwa [h.others _ _ hcode]⟩

end Registry.Later

/-- Whether a call is on resources of one type, and creates none under an id that one of them has. -/
def Call.OnlyOn (setup : Setup) (m : Memory) (code : String) : Call → Prop
  | create _ ids code' .. => code' = code ∧ ∀ s, Resource.get setup m code ids.take.1 ≠ .ok s
  | update _ code' .. => code' = code
  | delete code' _ => code' = code
  | inject _ => True

namespace Call
variable {setup : Setup} (hc : setup.catalog.Sound) (hapart : ∀ code id, setup.catalog.Apart code id)
  {m : Memory} {r : Registry} (h : Holds setup.catalog m r) {t : ResourceType} (ht : setup.catalog.Has t)
include hc hapart h ht

theorem run_later {m' : Memory} {r' : Registry} (h' : Holds setup.catalog m' r') (hl : r.Later t r')
    {call : Call} (htimely : call.Timely) (hon : call.OnlyOn setup m t.code) :
    ∃ r'', Holds setup.catalog (call.run setup m') r'' ∧ r.Later t r'' := by
  cases call with
  | create now ids code new user =>
    obtain ⟨rfl, hfresh⟩ := hon
    rcases Resource.create_cases hc h' htimely ids (hapart t.code ids.take.1) new user with
      ⟨_, hitems⟩ | ⟨t', fields, ht', hcode, _, _, _, hholds⟩
    · exact ⟨r', h'.of_items_eq hitems, hl⟩
    · obtain rfl := ht'.eq_of_code ht hcode
      refine ⟨_, hholds, hl.step (Registry.entries_enlist_eq _ _ _ _) fun v d d' _ hd _ => ?_⟩
      exact absurd (Resource.get_some h hc ht hd) (hfresh _)
  | update now code id change user =>
    obtain rfl : code = t.code := hon
    rcases Resource.update_cases hc h' htimely t.code id change user with
      ⟨_, hitems⟩ | ⟨t', e, ht', hcode, he, hfixed, _, hholds⟩
    · exact ⟨r', h'.of_items_eq hitems, hl⟩
    · obtain rfl := ht'.eq_of_code ht hcode
      refine ⟨_, hholds, hl.step rfl fun v d d' hv hd hd' => ?_⟩
      obtain rfl := Option.some.inj hd'
      obtain ⟨parentId, ordering, hs⟩ := (h'.sound.entry ht he).2.standing v hv
      rw [← hl.stands v id d e hv hd he, hs]
      exact Resource.standing_merge hfixed hv hs
  | delete code id =>
    obtain rfl : code = t.code := hon
    rcases Resource.delete_cases hc h' t.code id with ⟨_, hitems⟩ | ⟨_, r'', _, _, _, hentries, hholds⟩
    · exact ⟨r', h'.of_items_eq hitems, hl⟩
    · exact ⟨r'', hholds, hl.step hentries nofun⟩
  | inject fault => exact ⟨r', h'.of_items_eq rfl, hl⟩

/-- However many calls are made on resources of one type, those of them that stay stand where they
stood, and no other resource comes or goes. -/
theorem foldl_later {calls : List Call} (htimely : ∀ call ∈ calls, call.Timely)
    (hon : ∀ call ∈ calls, call.OnlyOn setup m t.code) :
    ∃ r', Holds setup.catalog (calls.foldl (run setup) m) r' ∧ r.Later t r' := by
  apply foldl_induction (fun m' => ∃ r', Holds setup.catalog m' r' ∧ r.Later t r')
  · rintro m' ⟨r', h', hl⟩ call hcall
    exact run_later hc hapart h ht h' hl (htimely call hcall) (hon call hcall)
  · exact ⟨r, h, .refl t r⟩

end Call

/-- A pointer that meets the condition on which it is to be set is that which was read. -/
theorem Holds.pointer_of_guard {c : Catalog} {m m' : Memory} {r r' : Registry} (h : Holds c m r)
    (h' : Holds c m' r') {t : ResourceType} (hl : r.Later t r') (ht : c.Has t) {v : Versioning}
    (hv : t.versioning = some v) {parentId : String}
    (hguard : (Version.guardOf (r.pointers t.code parentId)).holds
      (m'.items.find? (Pointer.key t.code v parentId)) = true) :
    r'.pointers t.code parentId = r.pointers t.code parentId := by
  rw [h'.mirrors.pointers t v parentId ht hv] at hguard
  cases hp : r.pointers t.code parentId with
  | none =>
    rw [hp] at hguard
    simpa [Version.guardOf, Condition.holds] using hguard
  | some p =>
    cases hp' : r'.pointers t.code parentId with
    | none =>
      rw [hp, hp'] at hguard
      cases hguard
    | some p' =>
      rw [hp, hp', Option.map_some] at hguard
      rw [hl.pointer_eq h.sound h'.sound ht hp hp' ((Version.holds_names_iff _ _ _).mp hguard)]

/-- Of the resources of a type, those have the tag of the newest that pointers name. -/
theorem Holds.isSome_latestKey_iff {c : Catalog} {m : Memory} {r : Registry} (h : Holds c m r)
    {t : ResourceType} (ht : c.Has t) {id : String} :
    (m.items.find? (Version.latestKey t.code id)).isSome = true ↔
      ∃ parentId p, r.pointers t.code parentId = some p ∧ p.child = id := by
  rw [h.find?_flag ht, ← h.sound.isNewest_iff_named ht]
  cases r.isNewest t id <;> simp

namespace Resource
variable {setup : Setup} (hc : setup.catalog.Sound) {m m' : Memory} {r r' : Registry}
  (h : Holds setup.catalog m r) (h' : Holds setup.catalog m' r') {t : ResourceType}
  (ht : setup.catalog.Has t) (hl : r.Later t r')
  (hleaf : ∀ t', setup.catalog.Has t' → t'.linksTo t.code = []) {id : String}
  (hid : setup.catalog.Apart t.code id) {attempts : Nat} {m'' : Memory}
include hc h h' ht hl hleaf hid

/-- A resource that was planned for one store comes to a later one as it should, but if it was older
than the newest child: then no work was planned for the pointer, and some other child has to be there
that is not older. -/
theorem commit_creation {now : Instant} (hnow : Rfc3339.Readable now) {new : NewResource} {fields : Item}
    {user : String} {ops : List WriteOp} (hfields : newFields setup m t new = .ok fields)
    (hplan : planCreate m t now id fields new.tags user = .ok ops)
    (holder : ∀ v parentId ordering p, t.versioning = some v → standing v fields = .ok (parentId, ordering) →
      r.pointers t.code parentId = some p → ordering < p.ordering →
      ∃ p', r'.pointers t.code parentId = some p' ∧ ¬ p'.ordering < ordering)
    (hcommit : Commit.batch attempts ops m' = (.ok (), m'')) : ∃ r'', Holds setup.catalog m'' r'' := by
  obtain ⟨item, hi, hcases⟩ := planCreate_inv hplan
  have hsound := hl.entry_sound hleaf ht (fresh_sound hc h.toStands hfields hi)
  have hlegible := fresh_legible hnow fields new.tags user
  generalize hfresh : fresh fields new.tags now user = e at hi hcases hsound hlegible
  have hlegible : (r'.setEntry t.code id (some e)).Every Entry.Legible :=
    h'.legible.setEntry fun _ h => Option.some.inj h ▸ hlegible
  have hfresh : e.fields = fields := by rw [← hfresh]; rfl
  rw [← hfresh] at hi
  have hkeyed := keyed_creation hi
  have hfind := find?_creation hc.toChecked ht id item e
  rcases hcases with ⟨hv, rfl⟩ | ⟨v, parentId, ordering, b, newest, hv, hs, hadd, rfl⟩
  · obtain ⟨hallowed, heffect⟩ := Commit.effect_of_ok hkeyed hcommit
    have hnone := entry_eq_none h'.toStands ht hid (hallowed _ _ hfind)
    exact ⟨_, ⟨h'.sound.add_unversioned ht hnone hid hsound hv,
      heffect ▸ mirrors_creation hc h'.toStands ht hid hnone hsound hi⟩, hlegible⟩
  · rw [Version.addChild_eq (h.find?_pointer ht hv parentId), Except.ok.injEq] at hadd
    have hs' : standing v e.fields = .ok (parentId, ordering) := hfresh ▸ hs
    split at hadd
    next hlt =>
      obtain ⟨rfl, _⟩ := Prod.mk.inj hadd
      obtain ⟨hallowed, heffect⟩ := Commit.effect_of_ok hkeyed hcommit
      have hnone := entry_eq_none h'.toStands ht hid (hallowed _ _ hfind)
      obtain ⟨p, hp, hlt⟩ := (Option.any_eq_true _ _).mp hlt
      obtain ⟨p', hp', hle⟩ := holder v parentId ordering p hv hs hp (of_decide_eq_true hlt)
      exact ⟨_, ⟨h'.sound.add_older ht hnone hid hsound hv hs' hp' hle,
        heffect ▸ mirrors_creation hc h'.toStands ht hid hnone hsound hi⟩, hlegible⟩
    next hge =>
      obtain ⟨rfl, _⟩ := Prod.mk.inj hadd
      obtain ⟨hallowed, heffect⟩ := Commit.effect_of_ok (Version.keyed_repoint hkeyed) hcommit
      have hnone : r'.entries t.code id = none := by
        refine entry_eq_none h'.toStands ht hid (hallowed _ _ ((Version.find?_repoint_of_ne ?_ ?_).trans hfind))
        · exact hc.canonicalKey_ne_pointerKey ht ht hid hv parentId
        · exact fun i => hc.canonicalKey_ne_tagKey ht id _ _
      have hmet := hallowed _ _ (Version.find?_repoint_key nofun fun i =>
        hc.tagKey_ne_pointerKey ht _ _ v parentId)
      rw [WriteOp.allowed, Version.condition_setting] at hmet
      have hsame := h.pointer_of_guard h' hl ht hv hmet
      rw [← hsame] at heffect hge
      refine ⟨_, ⟨h'.sound.add_newest ht hnone hid hsound hv hs' fun p hp hlt => hge ?_,
        heffect ▸ mirrors_promotion hc h'.toStands ht hid hnone hsound hi hv hs' _⟩, hlegible⟩
      exact (Option.any_eq_true _ _).mpr ⟨p, hp, decide_eq_true hlt⟩

/-- A resource that was to be deleted from one store goes from a later one as it should, if it has no items
there that it had not, and if the child that was to take its place is still the one that succeeds it. -/
theorem commit_deletion {ops : List WriteOp} (hplan : planDelete setup m t id = .ok ops)
    (hitems : ∀ key, key.partition = Key.resource t.code id → (m'.items.find? key).isSome = true →
      (m.items.find? key).isSome = true)
    (hheir : ∀ v parentId p next, t.versioning = some v → r.pointers t.code parentId = some p →
      p.child = id → r.Succeeds t v parentId id next →
      (∀ q, next = some q → .put (Version.latestItem t.code q.child) none ∈ ops) →
      (next = none → ∃ condition, .delete (Pointer.key t.code v parentId) condition ∈ ops) →
      r'.Succeeds t v parentId id next)
    (hcommit : Commit.batch attempts ops m' = (.ok (), m'')) : ∃ r'', Holds setup.catalog m'' r'' := by
  obtain ⟨e, b, he, _, hdelete, hcases⟩ := planDelete_cases hc h.toStands ht hplan
  obtain ⟨b', hb', hkeyed, hkept, hgone, hleaves⟩ := deleteAll_itemsIn h.keyed (Key.resource t.code id)
  obtain rfl := Except.ok.inj (hdelete.symm.trans hb')
  have hnone : r'.Childless setup.catalog t.code id := by
    intro t' field ht' hf
    rw [hleaf t' ht'] at hf
    cases hf
  have hgone' : ∀ key, key.partition = Key.resource t.code id → b.effect m'.items key = none :=
    fun key hkey => Batch.effect_eq_none_of_keys (hleaves key) (hgone key hkey) (hitems key hkey)
  have hmirrors := mirrors_removed hc h'.toStands ht hnone hid hkept hgone'
  have hlegible : (r'.setEntry t.code id none).Every Entry.Legible := h'.legible.setEntry nofun
  rcases hcases with ⟨hnot, rfl⟩ | ⟨v, parentId, p, next, hv, hp, rfl, hnext, rfl⟩
  · obtain ⟨_, heffect⟩ := Commit.effect_of_ok hkeyed hcommit
    refine ⟨_, ⟨h'.sound.remove_unnamed (hnone.parent_ne hc) fun parentId p' hp' hchild => ?_,
      heffect ▸ hmirrors⟩, hlegible⟩
    -- It has not become the newest child since, for it would have the tag.
    have hflag := hitems _ rfl ((h'.isSome_latestKey_iff ht).mpr ⟨parentId, p', hp', hchild⟩)
    obtain ⟨parentId', p, hp, hchild⟩ := (h.isSome_latestKey_iff ht).mp hflag
    exact hnot parentId' p hp hchild
  · obtain ⟨hallowed, heffect⟩ := Commit.effect_of_ok (Version.keyed_repoint hkeyed) hcommit
    have hne : ∀ i, Version.latestKey t.code i ≠ Pointer.key t.code v parentId := fun i =>
      hc.tagKey_ne_pointerKey ht _ _ v parentId
    have hoff : (Pointer.key t.code v parentId).partition ≠ Key.resource t.code p.child := fun hpartition => by
      have hlink := ResourceType.mem_linksTo_versioning hv
      rw [(Key.resource_inj (hc.plain t v ht hv) (hc.hasDelimiter_code ht) hpartition).1, hleaf t ht] at hlink
      cases hlink
    have hset : (Version.repoint b t.code (Pointer.key t.code v parentId) (some p) next
        (Version.names p.child)).find? (Pointer.key t.code v parentId) =
          some (Version.setting (Pointer.key t.code v parentId) (Version.names p.child) next) :=
      Version.find?_repoint_key (fun _ => hkept _ hoff) hne
    have hmet := hallowed _ _ hset
    rw [WriteOp.allowed, Version.condition_setting] at hmet
    have hsame := (h.pointer_of_guard h' hl ht hv (by rw [hp]; exact hmet)).trans hp
    have hnext' := hheir v parentId p next hv hp rfl hnext.toSucceeds
      (fun q hq => Batch.mem_ops_of_find? (hq ▸ Version.find?_repoint_latestKey q (hne q.child)))
      (fun hq => ⟨some (Version.names p.child), Batch.mem_ops_of_find? (hset.trans (by rw [hq]; rfl))⟩)
    exact ⟨_, ⟨h'.sound.remove_newest ht (hnone.parent_ne hc) hv hsame rfl hnext',
      heffect ▸ mirrors_repoint_removed hc ht hv hsame hmirrors hnext' _⟩, hlegible⟩

end Resource

/-- A change of a polygon's states that is prepared by what a store holds, and made later. -/
inductive StateChange where
  | create (now : Instant) (id : String) (new : NewResource) (user : String)
  | delete (id : String)

namespace StateChange

/-- The writes that the change is to be made by. -/
def plan (setup : Setup) (m : Memory) : StateChange → Except Error (List WriteOp)
  | create now id new user => Resource.createPlan setup now id m "s" new user
  | delete id => Resource.deletePlan setup m "s" id

def Timely : StateChange → Prop
  | create now .. => Rfc3339.Readable now
  | delete _ => True

/-- Whether a state that was to be deleted from one store can be deleted in the same way from another: it
has no items there that it had not, and the state that is to take its place is one of the polygon and is
not older than any that stays; where none is, none stays. -/
structure DeletesAlike (setup : Setup) (m m' : Memory) (ops : List WriteOp) (polygonId id : String) :
    Prop where
  items : ∀ key, key.partition = Key.resource "s" id → (m'.items.find? key).isSome = true →
    (m.items.find? key).isSome = true
  heir : ∀ i, .put (Version.latestItem "s" i) none ∈ ops →
    ∃ s time, IsStateOf setup m' polygonId i s ∧ HasTime s time ∧
      ∀ j s' time', IsStateOf setup m' polygonId j s' → j ≠ id → HasTime s' time' → ¬ time < time'
  last : ∀ condition, .delete (statePointerKey polygonId) condition ∈ ops →
    ∀ i s, IsStateOf setup m' polygonId i s → i = id

/-- Whether what a change was prepared by is so in another store as far as the conditions of its writes do
not tell. A state that was older than another when it was prepared has no work for the pointer, and so
there has to be another that is not older; any other state is put on the condition that the pointer is the
same. -/
def Fits (setup : Setup) (m m' : Memory) (ops : List WriteOp) : StateChange → Prop
  | create _ _ new _ => ∀ polygonId time,
    Resource.standing ⟨"p", "polygonId", "timestamp"⟩ new.fields = .ok (polygonId, time) →
    (∃ i s time', IsStateOf setup m polygonId i s ∧ HasTime s time' ∧ time < time') →
    ∃ i s time', IsStateOf setup m' polygonId i s ∧ HasTime s time' ∧ ¬ time' < time
  | delete id => ∀ polygonId s, IsStateOf setup m polygonId id s →
    DeletesAlike setup m m' ops polygonId id

end StateChange

/-- A state takes over neither its polygon nor its time. -/
theorem Resource.standing_given {setup : Setup} {m : Memory} {new : NewResource} {fields : Item}
    (hn : newFields setup m Catalog.state new = .ok fields) {polygonId time : String}
    (hs : standing ⟨"p", "polygonId", "timestamp"⟩ fields = .ok (polygonId, time)) :
    standing ⟨"p", "polygonId", "timestamp"⟩ new.fields = .ok (polygonId, time) := by
  obtain ⟨_, _, ⟨hl, _⟩ | ⟨link, parentId, parent, hl, hparent, _, rfl⟩⟩ := newFields_inv hn
  · cases hl
  · obtain rfl : ⟨"p", "polygonId"⟩ = link := Option.some.inj hl
    rw [standing_eq_ok_iff] at hs ⊢
    obtain ⟨hpolygon, text, htext, hordering⟩ := hs
    obtain rfl := Except.ok.inj ((requiredText_inherit _ _ hparent).symm.trans hpolygon)
    have hnot : "timestamp" ∉ Catalog.state.searchable := by decide
    rw [find?_inherit, if_neg hnot, Option.or_none] at htext
    exact ⟨hparent, text, htext, hordering⟩

namespace Holds
variable {settings : Settings} {m m' m'' : Memory} {r r' : Registry} (h : Holds Catalog.standard m r)
  (h' : Holds Catalog.standard m' r') (hl : r.Later Catalog.state r') {ops : List WriteOp} {attempts : Nat}
  (hcommit : Commit.batch attempts ops m' = (.ok (), m''))
include h h' hl hcommit

theorem commit_createState {now : Instant} (hnow : Rfc3339.Readable now) {id : String} {new : NewResource}
    {user : String} (hplan : Resource.createPlan ⟨.standard, settings⟩ now id m "s" new user = .ok ops)
    (hfits : StateChange.Fits ⟨.standard, settings⟩ m m' ops (.create now id new user)) :
    ∃ r'', Holds Catalog.standard m'' r'' := by
  have hc : (Setup.mk .standard settings).catalog.Sound := Catalog.standard_sound
  have ht : Catalog.standard.Has Catalog.state := rfl
  obtain ⟨t, htype, hplan⟩ := Outcome.bind_eq_ok_iff.mp hplan
  rw [Resource.findType_eq_ok_iff] at htype
  obtain rfl : Catalog.state = t := Option.some.inj htype
  obtain ⟨fields, hfields, hplan⟩ := Outcome.bind_eq_ok_iff.mp hplan
  refine Resource.commit_creation hc h h' ht hl
    (fun _ => Catalog.state_childless) (Catalog.standard_apart _ _) hnow hfields hplan ?_ hcommit
  intro v polygonId time p hv hs hp hlt
  cases hv
  obtain ⟨n, _, hn, htime⟩ := h.pointee settings hp
  obtain ⟨i, s, time', hstate, htime', hle⟩ :=
    hfits polygonId time (Resource.standing_given hfields hs) ⟨p.child, n, p.ordering, hn, htime, hlt⟩
  obtain ⟨e, ordering, he, _, hstands, hordering⟩ := h'.isStateOf_iff.mp hstate
  obtain rfl := htime'.unique hordering
  obtain ⟨p', hp', hge⟩ := h'.sound.greatest _ _ i e polygonId time' ht rfl he hstands
  exact ⟨p', hp', Text.not_lt_trans hge hle⟩

theorem commit_deleteState {id : String}
    (hplan : Resource.deletePlan ⟨.standard, settings⟩ m "s" id = .ok ops)
    (hfits : StateChange.Fits ⟨.standard, settings⟩ m m' ops (.delete id)) :
    ∃ r'', Holds Catalog.standard m'' r'' := by
  have hc : (Setup.mk .standard settings).catalog.Sound := Catalog.standard_sound
  have ht : Catalog.standard.Has Catalog.state := rfl
  obtain ⟨t, htype, hplan⟩ := Outcome.bind_eq_ok_iff.mp hplan
  rw [Resource.findType_eq_ok_iff] at htype
  obtain rfl : Catalog.state = t := Option.some.inj htype
  obtain ⟨e, _, he, _⟩ := Resource.planDelete_cases hc h.toStands ht hplan
  obtain ⟨polygonId, time, hs⟩ := (h.sound.entry ht he).2.standing _ rfl
  have halike := hfits polygonId _ (h.isStateOf_entry settings he hs).1
  refine Resource.commit_deletion hc h h' ht hl
    (fun _ => Catalog.state_childless) (Catalog.standard_apart _ _) hplan halike.items ?_ hcommit
  intro v parentId p next hv hp hid hnext hput hdelete
  cases hv
  obtain rfl := h.sound.eq_parent ht rfl he hs hp hid
  refine ⟨fun q hq => ?_, fun i e' time' he' hne hs' => ?_⟩
  · obtain ⟨hne, d, hd, hsd⟩ := hnext.child q hq
    obtain ⟨s, _, hstate, _, _⟩ := halike.heir q.child (hput q hq)
    obtain ⟨e', _, he', _⟩ := h'.isStateOf_iff.mp hstate
    exact ⟨hne, e', he', (hl.stands _ _ d e' rfl hd he').trans hsd⟩
  · obtain ⟨hstate, htime⟩ := h'.isStateOf_entry settings he' hs'
    cases next with
    | none =>
      obtain ⟨condition, hin⟩ := hdelete rfl
      exact absurd (halike.last condition hin i _ hstate) hne
    | some q =>
      obtain ⟨_, d, hd, hsd⟩ := hnext.child q rfl
      obtain ⟨s, time, hheir, hqtime, hge⟩ := halike.heir q.child (hput q rfl)
      obtain ⟨d', ordering, hd', _, hstands, hordering⟩ := h'.isStateOf_iff.mp hheir
      rw [hl.stands _ _ d d' rfl hd hd', hsd, Except.ok.injEq, Prod.mk.injEq] at hstands
      obtain rfl := hqtime.unique hordering
      exact ⟨q, rfl, hstands.2 ▸ hge i _ time' hstate hne htime⟩

end Holds

namespace Call

/-- Changes of states that were prepared on a store, and are made when it has changed since, leave the
pointers of all polygons kept, and the store's items those that its resources ask for. -/
theorem runAll_stalePlan (settings : Settings) {before later : List Call}
    (hbefore : ∀ call ∈ before, call.Timely) (hlater : ∀ call ∈ later, call.Timely) :
    let setup : Setup := ⟨.standard, settings⟩
    let m := runAll setup before
    let m' := runAll setup (before ++ later)
    (∀ call ∈ later, call.OnlyOn setup m "s") →
    ∀ (change : StateChange) (ops : List WriteOp) (attempts : Nat) (m'' : Memory), change.Timely →
      change.plan setup m = .ok ops → change.Fits setup m m' ops →
      Commit.batch attempts ops m' = (.ok (), m'') →
      (∀ polygonId, LatestKept setup m'' polygonId) ∧ ItemsMirror setup m'' := by
  intro setup m m' hstates change ops attempts m'' htimely hplan hfits hcommit
  have hc : setup.catalog.Sound := Catalog.standard_sound
  have ht : setup.catalog.Has Catalog.state := rfl
  obtain ⟨r, h⟩ := @runAll_holds setup hc Catalog.standard_apart before hbefore
  have hrun : m' = later.foldl (run setup) m := List.foldl_append
  obtain ⟨r', h', hl⟩ := foldl_later hc Catalog.standard_apart h ht hlater hstates
  rw [← hrun] at h'
  have hholds : ∃ r'', Holds Catalog.standard m'' r'' := by
    cases change with
    | create now id new user => exact h.commit_createState h' hl hcommit htimely hplan hfits
    | delete id => exact h.commit_deleteState h' hl hcommit hplan hfits
  obtain ⟨r'', h''⟩ := hholds
  exact ⟨fun polygonId => h''.latestKept polygonId, h''.itemsMirror⟩

/-- Creates two states of the polygon `c`, of which `e` is the newer one. -/
def toTwoStates : List Call :=
  toState ++ [.create ⟨4, 0⟩ ⟨some "e", 0⟩ "s"
    ⟨.ofList [("polygonId", .string "c"), ("timestamp", .string "2024-01-02T00:00:00Z")], .empty⟩ "u"]

theorem timely_toTwoStates : ∀ call ∈ toTwoStates, call.Timely := by
  rw [toTwoStates, List.forall_mem_append, List.forall_mem_singleton]
  exact ⟨timely_toState, by decide, by decide, by decide⟩

end Call

/-- Whether a plan can be made on one store and be carried out on another, and passes a test. -/
def StateChange.passes (setup : Setup) (m m' : Memory) (change : StateChange)
    (test : List WriteOp → Memory → Bool) : Bool :=
  match change.plan setup m with
  | .error _ => false
  | .ok ops =>
    let (answer, m'') := Commit.batch 1 ops m'
    answer.isOk && test ops m''

theorem StateChange.passes_spec {setup : Setup} {m m' : Memory} {change : StateChange}
    {test : List WriteOp → Memory → Bool} (h : change.passes setup m m' test = true) :
    ∃ ops m'', change.plan setup m = .ok ops ∧ Commit.batch 1 ops m' = (.ok (), m'') ∧
      test ops m'' = true := by
  unfold passes at h
  split at h
  · cases h
  next ops hplan =>
    rcases hbatch : Commit.batch 1 ops m' with ⟨answer, m''⟩
    rw [hbatch, Bool.and_eq_true] at h
    cases answer with
    | error err => cases h.1
    | ok _ => exact ⟨ops, m'', hplan, hbatch, h.2⟩

namespace Call

/-- After a change of the newest of two states, one between them can be created and the older one deleted as
they were planned before. -/
theorem runAll_stalePlan_twoStates :
    let setup : Setup := ⟨.standard, {}⟩
    let noted : Call := .update ⟨5, 0⟩ "s" "e" ⟨.ofList [("note", .string "wet")], .empty⟩ "u"
    let m := runAll setup toTwoStates
    let m' := runAll setup (toTwoStates ++ [noted])
    let between : StateChange := .create ⟨6, 0⟩ "f"
      ⟨.ofList [("polygonId", .string "c"), ("timestamp", .string "2024-01-01T12:00:00Z")], .empty⟩ "u"
    (∀ call ∈ toTwoStates, call.Timely) ∧ noted.Timely ∧ noted.OnlyOn setup m "s" ∧
      ∀ change ∈ [between, .delete "d"], change.Timely ∧ ∃ ops m'', change.plan setup m = .ok ops ∧
        change.Fits setup m m' ops ∧ Commit.batch 1 ops m' = (.ok (), m'') ∧
        LatestKept setup m'' "c" ∧ ItemsMirror setup m'' := by
  intro setup noted m m' between
  have hnoted : ∀ call ∈ [noted], call.Timely :=
    List.forall_mem_singleton.mpr ⟨by decide, by decide, by decide⟩
  have hstates : ∀ call ∈ [noted], call.OnlyOn setup m "s" := List.forall_mem_singleton.mpr rfl
  have hkept := runAll_stalePlan {} timely_toTwoStates hnoted hstates
  refine ⟨timely_toTwoStates, hnoted _ List.mem_cons_self, rfl,
    List.forall_mem_cons.mpr ⟨?_, List.forall_mem_singleton.mpr ?_⟩⟩
  · have htimely : between.Timely := ⟨by decide, by decide, by decide⟩
    obtain ⟨hpasses, hnewer⟩ : between.passes setup m m' (fun _ _ => true) = true ∧
        ((Resource.get setup m' "s" "e").toOption.bind fun s =>
          (Resource.standing ⟨"p", "polygonId", "timestamp"⟩ s.fields).toOption) =
            some ("c", "2024-01-02T00:00:00.000000000Z") := by decide +kernel
    have hgiven : Resource.standing ⟨"p", "polygonId", "timestamp"⟩
        (.ofList [("polygonId", .string "c"), ("timestamp", .string "2024-01-01T12:00:00Z")]) =
          .ok ("c", "2024-01-01T12:00:00.000000000Z") := by rfl
    obtain ⟨ops, m'', hplan, hcommit, _⟩ := StateChange.passes_spec hpasses
    have hfits : between.Fits setup m m' ops := by
      intro polygonId time hs _
      obtain ⟨rfl, rfl⟩ := Prod.mk.inj (Except.ok.inj (hgiven.symm.trans hs))
      obtain ⟨s, hget, hstands⟩ := Option.bind_eq_some_iff.mp hnewer
      obtain ⟨hstate, htime⟩ := isStateOf_of_standing (Outcome.toOption_eq_some_iff.mp hget)
        (Outcome.toOption_eq_some_iff.mp hstands)
      exact ⟨"e", s, _, hstate, htime, by decide +kernel⟩
    obtain ⟨hlatest, hmirror⟩ := hkept between ops 1 m'' htimely hplan hfits hcommit
    exact ⟨htimely, ops, m'', hplan, hfits, hcommit, hlatest "c", hmirror⟩
  · obtain ⟨hpasses, hpolygon, hitems⟩ : (StateChange.delete "d").passes setup m m' (fun ops _ =>
          ops.all fun op => op.isDelete && op.key.toOption != some (statePointerKey "c")) = true ∧
        (Resource.get setup m "s" "d").toOption.bind (·.fields.text? "polygonId") = some "c" ∧
        (m'.items.keys.filter fun key => key.partition = Key.resource "s" "d").all
          (fun key => (m.items.find? key).isSome) = true := by decide +kernel
    obtain ⟨ops, m'', hplan, hcommit, hdeletes⟩ := StateChange.passes_spec hpasses
    have hfits : (StateChange.delete "d").Fits setup m m' ops := by
      rintro polygonId s ⟨hget, hs⟩
      rw [hget] at hpolygon
      obtain rfl := Option.some.inj (hs.symm.trans hpolygon)
      rw [List.all_eq_true] at hdeletes hitems
      refine ⟨fun key hkey hsome => hitems key ?_, fun i hin => ?_, fun condition hin => ?_⟩
      · have hin := SortedMap.mem_keys_iff.mpr (Option.isSome_iff_exists.mp hsome)
        exact List.mem_filter.mpr ⟨hin, decide_eq_true hkey⟩
      · cases hdeletes _ hin
      · exact absurd (hdeletes _ hin) (by simp [WriteOp.key, Except.toOption])
    obtain ⟨hlatest, hmirror⟩ := hkept (.delete "d") ops 1 m'' trivial hplan hfits hcommit
    exact ⟨trivial, ops, m'', hplan, hfits, hcommit, hlatest "c", hmirror⟩

/-- Where the state that was to take the place of the newest one is deleted in between, the pointer is
left with a name of none. -/
theorem runAll_stalePlan_without_heir :
    let setup : Setup := ⟨.standard, {}⟩
    let m := runAll setup toTwoStates
    let m' := runAll setup (toTwoStates ++ [.delete "s" "d"])
    (∀ call ∈ toTwoStates, call.Timely) ∧ (delete "s" "d").OnlyOn setup m "s" ∧
      (Resource.delete setup m "s" "d").1.isOk = true ∧
      ∃ ops m'', (StateChange.delete "e").plan setup m = .ok ops ∧
        Commit.batch 1 ops m' = (.ok (), m'') ∧ ¬ LatestKept setup m'' "c" := by
  intro setup m m'
  obtain ⟨hdeleted, hpasses⟩ : (Resource.delete setup m "s" "d").1.isOk = true ∧
      (StateChange.delete "e").passes setup m m'
        (fun _ m'' => !(Resource.latestChild setup m'' "s" "c").isOk) = true := by decide +kernel
  obtain ⟨ops, m'', hplan, hcommit, hfails⟩ := StateChange.passes_spec hpasses
  refine ⟨timely_toTwoStates, rfl, hdeleted, ops, m'', hplan, hcommit, fun hkept => ?_⟩
  obtain ⟨n, hn⟩ := hkept.latestChild_ok
  rw [hn] at hfails
  cases hfails

end Call

end TagStore
