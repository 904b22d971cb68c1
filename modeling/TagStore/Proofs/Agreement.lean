import TagStore.Proofs.Creating

namespace TagStore

namespace Registry
variable {c : Catalog} {r r' r'' : Registry} {key : ItemKey}

/-- Whether two registries ask for the same item under a key. -/
structure AgreeAt (c : Catalog) (r r' : Registry) (key : ItemKey) : Prop where
  canonical : ∀ t id, c.Has t → c.Apart t.code id → key = ⟨Key.resource t.code id, Key.resource t.code id⟩ →
    r'.canonical? t id = r.canonical? t id
  tags : ∀ t id name, c.Has t → key = Tag.key (Key.resource t.code id) name →
    r'.tag? t id name = r.tag? t id name
  pointers : ∀ t v parentId, c.Has t → t.versioning = some v → key = Pointer.key t.code v parentId →
    r'.pointers t.code parentId = r.pointers t.code parentId

namespace AgreeAt

theorem refl (c : Catalog) (r : Registry) (key : ItemKey) : AgreeAt c r r key :=
  ⟨fun _ _ _ _ _ => rfl, fun _ _ _ _ _ => rfl, fun _ _ _ _ _ _ => rfl⟩

theorem symm (h : AgreeAt c r r' key) : AgreeAt c r' r key :=
  ⟨fun t id ht hid hk => (h.canonical t id ht hid hk).symm, fun t id name ht hk => (h.tags t id name ht hk).symm,
    fun t v parentId ht hv hk => (h.pointers t v parentId ht hv hk).symm⟩

theorem trans (h : AgreeAt c r r' key) (h' : AgreeAt c r' r'' key) : AgreeAt c r r'' key :=
  ⟨fun t id ht hid hk => (h'.canonical t id ht hid hk).trans (h.canonical t id ht hid hk),
    fun t id name ht hk => (h'.tags t id name ht hk).trans (h.tags t id name ht hk),
    fun t v parentId ht hv hk => (h'.pointers t v parentId ht hv hk).trans (h.pointers t v parentId ht hv hk)⟩

end AgreeAt

section
variable {t : ResourceType} (ht : c.Has t)
include ht

/-- An entry counts only for items of its own partition. -/
theorem agreeAt_setEntry {id : String} (e : Option Entry) (hkey : key.partition ≠ Key.resource t.code id) :
    AgreeAt c r (r.setEntry t.code id e) key := by
  refine ⟨fun t' id' ht' _ hk => ?_, fun t' id' name ht' hk => ?_, fun _ _ _ _ _ _ => rfl⟩
  · apply canonical?_congr (r.entries_setEntry_of_ne _ _ e _)
    rintro ⟨hcode, rfl⟩
    obtain rfl := ht'.eq_of_code ht hcode
    exact hkey (congrArg ItemKey.partition hk)
  · apply tag?_congr (r.entries_setEntry_of_ne _ _ e _) rfl
    rintro ⟨hcode, rfl⟩
    obtain rfl := ht'.eq_of_code ht hcode
    exact hkey (congrArg ItemKey.partition hk)

/-- A pointer counts only for its own item and for the tags of the children that it names and named. -/
theorem agreeAt_setPointer {v : Versioning} (hv : t.versioning = some v) {parentId : String}
    {new : Option Pointer} (hpointer : key ≠ Pointer.key t.code v parentId)
    (hnew : ∀ p, new = some p → key ≠ Version.latestKey t.code p.child)
    (hold : ∀ p, r.pointers t.code parentId = some p → key ≠ Version.latestKey t.code p.child) :
    AgreeAt c r (r.setPointer t.code parentId new) key := by
  refine ⟨fun _ _ _ _ _ => rfl, fun t' id name ht' hk => ?_, fun t' v' parentId' ht' hv' hk => ?_⟩
  · by_cases hname : name = Key.latestTag
    · subst hname
      rw [tag?, if_pos rfl, tag?, if_pos rfl, isNewest_setPointer_of_ne ht ht']
      rintro rfl
      constructor <;> intro hany <;> obtain ⟨p, hp, hid⟩ := (Option.any_eq_true _ _).mp hany <;>
        obtain rfl := of_decide_eq_true hid
      · exact hnew p hp hk
      · exact hold p hp hk
    · rw [tag?, if_neg hname, tag?, if_neg hname, entries_setPointer]
  · apply pointers_setPointer_of_ne
    rintro ⟨hcode, rfl⟩
    obtain rfl := ht'.eq_of_code ht hcode
    obtain rfl := Option.some.inj (hv.symm.trans hv')
    exact hpointer hk

end

@[simp] theorem setEntry_setEntry (r : Registry) (code id : String) (e e' : Option Entry) :
    (r.setEntry code id e).setEntry code id e' = r.setEntry code id e' := by
  simp only [setEntry, mk.injEq, and_true]
  funext code' id'
  split <;> rfl

@[simp] theorem setPointer_setPointer (r : Registry) (code parentId : String) (p p' : Option Pointer) :
    (r.setPointer code parentId p).setPointer code parentId p' = r.setPointer code parentId p' := by
  simp only [setPointer, mk.injEq, true_and]
  funext code' parentId'
  split <;> rfl

theorem setEntry_eq_self {code id : String} {e : Option Entry} (he : r.entries code id = e) :
    r.setEntry code id e = r := by
  obtain ⟨entries, pointers⟩ := r
  simp only [setEntry, mk.injEq, and_true]
  funext code' id'
  split
  next h =>
    obtain ⟨rfl, rfl⟩ := h
    exact he.symm
  next => rfl

theorem setPointer_eq_self {code parentId : String} {p : Option Pointer}
    (hp : r.pointers code parentId = p) : r.setPointer code parentId p = r := by
  obtain ⟨entries, pointers⟩ := r
  simp only [setPointer, mk.injEq, true_and]
  funext code' parentId'
  split
  next h =>
    obtain ⟨rfl, rfl⟩ := h
    exact hp.symm
  next => rfl

theorem setPointer_setEntry (r : Registry) (code id code' parentId : String) (e : Option Entry)
    (p : Option Pointer) : (r.setPointer code' parentId p).setEntry code id e =
      (r.setEntry code id e).setPointer code' parentId p := rfl

end Registry

section
variable {c : Catalog} {items items' : ItemKey → Option Item} {r r' : Registry} {key : ItemKey}

theorem Mirrors.find?_of_agreeAt (h : Mirrors c items r) (h' : Mirrors c items' r')
    (hagree : r.AgreeAt c r' key) {item : Item} (hf : items key = some item) : items' key = some item := by
  rcases h.only key item hf with ⟨t, id, ht, hid, rfl⟩ | ⟨t, id, name, ht, rfl⟩ | ⟨t, v, parentId, ht, hv, rfl⟩
  · rw [h'.canonical t id ht hid, hagree.canonical t id ht hid rfl, ← h.canonical t id ht hid, hf]
  · rw [h'.tags t id name ht, hagree.tags t id name ht rfl, ← h.tags t id name ht, hf]
  · rw [h'.pointers t v parentId ht hv, hagree.pointers t v parentId ht hv rfl, ← h.pointers t v parentId ht hv,
      hf]

/-- Items are the same where their registries ask for the same. -/
theorem Mirrors.eq_of_agreeAt (h : Mirrors c items r) (h' : Mirrors c items' r')
    (hagree : r.AgreeAt c r' key) : items' key = items key := by
  apply Option.ext
  intro item
  exact ⟨h'.find?_of_agreeAt h hagree.symm, h.find?_of_agreeAt h' hagree⟩

/-- A registry leaves no choice of what is stored. -/
theorem Stands.items_eq_of_agreeAt {m m' : Memory} (h : Stands c m r) (h' : Stands c m' r')
    (hagree : ∀ key, r.AgreeAt c r' key) : m'.items = m.items :=
  SortedMap.ext_find? fun key => h.mirrors.eq_of_agreeAt h'.mirrors (hagree key)

end

/-- What is read of a resource depends on its entry alone. -/
theorem Stands.get_congr {setup : Setup} (hc : setup.catalog.Sound) {m m' : Memory} {r r' : Registry}
    (h : Stands setup.catalog m r) (h' : Stands setup.catalog m' r') {code id : String}
    (he : r'.entries code id = r.entries code id) :
    Resource.get setup m' code id = Resource.get setup m code id := by
  cases hfind : Resource.findType setup code with
  | error err => simp only [Resource.get, hfind, bind, Except.bind]
  | ok t =>
    have ht := Resource.findType_eq_ok_iff.mp hfind
    obtain rfl := hc.code code t ht
    cases hentry : r.entries t.code id with
    | none =>
      simp only [Resource.get, hfind, h.load_none hc ht hentry, h'.load_none hc ht (he.trans hentry), bind,
        Except.bind]
    | some e =>
      obtain ⟨item, hcan⟩ := Registry.canonical_of_sound (h.sound.entry ht hentry).2 id
      simp only [Resource.get, hfind, Resource.load, Memory.listing_items, h.ofItems_eq hc ht hentry hcan,
        h'.ofItems_eq hc ht (he.trans hentry) hcan, Outcome.mapError_ok, bind, Except.bind]
      cases Resource.ofCanonical t item e.tags <;> rfl

end TagStore
