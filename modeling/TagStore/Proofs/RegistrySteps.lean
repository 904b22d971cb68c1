import TagStore.Proofs.Loading

namespace TagStore

namespace Registry

def setEntry (r : Registry) (code id : String) (e : Option Entry) : Registry :=
  { r with entries := fun c i => if c = code ∧ i = id then e else r.entries c i }

def setPointer (r : Registry) (code parentId : String) (p : Option Pointer) : Registry :=
  { r with pointers := fun c i => if c = code ∧ i = parentId then p else r.pointers c i }

section
variable (r : Registry) (code id : String)

@[simp] theorem entries_setEntry_self (e : Option Entry) :
    (r.setEntry code id e).entries code id = e := by
  simp [setEntry]

theorem entries_setEntry_of_ne (e : Option Entry) {code' id' : String} (h : ¬ (code' = code ∧ id' = id)) :
    (r.setEntry code id e).entries code' id' = r.entries code' id' := by
  simp [setEntry, h]

@[simp] theorem pointers_setEntry (e : Option Entry) :
    (r.setEntry code id e).pointers = r.pointers := rfl

@[simp] theorem entries_setPointer (p : Option Pointer) :
    (r.setPointer code id p).entries = r.entries := rfl

@[simp] theorem pointers_setPointer_self (p : Option Pointer) :
    (r.setPointer code id p).pointers code id = p := by
  simp [setPointer]

theorem pointers_setPointer_of_ne (p : Option Pointer) {code' id' : String}
    (h : ¬ (code' = code ∧ id' = id)) :
    (r.setPointer code id p).pointers code' id' = r.pointers code' id' := by
  simp [setPointer, h]

end

/-- What a resource's items have to be depends on its own entry and on the pointers alone. -/
theorem tag?_congr {r r' : Registry} {t : ResourceType} {id : String}
    (he : r'.entries t.code id = r.entries t.code id) (hp : r'.pointers = r.pointers) (name : String) :
    r'.tag? t id name = r.tag? t id name := by
  unfold tag? isNewest
  rw [he, hp]

theorem canonical?_congr {r r' : Registry} {t : ResourceType} {id : String}
    (he : r'.entries t.code id = r.entries t.code id) : r'.canonical? t id = r.canonical? t id := by
  simp only [canonical?, he]

theorem Every.setEntry {r : Registry} {P : Entry → Prop} (hr : r.Every P) {code id : String}
    {new : Option Entry} (hnew : ∀ e, new = some e → P e) : (r.setEntry code id new).Every P := by
  intro code' id' e he
  by_cases hself : code' = code ∧ id' = id
  · obtain ⟨rfl, rfl⟩ := hself
    rw [entries_setEntry_self] at he
    exact hnew e he
  · rw [entries_setEntry_of_ne _ _ _ _ hself] at he
    exact hr code' id' e he

section
variable {c : Catalog} {r : Registry} {t : ResourceType} (ht : c.Has t) {v : Versioning}
  (hv : t.versioning = some v) {parentId : String} {new : Option Pointer}

include ht in
/-- A pointer is nothing to those that it does not name and is not to name. -/
theorem isNewest_setPointer_of_ne {t' : ResourceType} (ht' : c.Has t') {id : String}
    (hoff : t' = t → ¬ new.any (·.child = id) ∧ ¬ (r.pointers t.code parentId).any (·.child = id)) :
    (r.setPointer t.code parentId new).isNewest t' id = r.isNewest t' id := by
  rw [Bool.eq_iff_iff]
  cases hv' : t'.versioning with
  | none => rw [isNewest_unversioned hv', isNewest_unversioned hv']
  | some v' =>
    rw [isNewest_iff hv', isNewest_iff hv', entries_setPointer]
    constructor
    · rintro ⟨e, pid, ordering, p, he, hs, hp, hid⟩
      refine ⟨e, pid, ordering, p, he, hs, ?_, hid⟩
      by_cases hself : t'.code = t.code ∧ pid = parentId
      · obtain ⟨hcode, rfl⟩ := hself
        obtain rfl := ht'.eq_of_code ht hcode
        rw [pointers_setPointer_self] at hp
        exact absurd (by simp [hp, hid]) (hoff rfl).1
      · rwa [pointers_setPointer_of_ne _ _ _ _ hself] at hp
    · rintro ⟨e, pid, ordering, p, he, hs, hp, hid⟩
      refine ⟨e, pid, ordering, p, he, hs, ?_, hid⟩
      by_cases hself : t'.code = t.code ∧ pid = parentId
      · obtain ⟨hcode, rfl⟩ := hself
        obtain rfl := ht'.eq_of_code ht hcode
        exact absurd (by simp [hp, hid]) (hoff rfl).2
      · rwa [pointers_setPointer_of_ne _ _ _ _ hself]

include ht hv in
/-- Of a parent's children, only that which its pointer comes to name is the newest. -/
theorem isNewest_setPointer
    (hold : ∀ p e, r.pointers t.code parentId = some p → r.entries t.code p.child = some e →
      ∃ ordering, Resource.standing v e.fields = .ok (parentId, ordering))
    (hnew : ∀ p, new = some p → ∃ e ordering, r.entries t.code p.child = some e ∧
      Resource.standing v e.fields = .ok (parentId, ordering)) (id : String) :
    (r.setPointer t.code parentId new).isNewest t id =
      if new.any (·.child = id) then true
      else if (r.pointers t.code parentId).any (·.child = id) then false
      else r.isNewest t id := by
  by_cases hn : new.any (·.child = id)
  · obtain ⟨p, hp, hid⟩ := (Option.any_eq_true _ _).mp hn
    rw [decide_eq_true_eq] at hid
    obtain ⟨e, ordering, he, hs⟩ := hnew p hp
    rw [if_pos hn, isNewest_iff hv]
    exact ⟨e, parentId, ordering, p, hid ▸ he, hs, by rw [pointers_setPointer_self, hp], hid⟩
  · rw [if_neg hn]
    by_cases ho : (r.pointers t.code parentId).any (·.child = id)
    · rw [if_pos ho, Bool.eq_false_iff]
      intro hnewest
      obtain ⟨e, pid, ordering, p, he, hs, hp, hid⟩ := (isNewest_iff hv).mp hnewest
      obtain ⟨q, hq, hqid⟩ := (Option.any_eq_true _ _).mp ho
      rw [decide_eq_true_eq] at hqid
      rw [entries_setPointer, ← hqid] at he
      obtain ⟨ordering', hs'⟩ := hold q e hq he
      rw [hs, Except.ok.injEq, Prod.mk.injEq] at hs'
      obtain ⟨rfl, rfl⟩ := hs'
      rw [pointers_setPointer_self] at hp
      exact hn (by simp [hp, hid])
    · rw [if_neg ho]
      exact isNewest_setPointer_of_ne ht ht fun _ => ⟨hn, ho⟩

end

end Registry

section
variable {c : Catalog} {items items' : ItemKey → Option Item} {r : Registry}

/-- An entry changes with its canonical item and the items of its tags. -/
theorem Mirrors.setEntry (hc : c.Sound) (h : Mirrors c items r) {t : ResourceType} (ht : c.Has t)
    {id : String} (hid : c.Apart t.code id) (e : Option Entry)
    (hcanonical : items' ⟨Key.resource t.code id, Key.resource t.code id⟩ =
      (r.setEntry t.code id e).canonical? t id)
    (htags : ∀ name, items' (Tag.key (Key.resource t.code id) name) =
      ((r.setEntry t.code id e).tag? t id name).map (Tag.item (Key.resource t.code id) name))
    (hother : ∀ key, key ≠ ⟨Key.resource t.code id, Key.resource t.code id⟩ →
      (∀ name, key ≠ Tag.key (Key.resource t.code id) name) → items' key = items key) :
    Mirrors c items' (r.setEntry t.code id e) := by
  have hne : ∀ {t' id'}, c.Has t' → ¬ (t' = t ∧ id' = id) → ¬ (t'.code = t.code ∧ id' = id) :=
    fun ht' h hboth => h ⟨ht'.eq_of_code ht hboth.1, hboth.2⟩
  refine ⟨fun t' id' ht' hid' => ?_, fun t' id' name ht' => ?_, fun t' v parentId ht' hv => ?_,
    fun key item hf => ?_⟩
  · by_cases hself : t' = t ∧ id' = id
    · obtain ⟨rfl, rfl⟩ := hself
      exact hcanonical
    · rw [Registry.canonical?_congr (r.entries_setEntry_of_ne _ _ e (hne ht' hself)),
        ← h.canonical t' id' ht' hid']
      apply hother
      · exact fun hk => hself (hc.canonicalKey_inj ht' ht (congrArg ItemKey.partition hk))
      · exact fun name => hc.canonicalKey_ne_tagKey ht' id' _ name
  · by_cases hself : t' = t ∧ id' = id
    · obtain ⟨rfl, rfl⟩ := hself
      exact htags name
    · rw [Registry.tag?_congr (r.entries_setEntry_of_ne _ _ e (hne ht' hself)) rfl,
        ← h.tags t' id' name ht']
      apply hother
      · exact (hc.canonicalKey_ne_tagKey ht id _ name).symm
      · intro name' hk
        obtain ⟨ht', hid', _⟩ := hc.tagKey_inj ht' ht hk
        exact hself ⟨ht', hid'⟩
  · rw [Registry.pointers_setEntry, ← h.pointers t' v parentId ht' hv]
    apply hother
    · exact (hc.canonicalKey_ne_pointerKey ht ht' hid hv parentId).symm
    · exact fun name => (hc.tagKey_ne_pointerKey ht' _ name v parentId).symm
  · by_cases hk : key = ⟨Key.resource t.code id, Key.resource t.code id⟩
    · exact .inl ⟨t, id, ht, hid, hk⟩
    · by_cases hname : ∃ name, key = Tag.key (Key.resource t.code id) name
      · obtain ⟨name, hname⟩ := hname
        exact .inr (.inl ⟨t, id, name, ht, hname⟩)
      · rw [hother key hk fun name hn => hname ⟨name, hn⟩] at hf
        exact h.only key item hf

/-- A pointer changes with the tags of the child that it named and of the one that it is to name. -/
theorem Mirrors.setPointer (hc : c.Sound) (h : Mirrors c items r) {t : ResourceType} (ht : c.Has t)
    {v : Versioning} (hv : t.versioning = some v) {parentId : String} (new : Option Pointer)
    (hold : ∀ p e, r.pointers t.code parentId = some p → r.entries t.code p.child = some e →
      ∃ ordering, Resource.standing v e.fields = .ok (parentId, ordering))
    (hnew : ∀ p, new = some p → ∃ e ordering, r.entries t.code p.child = some e ∧
      Resource.standing v e.fields = .ok (parentId, ordering))
    (hpointer : items' (Pointer.key t.code v parentId) =
      new.map (Pointer.item (Pointer.key t.code v parentId)))
    (hflag : ∀ id, items' (Version.latestKey t.code id) =
      if new.any (·.child = id) then some (Version.latestItem t.code id)
      else if (r.pointers t.code parentId).any (·.child = id) then none
      else items (Version.latestKey t.code id))
    (hother : ∀ key, key ≠ Pointer.key t.code v parentId → (∀ id, key ≠ Version.latestKey t.code id) →
      items' key = items key) :
    Mirrors c items' (r.setPointer t.code parentId new) := by
  refine ⟨fun t' id' ht' hid' => ?_, fun t' id' name ht' => ?_, fun t' v' parentId' ht' hv' => ?_,
    fun key item hf => ?_⟩
  · have hcanonical : (r.setPointer t.code parentId new).canonical? t' id' = r.canonical? t' id' := rfl
    rw [hcanonical, ← h.canonical t' id' ht' hid']
    apply hother
    · exact hc.canonicalKey_ne_pointerKey ht' ht hid' hv parentId
    · exact fun id => hc.canonicalKey_ne_tagKey ht' id' _ _
  · by_cases hself : t' = t ∧ name = Key.latestTag
    · obtain ⟨rfl, rfl⟩ := hself
      have hkey : Tag.key (Key.resource t'.code id') Key.latestTag = Version.latestKey t'.code id' := rfl
      rw [hkey, hflag id']
      rw [Registry.tag?, if_pos rfl, Registry.isNewest_setPointer ht hv hold hnew]
      split
      · rfl
      · split
        · rfl
        · rw [← hkey, h.tags t' id' _ ht', Registry.tag?, if_pos rfl]
    · have htag : (r.setPointer t.code parentId new).tag? t' id' name = r.tag? t' id' name := by
        unfold Registry.tag?
        by_cases hname : name = Key.latestTag
        · rw [if_pos hname, if_pos hname, Registry.isNewest_setPointer_of_ne ht ht']
          exact fun he => absurd ⟨he, hname⟩ hself
        · rw [if_neg hname, if_neg hname, Registry.entries_setPointer]
      rw [htag, ← h.tags t' id' name ht']
      apply hother
      · exact hc.tagKey_ne_pointerKey ht _ name v parentId
      · intro id hk
        obtain ⟨ht', _, hname⟩ := hc.tagKey_inj ht' ht hk
        exact hself ⟨ht', hname⟩
  · by_cases hself : t' = t ∧ parentId' = parentId
    · obtain ⟨rfl, rfl⟩ := hself
      obtain rfl := Option.some.inj (hv.symm.trans hv')
      rw [hpointer, Registry.pointers_setPointer_self]
    · have hne : ¬ (t'.code = t.code ∧ parentId' = parentId) := fun hboth =>
        hself ⟨ht'.eq_of_code ht hboth.1, hboth.2⟩
      rw [Registry.pointers_setPointer_of_ne _ _ _ _ hne, ← h.pointers t' v' parentId' ht' hv']
      apply hother
      · exact fun hk => hself (hc.pointerKey_inj ht' ht hv' hv hk)
      · exact fun id => (hc.tagKey_ne_pointerKey ht' _ _ v' parentId').symm
  · by_cases hk : key = Pointer.key t.code v parentId
    · exact .inr (.inr ⟨t, v, parentId, ht, hv, hk⟩)
    · by_cases hid : ∃ id, key = Version.latestKey t.code id
      · obtain ⟨id, hid⟩ := hid
        exact .inr (.inl ⟨t, id, Key.latestTag, ht, hid⟩)
      · rw [hother key hk fun id hi => hid ⟨id, hi⟩] at hf
        exact h.only key item hf

end

end TagStore
