import TagStore.Proofs.RegistrySteps

namespace TagStore

theorem Text.not_lt_trans {a b c : String} (hab : ¬ a < b) (hbc : ¬ b < c) : ¬ a < c := by
  intro hac
  rcases lt_or_eq_or_gt b c with h | rfl | h
  · exact hbc h
  · exact hab hac
  · exact hab (String.lt_trans hac h)

theorem Entry.Sound.mono {r r' : Registry} {t : ResourceType} {e : Entry} (he : e.Sound r t)
    (h : ∀ code id, (r.entries code id).isSome → (r'.entries code id).isSome) : e.Sound r' t := by
  refine ⟨he.fields, he.tags, he.standing, fun link hl => ?_⟩
  obtain ⟨parentId, hp, hs⟩ := he.parent link hl
  exact ⟨parentId, hp, h _ _ hs⟩

namespace Registry
variable {c : Catalog} {r : Registry}

theorem sound_empty (c : Catalog) : Sound c empty :=
  ⟨nofun, nofun, nofun⟩

theorem isSome_setEntry {code id : String} {e : Entry} (code' id' : String)
    (h : (r.entries code' id').isSome) : ((r.setEntry code id (some e)).entries code' id').isSome := by
  by_cases hself : code' = code ∧ id' = id
  · obtain ⟨rfl, rfl⟩ := hself
    rw [entries_setEntry_self]
    rfl
  · rwa [entries_setEntry_of_ne _ _ _ _ hself]

namespace Sound
variable (hr : r.Sound c) {t : ResourceType} (ht : c.Has t) {id : String}
include hr ht

/-- A child stands under one parent, and so only that parent's pointer can name it. -/
theorem eq_parent {v : Versioning} (hv : t.versioning = some v) {e : Entry}
    (he : r.entries t.code id = some e) {parentId ordering : String}
    (hs : Resource.standing v e.fields = .ok (parentId, ordering)) {pid : String} {p : Pointer}
    (hp : r.pointers t.code pid = some p) (hpid : p.child = id) : pid = parentId := by
  obtain ⟨d, hd, hs'⟩ := hr.pointee ht hv hp
  rw [hpid, he, Option.some.injEq] at hd
  subst hd
  rw [hs, Except.ok.injEq, Prod.mk.injEq] at hs'
  exact hs'.1.symm

theorem entries_put {e : Entry} (hid : c.Apart t.code id) (hsound : e.Sound r t) (code i : String)
    (d : Entry) (hd : (r.setEntry t.code id (some e)).entries code i = some d) :
    ∃ t', c.types.find? code = some t' ∧ c.Apart code i ∧
      d.Sound (r.setEntry t.code id (some e)) t' := by
  by_cases hself : code = t.code ∧ i = id
  · obtain ⟨rfl, rfl⟩ := hself
    rw [entries_setEntry_self, Option.some.injEq] at hd
    subst hd
    exact ⟨t, ht, hid, hsound.mono isSome_setEntry⟩
  · rw [entries_setEntry_of_ne _ _ _ _ hself] at hd
    obtain ⟨t', ht', hid', hs⟩ := hr.entries code i d hd
    exact ⟨t', ht', hid', hs.mono isSome_setEntry⟩

/-- An entry may change as long as it stays where it stands. -/
theorem revise {e e' : Entry} (he : r.entries t.code id = some e) (hsound : e'.Sound r t)
    (hstands : ∀ v, t.versioning = some v →
      Resource.standing v e'.fields = Resource.standing v e.fields) :
    (r.setEntry t.code id (some e')).Sound c := by
  refine ⟨hr.entries_put ht (hr.entry ht he).1 hsound, fun code parentId p hp => ?_,
    fun t' v i d parentId ordering ht' hv hd hs => ?_⟩
  · obtain ⟨t', v, d, ht', hv, hd, hs⟩ := hr.pointers code parentId p hp
    by_cases hself : code = t.code ∧ p.child = id
    · obtain ⟨rfl, rfl⟩ := hself
      obtain rfl := Option.some.inj (ht.symm.trans ht')
      obtain rfl := Option.some.inj (he.symm.trans hd)
      exact ⟨t, v, e', ht, hv, entries_setEntry_self _ _ _ _, (hstands v hv).trans hs⟩
    · exact ⟨t', v, d, ht', hv, (entries_setEntry_of_ne _ _ _ _ hself).trans hd, hs⟩
  · by_cases hself : t'.code = t.code ∧ i = id
    · obtain ⟨hcode, rfl⟩ := hself
      obtain rfl := ht'.eq_of_code ht hcode
      rw [entries_setEntry_self, Option.some.injEq] at hd
      subst hd
      exact hr.greatest t' v i e parentId ordering ht hv he ((hstands v hv).symm.trans hs)
    · rw [entries_setEntry_of_ne _ _ _ _ hself] at hd
      exact hr.greatest t' v i d parentId ordering ht' hv hd hs

section
variable {e : Entry} (he : r.entries t.code id = none)
include he

omit ht in
/-- Pointers go on naming what they name when a resource comes. -/
theorem pointers_add (code parentId : String) (p : Pointer) (hp : r.pointers code parentId = some p) :
    ∃ t' v d, c.types.find? code = some t' ∧ t'.versioning = some v ∧
      (r.setEntry t.code id (some e)).entries code p.child = some d ∧
      Resource.standing v d.fields = .ok (parentId, p.ordering) := by
  obtain ⟨t', v, d, ht', hv', hd, hs⟩ := hr.pointers code parentId p hp
  refine ⟨t', v, d, ht', hv', ?_, hs⟩
  rw [entries_setEntry_of_ne _ _ _ _ ?_, hd]
  rintro ⟨rfl, rfl⟩
  rw [he] at hd
  cases hd

variable (hid : c.Apart t.code id) (hsound : e.Sound r t)
include hid hsound

theorem add_unversioned (hv : t.versioning = none) : (r.setEntry t.code id (some e)).Sound c := by
  refine ⟨hr.entries_put ht hid hsound, hr.pointers_add he,
    fun t' v i d parentId ordering ht' hv' hd hs => ?_⟩
  rw [entries_setEntry_of_ne] at hd
  · exact hr.greatest t' v i d parentId ordering ht' hv' hd hs
  · rintro ⟨hcode, rfl⟩
    obtain rfl := ht'.eq_of_code ht hcode
    rw [hv] at hv'
    cases hv'

variable {v : Versioning} (hv : t.versioning = some v) {parentId ordering : String}
  (hs : Resource.standing v e.fields = .ok (parentId, ordering))
include hv hs

/-- A child that is not newer than the newest one may leave the pointer as it is. -/
theorem add_older {p : Pointer} (hp : r.pointers t.code parentId = some p)
    (hle : ¬ p.ordering < ordering) : (r.setEntry t.code id (some e)).Sound c := by
  refine ⟨hr.entries_put ht hid hsound, hr.pointers_add he,
    fun t' v' i d pid o ht' hv' hd hs' => ?_⟩
  by_cases hself : t'.code = t.code ∧ i = id
  · obtain ⟨hcode, rfl⟩ := hself
    obtain rfl := ht'.eq_of_code ht hcode
    obtain rfl := Option.some.inj (hv.symm.trans hv')
    rw [entries_setEntry_self, Option.some.injEq] at hd
    subst hd
    rw [hs, Except.ok.injEq, Prod.mk.injEq] at hs'
    obtain ⟨rfl, rfl⟩ := hs'
    exact ⟨p, hp, hle⟩
  · rw [entries_setEntry_of_ne _ _ _ _ hself] at hd
    exact hr.greatest t' v' i d pid o ht' hv' hd hs'

/-- Any other child becomes the newest one. -/
theorem add_newest (hge : ∀ p, r.pointers t.code parentId = some p → ¬ ordering < p.ordering) :
    ((r.setEntry t.code id (some e)).setPointer t.code parentId (some ⟨id, ordering⟩)).Sound c := by
  refine ⟨fun code i d hd => ?_, fun code pid p hp => ?_, fun t' v' i d pid o ht' hv' hd hs' => ?_⟩
  · obtain ⟨t', ht', hid', hd'⟩ := hr.entries_put ht hid hsound code i d hd
    exact ⟨t', ht', hid', hd'.mono fun _ _ h => h⟩
  · by_cases hself : code = t.code ∧ pid = parentId
    · obtain ⟨rfl, rfl⟩ := hself
      rw [pointers_setPointer_self, Option.some.injEq] at hp
      subst hp
      exact ⟨t, v, e, ht, hv, entries_setEntry_self _ _ _ _, hs⟩
    · rw [pointers_setPointer_of_ne _ _ _ _ hself] at hp
      exact hr.pointers_add he code pid p hp
  · rw [entries_setPointer] at hd
    by_cases hparent : t'.code = t.code ∧ pid = parentId
    · obtain ⟨hcode, rfl⟩ := hparent
      obtain rfl := ht'.eq_of_code ht hcode
      obtain rfl := Option.some.inj (hv.symm.trans hv')
      refine ⟨⟨id, ordering⟩, pointers_setPointer_self _ _ _ _, ?_⟩
      by_cases hself : i = id
      · subst hself
        rw [entries_setEntry_self, Option.some.injEq] at hd
        subst hd
        rw [hs, Except.ok.injEq, Prod.mk.injEq] at hs'
        exact hs'.2 ▸ String.lt_irrefl _
      · rw [entries_setEntry_of_ne _ _ _ _ fun h => hself h.2] at hd
        obtain ⟨p, hp, hle⟩ := hr.greatest t' v i d pid o ht hv hd hs'
        exact Text.not_lt_trans (hge p hp) hle
    · rw [pointers_setPointer_of_ne _ _ _ _ hparent]
      rw [entries_setEntry_of_ne] at hd
      · exact hr.greatest t' v' i d pid o ht' hv' hd hs'
      · rintro ⟨hcode, rfl⟩
        obtain rfl := ht'.eq_of_code ht hcode
        obtain rfl := Option.some.inj (hv.symm.trans hv')
        rw [entries_setEntry_self, Option.some.injEq] at hd
        subst hd
        rw [hs, Except.ok.injEq, Prod.mk.injEq] at hs'
        exact hparent ⟨rfl, hs'.1.symm⟩

end

section
variable (hchildless : ∀ code i d t' link, c.types.find? code = some t' → r.entries code i = some d →
    t'.parent = some link → link.code = t.code →
    Checks.requiredText d.fields link.field ≠ .ok id)
include hchildless

omit ht in
/-- Only its children need a resource to be there. -/
theorem entries_remove (code i : String) (d : Entry)
    (hd : (r.setEntry t.code id none).entries code i = some d) :
    ∃ t', c.types.find? code = some t' ∧ c.Apart code i ∧ d.Sound (r.setEntry t.code id none) t' := by
  by_cases hself : code = t.code ∧ i = id
  · obtain ⟨rfl, rfl⟩ := hself
    rw [entries_setEntry_self] at hd
    cases hd
  · rw [entries_setEntry_of_ne _ _ _ _ hself] at hd
    obtain ⟨t', ht', hid', hs⟩ := hr.entries code i d hd
    refine ⟨t', ht', hid', hs.fields, hs.tags, hs.standing, fun link hl => ?_⟩
    obtain ⟨parentId, hp, hsome⟩ := hs.parent link hl
    refine ⟨parentId, hp, ?_⟩
    rw [entries_setEntry_of_ne]
    · exact hsome
    · rintro ⟨hcode, rfl⟩
      exact hchildless code i d t' link ht' hd hl hcode hp

omit ht in
/-- A resource that no pointer names may go. -/
theorem remove_unnamed (hnot : ∀ parentId p, r.pointers t.code parentId = some p → p.child ≠ id) :
    (r.setEntry t.code id none).Sound c := by
  refine ⟨hr.entries_remove hchildless, fun code parentId p hp => ?_,
    fun t' v i d parentId ordering ht' hv hd hs => ?_⟩
  · obtain ⟨t', v, d, ht', hv, hd, hs⟩ := hr.pointers code parentId p hp
    refine ⟨t', v, d, ht', hv, ?_, hs⟩
    rw [entries_setEntry_of_ne _ _ _ _ ?_, hd]
    rintro ⟨rfl, rfl⟩
    exact hnot parentId p hp rfl
  · by_cases hself : t'.code = t.code ∧ i = id
    · obtain ⟨hcode, rfl⟩ := hself
      rw [hcode, entries_setEntry_self] at hd
      cases hd
    · rw [entries_setEntry_of_ne _ _ _ _ hself] at hd
      exact hr.greatest t' v i d parentId ordering ht' hv hd hs

/-- The pointer to a resource that goes is set to the greatest of the other children, if there is
one. -/
theorem remove_newest {v : Versioning} (hv : t.versioning = some v) {parentId : String} {p : Pointer}
    (hp : r.pointers t.code parentId = some p) (hpid : p.child = id) {next : Option Pointer}
    (hnext : r.Succeeds t v parentId id next) :
    ((r.setEntry t.code id none).setPointer t.code parentId next).Sound c := by
  refine ⟨fun code i d hd => ?_, fun code pid q hq => ?_, fun t' v' i d pid o ht' hv' hd hs' => ?_⟩
  · obtain ⟨t', ht', hid', hd'⟩ := hr.entries_remove hchildless code i d hd
    exact ⟨t', ht', hid', hd'.mono fun _ _ h => h⟩
  · by_cases hself : code = t.code ∧ pid = parentId
    · obtain ⟨rfl, rfl⟩ := hself
      rw [pointers_setPointer_self] at hq
      obtain ⟨hne, d, hd, hs⟩ := hnext.child q hq
      exact ⟨t, v, d, ht, hv, (entries_setEntry_of_ne _ _ _ _ fun h => hne h.2).trans hd, hs⟩
    · rw [pointers_setPointer_of_ne _ _ _ _ hself] at hq
      obtain ⟨t', v', d, ht', hv', hd, hs⟩ := hr.pointers code pid q hq
      refine ⟨t', v', d, ht', hv', ?_, hs⟩
      rw [entries_setPointer, entries_setEntry_of_ne _ _ _ _ ?_, hd]
      rintro ⟨rfl, rfl⟩
      obtain rfl := Option.some.inj (ht.symm.trans ht')
      exact hself ⟨rfl, (hr.eq_parent ht hv' hd hs hp hpid).symm⟩
  · rw [entries_setPointer] at hd
    by_cases hself : t'.code = t.code ∧ i = id
    · obtain ⟨hcode, rfl⟩ := hself
      rw [hcode, entries_setEntry_self] at hd
      cases hd
    · rw [entries_setEntry_of_ne _ _ _ _ hself] at hd
      by_cases hparent : t'.code = t.code ∧ pid = parentId
      · obtain ⟨hcode, rfl⟩ := hparent
        obtain rfl := ht'.eq_of_code ht hcode
        obtain rfl := Option.some.inj (hv.symm.trans hv')
        rw [pointers_setPointer_self]
        exact hnext.greatest i d o hd (fun h => hself ⟨rfl, h⟩) hs'
      · rw [pointers_setPointer_of_ne _ _ _ _ hparent]
        exact hr.greatest t' v' i d pid o ht' hv' hd hs'

end

end Sound

end Registry

end TagStore
