import TagStore.Proofs.Creating
import TagStore.Resource.List

namespace TagStore

theorem Checks.tagDelimiter_eq_ok_iff {name : String} :
    tagDelimiter name = .ok () ↔ Key.hasDelimiter name = false := by
  unfold tagDelimiter
  cases Key.hasDelimiter name with
  | true => exact ⟨nofun, nofun⟩
  | false => exact ⟨fun _ => rfl, fun _ => rfl⟩

/-- The tags that a query asks for: its own, those that stand for its fields, and the one of newest
children. -/
def ListQuery.wanted (q : ListQuery) : Tags :=
  let tags := q.tags.insertAll (q.fields.entries.map fun (field, value) => (Key.reserved field, value))
  if q.latestOnly then tags.insert Key.latestTag Key.latestValue else tags

/-- How many resources a page of the query's answer may have. -/
def ListQuery.pageSize (q : ListQuery) (setup : Setup) : Nat := q.count.getD setup.settings.pageSize

/-- Whether a query may be asked for resources of a type. -/
structure ListQuery.Fits (q : ListQuery) (setup : Setup) (t : ResourceType) : Prop where
  count : q.pageSize setup ≠ 0
  tags : ∀ name ∈ q.tags.keys, Key.hasDelimiter name = false
  fields : ∀ field ∈ q.fields.keys, field ∈ t.searchable
  latestOnly : q.latestOnly = true → t.versioning.isSome = true
  withLatest : q.withLatest = true → setup.catalog.versionedChildren t.code ≠ []

/-- The types of which a listing shows the newest children. -/
def ListQuery.attached (q : ListQuery) (setup : Setup) (t : ResourceType) : List ResourceType :=
  if q.withLatest then setup.catalog.versionedChildren t.code else []

namespace Resource

theorem fieldTags_eq_ok_iff {t : ResourceType} {fields tags : List (String × String)} :
    fieldTags t fields = .ok tags ↔ (∀ field ∈ fields.map Prod.fst, field ∈ t.searchable) ∧
      tags = fields.map fun (field, value) => (Key.reserved field, value) := by
  induction fields generalizing tags with
  | nil =>
    constructor
    · rintro ⟨⟩
      exact ⟨nofun, rfl⟩
    · rintro ⟨_, rfl⟩
      rfl
  | cons f fields ih =>
    obtain ⟨field, value⟩ := f
    rw [fieldTags, List.map_cons, List.forall_mem_cons]
    by_cases hf : field ∈ t.searchable
    · rw [if_neg (not_not_intro hf)]
      constructor
      · intro h
        obtain ⟨rest, hr, hpair⟩ := Outcome.bind_eq_ok_iff.mp h
        cases hpair
        obtain ⟨hfields, rfl⟩ := ih.mp hr
        exact ⟨⟨hf, hfields⟩, rfl⟩
      · rintro ⟨⟨_, hfields⟩, rfl⟩
        exact Outcome.bind_eq_ok_iff.mpr ⟨_, ih.mpr ⟨hfields, rfl⟩, rfl⟩
    · rw [if_pos hf]
      exact ⟨nofun, fun h => absurd h.1.1 hf⟩

theorem attachedTypes_eq_ok_iff {setup : Setup} {t : ResourceType} {q : ListQuery}
    {types : List ResourceType} : attachedTypes setup t q = .ok types ↔
      (q.withLatest = true → setup.catalog.versionedChildren t.code ≠ []) ∧
        types = q.attached setup t := by
  unfold attachedTypes ListQuery.attached
  cases q.withLatest with
  | false =>
    simp only [Bool.false_eq_true, if_false, false_implies, true_and, Except.ok.injEq, eq_comm]
  | true =>
    simp only [if_true, true_implies]
    split
    next hnil => simp [hnil]
    next hne =>
      constructor
      · rintro ⟨⟩
        exact ⟨hne, rfl⟩
      · rintro ⟨_, rfl⟩
        rfl

theorem queryTags_eq_ok_iff {t : ResourceType} {q : ListQuery} {tags : Tags} :
    queryTags t q = .ok tags ↔ (∀ field ∈ q.fields.keys, field ∈ t.searchable) ∧
      (q.latestOnly = true → t.versioning.isSome = true) ∧ tags = q.wanted := by
  rw [queryTags, Outcome.bind_eq_ok_iff, ListQuery.wanted]
  constructor
  · rintro ⟨fieldTags, hfields, hrest⟩
    obtain ⟨hsearchable, rfl⟩ := fieldTags_eq_ok_iff.mp hfields
    refine ⟨hsearchable, ?_⟩
    cases hlatest : q.latestOnly with
    | false =>
      rw [hlatest] at hrest
      cases hrest
      exact ⟨nofun, rfl⟩
    | true =>
      rw [hlatest] at hrest
      cases hv : t.versioning with
      | none =>
        rw [hv] at hrest
        cases hrest
      | some v =>
        rw [hv] at hrest
        cases hrest
        exact ⟨fun _ => rfl, rfl⟩
  · rintro ⟨hsearchable, hlatest, rfl⟩
    refine ⟨_, fieldTags_eq_ok_iff.mpr ⟨hsearchable, rfl⟩, ?_⟩
    cases hl : q.latestOnly with
    | false => rfl
    | true =>
      obtain ⟨v, hv⟩ := Option.isSome_iff_exists.mp (hlatest hl)
      rw [hv]
      rfl

/-- The answer to a query that fits, once its page of ids is found. -/
def answer {σ : Type} [Store σ] (setup : Setup) (m : σ) (t : ResourceType) (q : ListQuery)
    (found : List String × Option String) : Except Error ResourcePage := do
  let items ← (Listing.itemsOf m setup.settings.chunk t.code found.1).mapError Error.store
  let resources ← ofGroups setup m t (q.attached setup t) (Listing.group t.code items found.1)
  return ⟨resources, found.2⟩

/-- A query is answered with a page only where it fits. -/
theorem list_eq_ok_iff {σ : Type} [Store σ] {setup : Setup} {m : σ} {t : ResourceType}
    (ht : setup.catalog.Has t) {q : ListQuery} {page : ResourcePage} :
    list setup m t.code q = .ok page ↔ q.Fits setup t ∧
      (pageOfIds m t.code (q.pageSize setup) q.wanted q.token >>= answer setup m t q) = .ok page := by
  have htype : findType setup t.code = .ok t := findType_eq_ok_iff.mpr ht
  rw [list]
  constructor
  · intro h
    obtain ⟨t', ht', h⟩ := Outcome.bind_eq_ok_iff.mp h
    obtain rfl := Except.ok.inj (htype.symm.trans ht')
    dsimp only at h
    split at h
    · cases h
    next hcount =>
      obtain ⟨_, hnames, h⟩ := Outcome.bind_eq_ok_iff.mp h
      obtain ⟨attached, hattached, h⟩ := Outcome.bind_eq_ok_iff.mp h
      obtain ⟨tags, htags, h⟩ := Outcome.bind_eq_ok_iff.mp h
      rw [Outcome.mapError_eq_ok_iff] at hnames hattached htags
      obtain ⟨hlatest, rfl⟩ := attachedTypes_eq_ok_iff.mp hattached
      obtain ⟨hfields, hversioned, rfl⟩ := queryTags_eq_ok_iff.mp htags
      refine ⟨⟨hcount, fun name hn => ?_, hfields, hversioned, hlatest⟩, h⟩
      exact Checks.tagDelimiter_eq_ok_iff.mp (Checks.each_eq_ok_iff.mp hnames name hn)
  · rintro ⟨hfits, h⟩
    refine Outcome.bind_eq_ok_iff.mpr ⟨t, htype, ?_⟩
    have hnames : Checks.each Checks.tagDelimiter q.tags.keys = .ok () :=
      Checks.each_eq_ok_iff.mpr fun name hn => Checks.tagDelimiter_eq_ok_iff.mpr (hfits.tags name hn)
    have hattached : attachedTypes setup t q = .ok (q.attached setup t) :=
      attachedTypes_eq_ok_iff.mpr ⟨hfits.withLatest, rfl⟩
    have htags : queryTags t q = .ok q.wanted :=
      queryTags_eq_ok_iff.mpr ⟨hfits.fields, hfits.latestOnly, rfl⟩
    have hcount : ¬ q.count.getD setup.settings.pageSize = 0 := hfits.count
    dsimp only
    rw [if_neg hcount, hnames, hattached, htags]
    exact h

end Resource

end TagStore
