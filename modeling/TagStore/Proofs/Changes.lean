import TagStore.Proofs.Creating
import TagStore.Resource.Update

namespace TagStore

/-- What becomes of a value that is stored for a tag. -/
def TagChange.applied (c : TagChange) (name : String) (old : Option String) : Option String :=
  if name ∈ c.deletes then Option.none else (c.puts.find? name).or old

namespace TagChange

theorem find?_add_of_ne (tags : Tags) (c : TagChange) {e : String × Option String} {name : String}
    (h : name ≠ e.1) : (add tags c e).puts.find? name = c.puts.find? name ∧
      (name ∈ (add tags c e).deletes ↔ name ∈ c.deletes) := by
  obtain ⟨n, w⟩ := e
  cases w with
  | none => exact ⟨rfl, by simp [add, h]⟩
  | some value =>
    simp only [add]
    split
    · exact ⟨rfl, Iff.rfl⟩
    · exact ⟨SortedMap.find?_insert_of_ne _ h _, Iff.rfl⟩

theorem foldl_add_of_ne (tags : Tags) (c : TagChange) {es : List (String × Option String)}
    {name : String} (h : name ∉ es.map Prod.fst) :
    (es.foldl (add tags) c).puts.find? name = c.puts.find? name ∧
      (name ∈ (es.foldl (add tags) c).deletes ↔ name ∈ c.deletes) := by
  induction es generalizing c with
  | nil => exact ⟨rfl, Iff.rfl⟩
  | cons e es ih =>
    have hne : name ≠ e.1 := fun he => h (he ▸ List.mem_cons_self)
    have hnot : name ∉ es.map Prod.fst := fun hm => h (List.mem_cons_of_mem _ hm)
    obtain ⟨hp, hd⟩ := find?_add_of_ne tags c hne
    obtain ⟨hps, hds⟩ := ih (add tags c e) hnot
    exact ⟨hps.trans hp, hds.trans hd⟩

/-- A wish is granted, once, for a tag that nothing is planned for yet. -/
theorem foldl_add_of_mem (tags : Tags) (c : TagChange) {es : List (String × Option String)}
    (hn : (es.map Prod.fst).Nodup) {name : String} {wish : Option String} (hm : (name, wish) ∈ es)
    (hp : c.puts.find? name = Option.none) (hd : name ∉ c.deletes) :
    (es.foldl (add tags) c).applied name (tags.find? name) = wish := by
  induction es generalizing c with
  | nil => cases hm
  | cons e es ih =>
    obtain ⟨hnot, hrest⟩ := List.nodup_cons.mp hn
    by_cases he : e = (name, wish)
    · subst he
      obtain ⟨hps, hds⟩ := foldl_add_of_ne tags (add tags c (name, wish)) hnot
      simp only [List.foldl_cons, applied, hps, hds]
      cases wish with
      | none => simp [add]
      | some value =>
        simp only [add]
        split
        next hsame => simp [hp, hsame]
        next hsame => simp
    · have hm : (name, wish) ∈ es := by
        rcases List.mem_cons.mp hm with h | h
        · exact absurd h.symm he
        · exact h
      have hne : name ≠ e.1 := by
        rintro rfl
        exact hnot (List.mem_map.mpr ⟨_, hm, rfl⟩)
      obtain ⟨hp', hd'⟩ := find?_add_of_ne tags c hne
      exact ih (add tags c e) hrest hm (hp'.trans hp) fun h => hd (hd'.mp h)

/-- No wish for a tag, no change to it. -/
theorem ofWishes_of_none (tags : Tags) {wishes : TagWishes} {name : String}
    (hw : wishes.find? name = Option.none) :
    (ofWishes tags wishes).puts.find? name = Option.none ∧ name ∉ (ofWishes tags wishes).deletes := by
  have hnot : name ∉ wishes.entries.map Prod.fst := by
    intro hm
    obtain ⟨wish, hwish⟩ := SortedMap.mem_keys_iff.mp hm
    rw [hw] at hwish
    cases hwish
  obtain ⟨hp, hd⟩ := foldl_add_of_ne tags none hnot
  exact ⟨hp, fun h => by simpa [none] using hd.mp h⟩

/-- What a change comes to that makes tags what is wished. -/
theorem applied_ofWishes (tags : Tags) (wishes : TagWishes) (name : String) :
    (ofWishes tags wishes).applied name (tags.find? name) =
      (wishes.find? name).getD (tags.find? name) := by
  cases hw : wishes.find? name with
  | none =>
    obtain ⟨hp, hd⟩ := ofWishes_of_none tags hw
    rw [applied, hp, if_neg hd]
    rfl
  | some wish =>
    exact foldl_add_of_mem tags none (SortedMap.nodup_keys wishes) (SortedMap.mem_entries_iff.mpr hw)
      rfl (by simp [none])

end TagChange

/-- Tags with what is wished for some of them. -/
def Tags.granting (tags : Tags) (wishes : TagWishes) : Tags :=
  wishes.entries.foldl
    (fun tags (name, wish) =>
      match wish with
      | some value => tags.insert name value
      | none => tags.erase name)
    tags

theorem Tags.find?_granting (tags : Tags) (wishes : TagWishes) (name : String) :
    (tags.granting wishes).find? name = (wishes.find? name).getD (tags.find? name) := by
  refine (SortedMap.find?_foldl_entries id ?_ tags wishes name).trans ?_
  · rintro m ⟨n, wish⟩ k
    cases wish with
    | none => exact SortedMap.find?_erase m n k
    | some value => exact SortedMap.find?_insert m n k value
  · cases wishes.find? name <;> rfl

namespace Resource

/-- Fields that are given count, and null ones are removed. -/
theorem find?_mergeFields (fields changes : Item) (name : String) :
    (mergeFields fields changes).find? name =
      match changes.find? name with
      | some value => if value.isNull then none else some value
      | none => fields.find? name := by
  refine (SortedMap.find?_foldl_entries (fun v => if v.isNull then none else some v) ?_ fields
    changes name).trans ?_
  · rintro m ⟨n, value⟩ k
    dsimp only
    split
    · rw [SortedMap.find?_erase]
    · rw [SortedMap.find?_insert]
  · cases changes.find? name <;> rfl

theorem checkFixed_spec {existing changes : Item} {names : List String}
    (h : checkFixed existing changes names = .ok ()) : ∀ name ∈ names, ∀ value,
      changes.find? name = some value → sameField (existing.find? name) value = true := by
  induction names with
  | nil => simp
  | cons n names ih =>
    rw [checkFixed] at h
    intro name hm value hv
    rcases List.mem_cons.mp hm with rfl | hm
    · rw [hv] at h
      simp only at h
      split at h
      · assumption
      · cases h
    · split at h
      · split at h
        · exact ih h name hm value hv
        · cases h
      · exact ih h name hm value hv

/-- A text in a fixed field stays. -/
theorem find?_mergeFields_fixed {existing changes : Item} {names : List String}
    (h : checkFixed existing changes names = .ok ()) {name text : String} (hn : name ∈ names)
    (ht : existing.find? name = some (.string text)) :
    (mergeFields existing changes).find? name = some (.string text) := by
  rw [find?_mergeFields]
  cases hv : changes.find? name with
  | none => exact ht
  | some value =>
    have hsame := checkFixed_spec h name hn value hv
    rw [ht, sameField] at hsame
    cases value <;> simp [Json.same] at hsame
    subst hsame
    rfl

theorem text?_eq_some_iff {item : Item} {name text : String} :
    item.text? name = some text ↔ item.find? name = some (.string text) := by
  unfold Item.text?
  cases item.find? name with
  | none => simp
  | some value => cases value <;> simp [Json.string?]

theorem requiredText_merge {existing changes : Item} {names : List String}
    (h : checkFixed existing changes names = .ok ()) {name text : String} (hn : name ∈ names)
    (ht : Checks.requiredText existing name = .ok text) :
    Checks.requiredText (mergeFields existing changes) name = .ok text := by
  rw [Checks.requiredText_eq_ok_iff, text?_eq_some_iff] at ht ⊢
  exact ⟨find?_mergeFields_fixed h hn ht.1, ht.2⟩

/-- A resource stays where it stands under its parent. -/
theorem standing_merge {existing changes : Item} {t : ResourceType}
    (h : checkFixed existing changes t.fixedFields = .ok ()) {v : Versioning}
    (hv : t.versioning = some v) {parentId ordering : String}
    (hs : standing v existing = .ok (parentId, ordering)) :
    standing v (mergeFields existing changes) = .ok (parentId, ordering) := by
  have hparent : v.parentField ∈ t.fixedFields := by simp [ResourceType.fixedFields, hv]
  have horder : v.orderField ∈ t.fixedFields := by simp [ResourceType.fixedFields, hv]
  rw [standing_eq_ok_iff] at hs ⊢
  obtain ⟨hp, text, ht, ho⟩ := hs
  exact ⟨requiredText_merge h hparent hp, text, find?_mergeFields_fixed h horder ht, ho⟩

section
variable {before after : Item}

theorem addReserved_of_ne (before after : Item) (c : TagChange) {field name : String}
    (h : name ≠ Key.reserved field) :
    (addReserved before after c field).puts.find? name = c.puts.find? name ∧
      (name ∈ (addReserved before after c field).deletes ↔ name ∈ c.deletes) := by
  unfold addReserved
  dsimp only
  split
  · exact ⟨rfl, Iff.rfl⟩
  · split
    · exact ⟨SortedMap.find?_insert_of_ne _ h _, Iff.rfl⟩
    · exact ⟨rfl, by simp [h]⟩

/-- Whether all that is planned for the tag of a field is what becomes of it. -/
def Fits (after : Item) (c : TagChange) (field : String) : Prop :=
  (Key.reserved field ∈ c.deletes → searchText? after field = none) ∧
    ∀ value, c.puts.find? (Key.reserved field) = some value → searchText? after field = some value

theorem fits_addReserved (before : Item) {c : TagChange} {field : String} (h : Fits after c field)
    (other : String) :
    Fits after (addReserved before after c other) field := by
  by_cases hf : Key.reserved field = Key.reserved other
  · obtain rfl := Key.reserved_inj.mp hf
    unfold addReserved
    dsimp only
    split
    · exact h
    · split
      next value hv =>
        refine ⟨h.1, fun w hw => ?_⟩
        rw [SortedMap.find?_insert_self] at hw
        exact Option.some.inj hw ▸ hv
      next hv => exact ⟨fun _ => hv, h.2⟩
  · obtain ⟨hp, hd⟩ := addReserved_of_ne before after c hf
    exact ⟨fun hm => h.1 (hd.mp hm), fun value hv => h.2 value (hp ▸ hv)⟩

theorem applied_addReserved (before : Item) {c : TagChange} {field : String} (h : Fits after c field) :
    (addReserved before after c field).applied (Key.reserved field) (searchText? before field) =
      searchText? after field := by
  unfold addReserved
  dsimp only
  split
  next hsame =>
    unfold TagChange.applied
    split
    next hd => exact (h.1 hd).symm
    next =>
      cases hp : c.puts.find? (Key.reserved field) with
      | none => exact hsame
      | some value => exact (h.2 value hp).symm
  next =>
    split
    next value hv =>
      have hd : Key.reserved field ∉ c.deletes := fun hd => by
        rw [h.1 hd] at hv
        cases hv
      simp [TagChange.applied, hd, hv]
    next hv => simp [TagChange.applied, hv]

theorem foldl_addReserved_of_ne (before after : Item) (c : TagChange) {fields : List String}
    {name : String}
    (h : ∀ field ∈ fields, name ≠ Key.reserved field) :
    (fields.foldl (addReserved before after) c).puts.find? name = c.puts.find? name ∧
      (name ∈ (fields.foldl (addReserved before after) c).deletes ↔ name ∈ c.deletes) := by
  induction fields generalizing c with
  | nil => exact ⟨rfl, Iff.rfl⟩
  | cons field fields ih =>
    obtain ⟨hp, hd⟩ := addReserved_of_ne before after c
      (h field List.mem_cons_self)
    obtain ⟨hps, hds⟩ := ih (addReserved before after c field) fun f hf =>
      h f (List.mem_cons_of_mem _ hf)
    exact ⟨hps.trans hp, hds.trans hd⟩

/-- What is planned for the tags of some fields makes them what becomes of the fields, also where a
field comes up twice. -/
theorem applied_foldl_addReserved {c : TagChange} {fields : List String} {field : String}
    (hf : Fits after c field) (hm : field ∈ fields) :
    (fields.foldl (addReserved before after) c).applied (Key.reserved field)
      (searchText? before field) = searchText? after field := by
  induction fields generalizing c with
  | nil => cases hm
  | cons other fields ih =>
    have hfits := fits_addReserved before hf other
    by_cases hin : field ∈ fields
    · exact ih hfits hin
    · obtain rfl : field = other := (List.mem_cons.mp hm).resolve_right hin
      have hothers : ∀ f ∈ fields, Key.reserved field ≠ Key.reserved f := fun f hf he =>
        hin (Key.reserved_inj.mp he ▸ hf)
      obtain ⟨hp, hd⟩ := foldl_addReserved_of_ne before after (addReserved before after c field) hothers
      have hstep := applied_addReserved before hf
      unfold TagChange.applied at hstep ⊢
      simpa only [List.foldl_cons, hp, hd] using hstep

end

end Resource

end TagStore
