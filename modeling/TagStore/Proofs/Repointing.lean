import TagStore.Proofs.BatchEffects
import TagStore.Proofs.RegistrySteps
import TagStore.Version.Upkeep

namespace TagStore

namespace Version

/-- A batch with the work that takes the tag of newest children from the child that a pointer names. -/
def unflag (b : Batch) (childCode : String) : Option Pointer → Batch
  | none => b
  | some p => (b.delete (latestKey childCode p.child) none).1

/-- A batch with the work that sets a pointer, and takes the tag of newest children from the child that
it named to the one that it is to name. -/
def repoint (b : Batch) (childCode : String) (key : ItemKey) (old new : Option Pointer)
    (guard : Condition) : Batch :=
  let b := unflag b childCode old
  match new with
  | none => (b.delete key (some guard)).1
  | some p => (b.place (latestKey childCode p.child) (.put (latestItem childCode p.child) none)).place key
      (.put (p.item key) (some guard))

theorem promote_eq (b : Batch) (childCode : String) (key : ItemKey) (p : Pointer) (guard : Condition) :
    promote b childCode key p guard = .ok ((b.place (latestKey childCode p.child)
      (.put (latestItem childCode p.child) none)).place key (.put (p.item key) (some guard))) := by
  have hlatest : (latestItem childCode p.child).key = .ok (latestKey childCode p.child) :=
    Tag.key_item _ _ _
  rw [promote, b.put_eq hlatest]
  exact Batch.put_eq _ (Pointer.key_item key p) _

/-- The condition that a pointer is still that which was read. -/
def guardOf : Option Pointer → Condition
  | none => .absent
  | some p => names p.child

theorem holds_names_iff (key : ItemKey) (p : Pointer) (id : String) :
    (names id).holds (some (p.item key)) = true ↔ p.child = id := by
  have hid : Attribute.id ≠ Attribute.ordering := by decide
  simp [names, Condition.holds, Pointer.find?_item, hid, Json.same]

/-- The work for a new child sets the pointer to it, unless it is older than the newest one. -/
theorem addChild_eq {σ : Type} [Store σ] {m : σ} {childCode : String} {v : Versioning} {parentId : String}
    {old : Option Pointer} (hold : Pointer.find? m (Pointer.key childCode v parentId) = .ok old)
    (b : Batch) (new : Pointer) : addChild m b childCode v parentId new =
      .ok (if old.any fun p => new.ordering < p.ordering then (b, false)
        else (repoint b childCode (Pointer.key childCode v parentId) old (some new) (guardOf old), true)) := by
  cases old with
  | none =>
    simp only [addChild, hold, promote_eq, bind, Except.bind, Outcome.mapError_ok, pure, Except.pure,
      Option.any_none, Bool.false_eq_true, if_false]
    rfl
  | some p =>
    simp only [addChild, hold, promote_eq, bind, Except.bind, Outcome.mapError_ok, pure, Except.pure,
      Option.any_some, decide_eq_true_eq]
    split <;> rfl

/-- Whatever is stored, a new child leaves a batch as it is or sets the pointer to it. -/
theorem addChild_inv {σ : Type} [Store σ] {m : σ} {b b' : Batch} {childCode : String} {v : Versioning}
    {parentId : String} {new : Pointer} {newest : Bool}
    (h : addChild m b childCode v parentId new = .ok (b', newest)) :
    b' = b ∨ ∃ old guard, Pointer.find? m (Pointer.key childCode v parentId) = .ok old ∧
      b' = repoint b childCode (Pointer.key childCode v parentId) old (some new) guard := by
  obtain ⟨old, hold, _⟩ := Outcome.bind_eq_ok_iff.mp h
  rw [addChild_eq hold b new, Except.ok.injEq] at h
  split at h
  · exact .inl (Prod.mk.inj h).1.symm
  · exact .inr ⟨old, guardOf old, hold, (Prod.mk.inj h).1.symm⟩

/-- A child that the pointer does not name may go as it is. -/
theorem removeChild_unnamed {σ : Type} [Store σ] {m : σ} {childCode : String} {v : Versioning}
    {parentId gone : String} {old : Option Pointer}
    (hold : Pointer.find? m (Pointer.key childCode v parentId) = .ok old)
    (hnot : ∀ p, old = some p → p.child ≠ gone) (b : Batch) :
    removeChild m b childCode v parentId gone = .ok b := by
  cases old with
  | none => simp only [removeChild, hold, bind, Except.bind, pure, Except.pure]
  | some p =>
    simp only [removeChild, hold, if_pos (hnot p rfl), bind, Except.bind, pure, Except.pure]

theorem removeChild_newest {σ : Type} [Store σ] {m : σ} {childCode : String} {v : Versioning}
    {parentId : String} {p : Pointer}
    (hold : Pointer.find? m (Pointer.key childCode v parentId) = .ok (some p)) {b : Batch}
    {next : Option Pointer}
    (hnext : search m b p.child (Store.size m + 1)
      (Walk.ofRead (newestFirst childCode v parentId)) = .ok next) :
    removeChild m b childCode v parentId p.child = .ok
      (repoint b childCode (Pointer.key childCode v parentId) (some p) next (names p.child)) := by
  cases next with
  | none => simp [removeChild, repoint, unflag, hold, hnext, bind, Except.bind, pure, Except.pure]
  | some q =>
    simp [removeChild, repoint, unflag, promote_eq, hold, hnext, bind, Except.bind, Outcome.mapError_ok]

/-- Whatever is stored, a child that goes leaves a batch as it is, for the pointer does not name it, or sets
the pointer to what the search finds. -/
theorem removeChild_inv {σ : Type} [Store σ] {m : σ} {b b' : Batch} {childCode : String} {v : Versioning}
    {parentId gone : String} (h : removeChild m b childCode v parentId gone = .ok b') :
    (∃ old, Pointer.find? m (Pointer.key childCode v parentId) = .ok old ∧
      (∀ p, old = some p → p.child ≠ gone) ∧ b' = b) ∨
    ∃ p next, Pointer.find? m (Pointer.key childCode v parentId) = .ok (some p) ∧ p.child = gone ∧
      search m b gone (Store.size m + 1) (Walk.ofRead (newestFirst childCode v parentId)) = .ok next ∧
      b' = repoint b childCode (Pointer.key childCode v parentId) (some p) next (names gone) := by
  obtain ⟨old, hold, hrest⟩ := Outcome.bind_eq_ok_iff.mp h
  by_cases hnamed : ∃ p, old = some p ∧ p.child = gone
  · obtain ⟨p, rfl, rfl⟩ := hnamed
    dsimp only at hrest
    rw [if_neg fun hne => hne rfl] at hrest
    obtain ⟨next, hnext, _⟩ := Outcome.bind_eq_ok_iff.mp hrest
    rw [removeChild_newest hold hnext, Except.ok.injEq] at h
    exact .inr ⟨p, next, hold, rfl, hnext, h.symm⟩
  · have hnot : ∀ p, old = some p → p.child ≠ gone := fun p hp hid => hnamed ⟨p, hp, hid⟩
    rw [removeChild_unnamed hold hnot, Except.ok.injEq] at h
    exact .inl ⟨old, hold, hnot, h.symm⟩

section
variable {b : Batch} {childCode : String} {key : ItemKey} {old new : Option Pointer} {guard : Condition}

theorem keyed_unflag (hb : b.Keyed) : (unflag b childCode old).Keyed := by
  cases old with
  | none => exact hb
  | some p => exact hb.delete _ _

theorem find?_unflag_of_ne {other : ItemKey} (hid : ∀ id, other ≠ latestKey childCode id) :
    (unflag b childCode old).find? other = b.find? other := by
  cases old with
  | none => rfl
  | some p => exact b.find?_delete_of_ne (hid p.child) _

theorem keyed_repoint (hb : b.Keyed) : (repoint b childCode key old new guard).Keyed := by
  cases new with
  | none => exact (keyed_unflag hb).delete _ _
  | some p =>
    have hlatest : (latestItem childCode p.child).key = .ok (latestKey childCode p.child) :=
      Tag.key_item _ _ _
    exact ((keyed_unflag hb).place (.put (latestItem childCode p.child) none) hlatest).place
      (.put (p.item key) (some guard)) (Pointer.key_item key p)

theorem find?_repoint_of_ne {other : ItemKey} (hk : other ≠ key)
    (hid : ∀ id, other ≠ latestKey childCode id) :
    (repoint b childCode key old new guard).find? other = b.find? other := by
  cases new with
  | none => exact (Batch.find?_delete_of_ne _ hk _).trans (find?_unflag_of_ne hid)
  | some p =>
    exact (Batch.find?_place_of_ne _ hk _).trans
      ((Batch.find?_place_of_ne _ (hid p.child) _).trans (find?_unflag_of_ne hid))

/-- The operation that sets a pointer on a condition. -/
def setting (key : ItemKey) (guard : Condition) : Option Pointer → WriteOp
  | none => .delete key (some guard)
  | some p => .put (p.item key) (some guard)

theorem condition_setting (key : ItemKey) (guard : Condition) (new : Option Pointer) :
    (setting key guard new).condition = some guard := by
  cases new <;> rfl

/-- The pointer is set, unless a delete of it is pending. -/
theorem find?_repoint_key (hb : new = none → b.find? key = none) (hk : ∀ id, latestKey childCode id ≠ key) :
    (repoint b childCode key old new guard).find? key = some (setting key guard new) := by
  cases new with
  | none => exact Batch.find?_delete_new ((find?_unflag_of_ne fun id => (hk id).symm).trans (hb rfl)) _
  | some p => exact Batch.find?_place_self _ _ _

theorem find?_repoint_latestKey (p : Pointer) (hk : latestKey childCode p.child ≠ key) :
    (repoint b childCode key old (some p) guard).find? (latestKey childCode p.child) =
      some (.put (latestItem childCode p.child) none) :=
  (Batch.find?_place_of_ne _ hk _).trans (Batch.find?_place_self _ _ _)

variable (items : SortedMap ItemKey Item)

theorem effect_repoint_of_ne {other : ItemKey} (hk : other ≠ key)
    (hid : ∀ id, other ≠ latestKey childCode id) :
    (repoint b childCode key old new guard).effect items other = b.effect items other := by
  rw [Batch.effect, find?_repoint_of_ne hk hid, Batch.effect]

theorem effect_repoint_key : (repoint b childCode key old new guard).effect items key =
    new.map (Pointer.item key) := by
  cases new with
  | none => exact (Batch.effect_delete _ _ _ _ items).trans (if_pos rfl)
  | some p => exact (Batch.effect_place _ _ _ _ items).trans (if_pos rfl)

theorem latestKey_inj {i j : String} : latestKey childCode i = latestKey childCode j ↔ i = j :=
  ⟨fun h => Key.resource_right_inj.mp (congrArg ItemKey.partition h), fun h => h ▸ rfl⟩

theorem effect_unflag_latestKey (id : String) :
    (unflag b childCode old).effect items (latestKey childCode id) =
      if old.any (·.child = id) then none else b.effect items (latestKey childCode id) := by
  cases old with
  | none => rfl
  | some p =>
    refine (Batch.effect_delete _ _ _ _ items).trans ?_
    simp only [latestKey_inj, Option.any_some, decide_eq_true_eq, eq_comm (a := id)]

theorem effect_repoint_latestKey (hk : ∀ id, latestKey childCode id ≠ key) (id : String) :
    (repoint b childCode key old new guard).effect items (latestKey childCode id) =
      if new.any (·.child = id) then some (latestItem childCode id)
      else if old.any (·.child = id) then none
      else b.effect items (latestKey childCode id) := by
  cases new with
  | none =>
    refine (Batch.effect_delete _ _ _ _ items).trans ?_
    rw [if_neg (hk id), effect_unflag_latestKey]
    rfl
  | some p =>
    refine (Batch.effect_place _ _ _ _ items).trans ?_
    rw [if_neg (hk id), Batch.effect_place, effect_unflag_latestKey]
    simp only [latestKey_inj, Option.any_some, decide_eq_true_eq]
    by_cases hp : p.child = id
    · subst hp
      rw [if_pos rfl, if_pos rfl]
      rfl
    · rw [if_neg fun h => hp h.symm, if_neg hp]

end

end Version

/-- A batch whose effect a registry mirrors goes on to set one of its pointers. -/
theorem Mirrors.repoint {c : Catalog} (hc : c.Sound) {r : Registry} {b : Batch}
    {items : SortedMap ItemKey Item} (h : Mirrors c (b.effect items) r) {t : ResourceType} (ht : c.Has t)
    {v : Versioning} (hv : t.versioning = some v) {parentId : String} (new : Option Pointer)
    (guard : Condition)
    (hold : ∀ p e, r.pointers t.code parentId = some p → r.entries t.code p.child = some e →
      ∃ ordering, Resource.standing v e.fields = .ok (parentId, ordering))
    (hnew : ∀ p, new = some p → ∃ e ordering, r.entries t.code p.child = some e ∧
      Resource.standing v e.fields = .ok (parentId, ordering)) :
    Mirrors c ((Version.repoint b t.code (Pointer.key t.code v parentId)
      (r.pointers t.code parentId) new guard).effect items) (r.setPointer t.code parentId new) := by
  apply h.setPointer hc ht hv new hold hnew
  · exact Version.effect_repoint_key items
  · exact Version.effect_repoint_latestKey items fun id => hc.tagKey_ne_pointerKey ht _ _ v parentId
  · exact fun key hk hid => Version.effect_repoint_of_ne items hk hid

end TagStore
