import TagStore.Proofs.Deleting
import TagStore.Proofs.Updating

namespace TagStore

/-- Whether all operations of a batch, by their keys, are of some kind. -/
def Batch.All (P : ItemKey → WriteOp → Prop) (b : Batch) : Prop :=
  ∀ key op, b.find? key = some op → P key op

namespace Batch.All
variable {P : ItemKey → WriteOp → Prop} {b : Batch} (hb : b.All P)

theorem empty : Batch.empty.All P := by
  intro key op hop
  cases hop

include hb

theorem place {key : ItemKey} {op : WriteOp} (h : P key op) : (b.place key op).All P := by
  intro key' op' hop
  rcases of_find?_place hop with ⟨rfl, rfl⟩ | hold
  · exact h
  · exact hb key' op' hold

theorem delete {key : ItemKey} {condition : Option Condition} (h : P key (.delete key condition)) :
    (b.delete key condition).1.All P := by
  unfold Batch.delete
  split
  · exact hb
  · exact hb.place h

theorem placeAll {es : List (ItemKey × WriteOp)} (h : ∀ e ∈ es, P e.1 e.2) : (b.placeAll es).All P := by
  induction es generalizing b with
  | nil => exact hb
  | cons e es ih =>
    exact ih (hb.place (h e List.mem_cons_self)) fun d hd => h d (List.mem_cons_of_mem _ hd)

theorem of_mem {e : ItemKey × WriteOp} (he : e ∈ b.entries) : P e.1 e.2 :=
  hb e.1 e.2 (b.find?_of_mem_entries he)

/-- The work for a pointer: deletes and puts of tags of newest children, and the setting of the pointer. -/
theorem repoint {childCode : String} {key : ItemKey} {old new : Option Pointer} {guard : Condition}
    (hdelete : ∀ id, P (Version.latestKey childCode id) (.delete (Version.latestKey childCode id) none))
    (hlatest : ∀ id, P (Version.latestKey childCode id) (.put (Version.latestItem childCode id) none))
    (hpointer : P key (Version.setting key guard new)) :
    (Version.repoint b childCode key old new guard).All P := by
  have hunflag : (Version.unflag b childCode old).All P := by
    cases old with
    | none => exact hb
    | some p => exact hb.delete (hdelete p.child)
  cases new with
  | none => exact hunflag.delete hpointer
  | some p => exact (hunflag.place (hlatest p.child)).place hpointer

end Batch.All

namespace Resource
variable {c : Catalog} (hc : c.Checked) {t : ResourceType} (ht : c.Has t) {id : String}
  {P : ItemKey → WriteOp → Prop}

/-- A tag that an update puts is one that its user names, or is kept for a searchable field. -/
theorem mem_puts_tagChange {e : Entry} {update : ResourceUpdate} {name value : String}
    (hput : (tagChange t e update).puts.find? name = some value) :
    name ∈ update.tags.keys ∨ ∃ field ∈ t.searchable, name = Key.reserved field := by
  by_cases hfield : ∃ field ∈ t.searchable, name = Key.reserved field
  · exact .inr hfield
  · left
    have hnot : ∀ field ∈ t.searchable, name ≠ Key.reserved field := fun field hf hname =>
      hfield ⟨field, hf, hname⟩
    rw [tagChange, (foldl_addReserved_of_ne e.fields _ _ hnot).1] at hput
    cases hwish : update.tags.find? name with
    | some wish => exact SortedMap.mem_keys_iff.mpr ⟨wish, hwish⟩
    | none =>
      rw [(TagChange.ofWishes_of_none e.tags hwish).1] at hput
      cases hput

include hc ht

theorem all_creation {item : Item} {e : Entry}
    (htags : ∀ name value, e.tags.find? name = some value → Checks.tagName name = .ok ())
    (hcanonical : P ⟨Key.resource t.code id, Key.resource t.code id⟩ (.put item (some .absent)))
    (hput : ∀ name value, Key.hasDelimiter name = false → P (Tag.key (Key.resource t.code id) name)
      (.put (Tag.item (Key.resource t.code id) name value) (some .absent))) :
    (creation t id item e).All P := by
  refine (Batch.All.empty.place hcanonical).placeAll fun d hd => ?_
  obtain ⟨tag, htag, rfl⟩ := List.mem_map.mp hd
  apply hput
  rcases (Entry.find?_allTags htags).mp (SortedMap.mem_entries_iff.mp htag) with huser | hfield
  · exact (Checks.tagName_spec (htags _ _ huser)).1
  · obtain ⟨field, hf, hname, _⟩ := hfield
    rw [hname, Key.hasDelimiter_reserved]
    exact hc.hasDelimiter_searchable ht hf

theorem all_revision {item : Item} {e : Entry} {update : ResourceUpdate}
    (htags : ∀ name ∈ update.tags.keys, Checks.tagName name = .ok ())
    (hcanonical : P ⟨Key.resource t.code id, Key.resource t.code id⟩ (.put item (some .present)))
    (hput : ∀ name value, Key.hasDelimiter name = false →
      P (Tag.key (Key.resource t.code id) name) (.put (Tag.item (Key.resource t.code id) name value) none))
    (hdelete : ∀ name, P (Tag.key (Key.resource t.code id) name)
      (.delete (Tag.key (Key.resource t.code id) name) none)) :
    (revision t id item (tagChange t e update)).All P := by
  refine (Batch.All.empty.place hcanonical).placeAll fun d hd => ?_
  rcases List.mem_append.mp hd with hd | hd
  · obtain ⟨tag, htag, rfl⟩ := List.mem_map.mp hd
    apply hput
    rcases mem_puts_tagChange (SortedMap.mem_entries_iff.mp htag) with huser | hfield
    · exact (Checks.tagName_spec (htags _ huser)).1
    · obtain ⟨field, hf, hname⟩ := hfield
      rw [hname, Key.hasDelimiter_reserved]
      exact hc.hasDelimiter_searchable ht hf
  · obtain ⟨name, _, rfl⟩ := List.mem_map.mp hd
    exact hdelete name

end Resource

end TagStore
