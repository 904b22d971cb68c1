import TagStore.Proofs.Parents

namespace TagStore

/-- The resources of a versioned type as far as its pointers go: the parents that they name, the pointers of
parents, and the tags of newest children. -/
@[ext]
structure Family where
  parent : String → Option String
  pointer : String → Option Pointer
  flag : String → Option Item

namespace Family

/-- Whether pointers name children of their parents, and those children alone have the tag. -/
structure InStep (code : String) (F : Family) : Prop where
  child : ∀ parentId p, F.pointer parentId = some p → F.parent p.child = some parentId
  flagged : ∀ parentId p, F.pointer parentId = some p → F.flag p.child = some (Version.latestItem code p.child)
  only : ∀ id item, F.flag id = some item → item = Version.latestItem code id ∧
    ∃ parentId p, F.pointer parentId = some p ∧ p.child = id

def setParent (F : Family) (id : String) (parentId : Option String) : Family :=
  { F with parent := fun i => if i = id then parentId else F.parent i }

theorem setParent_self (F : Family) (id : String) : F.setParent id (F.parent id) = F := by
  unfold setParent
  congr 1
  funext i
  exact ite_eq_right_iff.mpr fun hi => congrArg F.parent hi.symm

/-- A pointer is set, and takes the tag from the child that it named to the one that it is to name. -/
def setPointer (F : Family) (code parentId : String) (new : Option Pointer) : Family :=
  { F with
    pointer := fun i => if i = parentId then new else F.pointer i
    flag := fun id => if new.any (·.child = id) then some (Version.latestItem code id)
      else if (F.pointer parentId).any (·.child = id) then none else F.flag id }

theorem pointer_setPointer_self (F : Family) (code parentId : String) (new : Option Pointer) :
    (F.setPointer code parentId new).pointer parentId = new := if_pos rfl

theorem pointer_setPointer_of_ne (F : Family) (code : String) {parentId pid : String} (hpid : pid ≠ parentId)
    (new : Option Pointer) : (F.setPointer code parentId new).pointer pid = F.pointer pid := if_neg hpid

namespace InStep
variable {code : String} {F : Family} (h : F.InStep code) {id parentId : String}
include h

/-- A child has the tag where the pointer of its parent names it. -/
theorem flag_iff (hid : F.parent id = some parentId) {item : Item} : F.flag id = some item ↔
    item = Version.latestItem code id ∧ ∃ p, F.pointer parentId = some p ∧ p.child = id := by
  constructor
  · intro hflag
    obtain ⟨hitem, pid, p, hp, rfl⟩ := h.only id item hflag
    obtain rfl := Option.some.inj ((h.child pid p hp).symm.trans hid)
    exact ⟨hitem, p, hp, rfl⟩
  · rintro ⟨rfl, p, hp, rfl⟩
    exact h.flagged parentId p hp

theorem flag_eq_none (hid : F.parent id = some parentId)
    (hne : ∀ p, F.pointer parentId = some p → p.child ≠ id) : F.flag id = none := by
  cases hflag : F.flag id with
  | none => rfl
  | some item =>
    obtain ⟨_, p, hp, hchild⟩ := (h.flag_iff hid).mp hflag
    exact absurd hchild (hne p hp)

/-- A child that comes has no pointer to it. -/
theorem add (hid : F.parent id = none) (pid : Option String) : (F.setParent id pid).InStep code := by
  refine ⟨fun parentId p hp => ?_, h.flagged, h.only⟩
  have hne : p.child ≠ id := by
    rintro rfl
    rw [h.child parentId p hp] at hid
    cases hid
  exact (if_neg hne).trans (h.child parentId p hp)

/-- A child that no pointer names may go. -/
theorem remove (hne : ∀ parentId p, F.pointer parentId = some p → p.child ≠ id) :
    (F.setParent id none).InStep code :=
  ⟨fun parentId p hp => (if_neg (hne parentId p hp)).trans (h.child parentId p hp), h.flagged, h.only⟩

/-- A pointer may be set to any child of its parent. -/
theorem repoint {new : Option Pointer} (hnew : ∀ p, new = some p → F.parent p.child = some parentId) :
    (F.setPointer code parentId new).InStep code := by
  refine ⟨fun pid p hp => ?_, fun pid p hp => ?_, fun id item hflag => ?_⟩
  · by_cases hpid : pid = parentId
    · subst hpid
      rw [pointer_setPointer_self] at hp
      exact hnew p hp
    · rw [pointer_setPointer_of_ne _ _ hpid] at hp
      exact h.child pid p hp
  · change (if new.any (·.child = p.child) then _ else _) = _
    by_cases hpid : pid = parentId
    · subst hpid
      rw [pointer_setPointer_self] at hp
      exact if_pos (by simp [hp])
    · rw [pointer_setPointer_of_ne _ _ hpid] at hp
      have hold : (F.pointer parentId).any (·.child = p.child) = false := by
        rw [Bool.eq_false_iff]
        intro hold
        obtain ⟨q, hq, hchild⟩ := (Option.any_eq_true _ _).mp hold
        have hparent := h.child parentId q hq
        rw [of_decide_eq_true hchild, h.child pid p hp] at hparent
        exact hpid (Option.some.inj hparent)
      rw [hold, if_neg Bool.false_ne_true, h.flagged pid p hp, ite_self]
  · change (if new.any (·.child = id) then _ else _) = _ at hflag
    split at hflag
    next hnew =>
      obtain ⟨p, hp, hid⟩ := (Option.any_eq_true _ _).mp hnew
      exact ⟨(Option.some.inj hflag).symm, parentId, p, hp ▸ pointer_setPointer_self F code parentId new,
        of_decide_eq_true hid⟩
    next =>
      split at hflag
      · cases hflag
      next hold =>
        obtain ⟨hitem, pid, p, hp, hid⟩ := h.only id item hflag
        have hpid : pid ≠ parentId := by
          rintro rfl
          exact hold (by simp [hp, hid])
        exact ⟨hitem, pid, p, (pointer_setPointer_of_ne F code hpid new).trans hp, hid⟩

end InStep

/-- What a call may do to a family: a child comes or goes, and with it the pointer of its parent may be set. -/
inductive Step (code : String) (F : Family) : Family → Prop where
  | same : Step code F F
  | add {id : String} (hid : F.parent id = none) (parentId : String) :
    Step code F (F.setParent id (some parentId))
  | promote {id : String} (hid : F.parent id = none) (parentId ordering : String) :
    Step code F ((F.setParent id (some parentId)).setPointer code parentId (some ⟨id, ordering⟩))
  | remove {id parentId : String} (hid : F.parent id = some parentId)
    (hne : ∀ p, F.pointer parentId = some p → p.child ≠ id) : Step code F (F.setParent id none)
  | succeed {p : Pointer} {parentId : String} (hp : F.pointer parentId = some p) {next : Option Pointer}
    (hnext : ∀ q, next = some q → q.child ≠ p.child ∧ F.parent q.child = some parentId) :
    Step code F ((F.setPointer code parentId next).setParent p.child none)

theorem InStep.step {code : String} {F F' : Family} (h : F.InStep code) (hstep : Step code F F') :
    F'.InStep code := by
  cases hstep with
  | same => exact h
  | add hid parentId => exact h.add hid _
  | promote hid parentId ordering =>
    refine (h.add hid (some parentId)).repoint fun p hp => ?_
    cases hp
    exact if_pos rfl
  | remove hid hne =>
    refine h.remove fun parentId p hp hchild => ?_
    subst hchild
    obtain rfl := Option.some.inj ((h.child _ p hp).symm.trans hid)
    exact hne p hp rfl
  | @succeed p parentId hp next hnext =>
    -- The pointer moves on first, so that none names the child when it goes.
    refine (h.repoint fun q hq => (hnext q hq).2).remove fun pid q hq => ?_
    by_cases hpid : pid = parentId
    · subst hpid
      rw [pointer_setPointer_self] at hq
      exact (hnext q hq).1
    · rw [pointer_setPointer_of_ne _ _ hpid] at hq
      intro hchild
      have hparent := h.child pid q hq
      rw [hchild, h.child parentId p hp] at hparent
      exact hpid (Option.some.inj hparent).symm

end Family

/-- The pointer that some items have under a key. -/
def Pointer.at? (items : ItemKey → Option Item) (key : ItemKey) : Option Pointer :=
  (items key).bind fun item => (ofItem key item).toOption

theorem Pointer.at?_of_find? {m : Memory} {key : ItemKey} {old : Option Pointer}
    (h : find? m key = .ok old) : at? m.items.find? key = old := by
  obtain ⟨found, hfound, h⟩ := Outcome.bind_eq_ok_iff.mp h
  cases hfound
  unfold at?
  cases hf : m.items.find? key with
  | none =>
    rw [hf] at h
    exact Except.ok.inj h
  | some item =>
    rw [hf] at h
    obtain ⟨p, hp, h⟩ := Outcome.bind_eq_ok_iff.mp h
    rw [Outcome.mapError_eq_ok_iff] at hp
    rw [Option.bind_some, hp]
    exact Except.ok.inj h

/-- The family of a type that a store holds. -/
def Memory.family (m : Memory) (t : ResourceType) (v : Versioning) : Family where
  parent id := (m.fieldsOf? t id).bind (·.text? v.parentField)
  pointer parentId := Pointer.at? m.items.find? (Pointer.key t.code v parentId)
  flag id := m.items.find? (Version.latestKey t.code id)

/-- Whether a batch leaves the pointers of a type, and the tags of its newest children, as they are. -/
structure Batch.Spares (items : SortedMap ItemKey Item) (t : ResourceType) (v : Versioning) (b : Batch) :
    Prop where
  pointer : ∀ parentId, b.effect items (Pointer.key t.code v parentId) =
    items.find? (Pointer.key t.code v parentId)
  flag : ∀ id, b.effect items (Version.latestKey t.code id) = items.find? (Version.latestKey t.code id)

namespace Memory
variable {c : Catalog} (hc : c.Checked) {m m' : Memory} {t : ResourceType} (ht : c.Has t) {v : Versioning}
  {b : Batch}

theorem parent_family {id parentId : String} {fields : Item} (hf : m.fieldsOf? t id = some fields)
    (hp : Checks.requiredText fields v.parentField = .ok parentId) :
    (m.family t v).parent id = some parentId := by
  change (m.fieldsOf? t id).bind _ = _
  rw [hf]
  exact (Checks.requiredText_eq_ok_iff.mp hp).1

theorem family_of_items_eq (hitems : m'.items = m.items) : m'.family t v = m.family t v := by
  obtain ⟨items, faults⟩ := m
  obtain ⟨items', faults'⟩ := m'
  cases hitems
  rfl

theorem family_spared (heffect : m'.items.find? = b.effect m.items) (hspares : b.Spares m.items t v) :
    m'.family t v = { m.family t v with parent := (m'.family t v).parent } := by
  apply Family.ext
  · rfl
  · funext parentId
    change Pointer.at? m'.items.find? _ = Pointer.at? m.items.find? _
    rw [Pointer.at?, heffect, hspares.pointer, Pointer.at?]
  · funext id
    change m'.items.find? _ = m.items.find? _
    rw [heffect, hspares.flag]

include hc ht

/-- What is done for a pointer sets it in the family. -/
theorem family_repoint {parentId : String} {new : Option Pointer} {guard : Condition}
    (heffect : m'.items.find? = (Version.repoint b t.code (Pointer.key t.code v parentId)
      ((m.family t v).pointer parentId) new guard).effect m.items)
    (hpointer : ∀ pid, b.effect m.items (Pointer.key t.code v pid) = m.items.find? (Pointer.key t.code v pid))
    (hflag : ∀ id, ((m.family t v).pointer parentId).any (·.child = id) = false →
      b.effect m.items (Version.latestKey t.code id) = m.items.find? (Version.latestKey t.code id)) :
    m'.family t v = { (m.family t v).setPointer t.code parentId new with
      parent := (m'.family t v).parent } := by
  have hne : ∀ id pid, Version.latestKey t.code id ≠ Pointer.key t.code v pid := fun id pid =>
    hc.tagKey_ne_pointerKey ht _ _ v pid
  apply Family.ext
  · rfl
  · funext pid
    change Pointer.at? m'.items.find? (Pointer.key t.code v pid) = _
    rw [Pointer.at?, heffect]
    by_cases hpid : pid = parentId
    · subst hpid
      rw [Version.effect_repoint_key]
      refine Eq.trans ?_ (Family.pointer_setPointer_self _ t.code pid new).symm
      cases new with
      | none => rfl
      | some p => simp [Except.toOption]
    · have hkey : Pointer.key t.code v pid ≠ Pointer.key t.code v parentId := fun hk =>
        hpid (Key.resource_right_inj.mp (congrArg ItemKey.partition hk))
      rw [Version.effect_repoint_of_ne _ hkey fun id => (hne id pid).symm, hpointer]
      exact (Family.pointer_setPointer_of_ne (m.family t v) t.code hpid new).symm
  · funext id
    change m'.items.find? (Version.latestKey t.code id) = if new.any (·.child = id) then _ else _
    rw [heffect, Version.effect_repoint_latestKey _ fun id => hne id parentId]
    split
    · rfl
    · cases hold : ((m.family t v).pointer parentId).any (·.child = id) with
      | true => rfl
      | false => exact hflag id hold

end Memory

namespace Batch.Spares
variable {c : Catalog} (hc : c.Checked) {t t' : ResourceType} (ht : c.Has t) (ht' : c.Has t') {v : Versioning}
  {id : String} (hid : id ≠ Key.latestMark) {items : SortedMap ItemKey Item}
include hc ht ht'

/-- The work for a pointer of another type spares those of this one. -/
theorem repoint {b : Batch} (h : b.Spares items t v) (hne : t ≠ t') {v' : Versioning} (parentId : String)
    (old new : Option Pointer) (guard : Condition) :
    (Version.repoint b t'.code (Pointer.key t'.code v' parentId) old new guard).Spares items t v := by
  refine ⟨fun pid => ?_, fun i => ?_⟩
  · rw [Version.effect_repoint_of_ne _ (fun hk => ?_) fun i =>
      (hc.tagKey_ne_pointerKey ht (Key.resource t'.code i) _ v pid).symm]
    · exact h.pointer pid
    · have hsort := congrArg ItemKey.sort hk
      exact hne (ht.eq_of_code ht'
        (Key.resource_inj (hc.hasDelimiter_code ht) (hc.hasDelimiter_code ht') hsort).1)
  · have hkey : Version.latestKey t.code i ≠ Pointer.key t'.code v' parentId :=
      hc.tagKey_ne_pointerKey ht' _ _ v' parentId
    rw [Version.effect_repoint_of_ne _ hkey fun j hk => hne (hc.tagKey_inj ht ht' hk).1]
    exact h.flag i

include hid

/-- The canonical item of a resource and its tags are no pointers, and no tags of newest children as long as
they are not named so. -/
theorem own {op : WriteOp} {es : List (ItemKey × WriteOp)} (hes : ∀ e ∈ es, ∃ name, name ≠ Key.latestTag ∧
      e.1 = Tag.key (Key.resource t'.code id) name) :
    ((Batch.empty.place ⟨Key.resource t'.code id, Key.resource t'.code id⟩ op).placeAll es).Spares
      items t v := by
  refine ⟨fun pid => ?_, fun i => ?_⟩
  · rw [Batch.effect_placeAll_of_ne, Batch.effect_place, Batch.effect_empty,
      if_neg (hc.canonicalKey_ne_pointerKey_of_ne ht' ht hid v pid).symm]
    intro e he
    obtain ⟨name, _, hk⟩ := hes e he
    rw [hk]
    exact hc.tagKey_ne_pointerKey ht _ _ v pid
  · have hkey : Version.latestKey t.code i ≠ ⟨Key.resource t'.code id, Key.resource t'.code id⟩ :=
      (hc.canonicalKey_ne_tagKey ht' id _ _).symm
    rw [Batch.effect_placeAll_of_ne, Batch.effect_place, Batch.effect_empty, if_neg hkey]
    intro e he hk
    obtain ⟨name, hname, hk'⟩ := hes e he
    exact hname (Key.tagSort_inj.mp (congrArg ItemKey.sort (hk'.symm.trans hk)))

variable (hunflagged : ∀ field ∈ t'.searchable, Key.reserved field ≠ Key.latestTag)
include hunflagged

theorem creation {e : Entry}
    (htags : ∀ name value, e.tags.find? name = some value → Checks.tagName name = .ok ()) (item : Item) :
    (Resource.creation t' id item e).Spares items t v := by
  refine own hc ht ht' hid fun d hd => ?_
  obtain ⟨⟨name, value⟩, htag, rfl⟩ := List.mem_map.mp hd
  refine ⟨name, ?_, rfl⟩
  rintro rfl
  rw [SortedMap.mem_entries_iff, Entry.find?_allTags_unkept htags Key.isReserved_latestTag
    fun field hf => (hunflagged field hf).symm] at htag
  cases htag

theorem revision {e : Entry} {update : ResourceUpdate}
    (htags : ∀ name ∈ update.tags.keys, Checks.tagName name = .ok ()) (item : Item) :
    (Resource.revision t' id item (Resource.tagChange t' e update)).Spares items t v := by
  obtain ⟨hputs, hdeletes⟩ := Resource.foldl_addReserved_of_ne e.fields
    (Resource.mergeFields e.fields update.fields) (TagChange.ofWishes e.tags update.tags)
    fun field hf => (hunflagged field hf).symm
  obtain ⟨hnone, hnot⟩ := TagChange.ofWishes_of_none e.tags
    (Resource.find?_wishes_reserved htags Key.isReserved_latestTag)
  refine own hc ht ht' hid fun d hd => ?_
  rcases List.mem_append.mp hd with hd | hd
  · obtain ⟨⟨name, value⟩, htag, rfl⟩ := List.mem_map.mp hd
    refine ⟨name, ?_, rfl⟩
    rintro rfl
    rw [SortedMap.mem_entries_iff, Resource.tagChange, hputs, hnone] at htag
    cases htag
  · obtain ⟨name, hin, rfl⟩ := List.mem_map.mp hd
    refine ⟨name, ?_, rfl⟩
    rintro rfl
    exact hnot (hdeletes.mp hin)

end Batch.Spares

end TagStore
