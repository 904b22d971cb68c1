import TagStore.Proofs.TagStream
import TagStore.Resource.Delete
import TagStore.Resource.Update

namespace TagStore.Batch

theorem effect_empty (items : SortedMap ItemKey Item) (key : ItemKey) :
    empty.effect items key = items.find? key := rfl

theorem keyed_empty : empty.Keyed := by
  intro e he
  cases he

/-- What is gone after deletes is gone after them from other items too, if they have no keys more. -/
theorem effect_eq_none_of_keys {b : Batch} {key : ItemKey} {items items' : SortedMap ItemKey Item}
    (hleaves : ∀ op, b.find? key = some op → op.leaves = none) (hgone : b.effect items key = none)
    (hkeys : (items'.find? key).isSome = true → (items.find? key).isSome = true) :
    b.effect items' key = none := by
  unfold effect at hgone ⊢
  cases hop : b.find? key with
  | some op => exact hleaves op hop
  | none =>
    simp only [hop] at hgone
    rw [hgone] at hkeys
    simpa using hkeys

theorem effect_place (b : Batch) (key key' : ItemKey) (op : WriteOp) (items : SortedMap ItemKey Item) :
    (b.place key op).effect items key' = if key' = key then op.leaves else b.effect items key' := by
  split
  next h => rw [effect, h, find?_place_self]
  next h => rw [effect, find?_place_of_ne b h, effect]

theorem of_find?_place {b : Batch} {key key' : ItemKey} {op op' : WriteOp}
    (h : (b.place key op).find? key' = some op') : key' = key ∧ op' = op ∨ b.find? key' = some op' := by
  by_cases hk : key' = key
  · rw [hk, find?_place_self] at h
    exact .inl ⟨hk, (Option.some.inj h).symm⟩
  · rw [find?_place_of_ne b hk] at h
    exact .inr h

theorem of_find?_delete {b : Batch} {key key' : ItemKey} {condition : Option Condition} {op : WriteOp}
    (h : (b.delete key condition).1.find? key' = some op) :
    key' = key ∧ op = .delete key condition ∨ b.find? key' = some op := by
  unfold Batch.delete at h
  split at h
  · exact .inr h
  · exact of_find?_place h

theorem Keyed.place {b : Batch} (hb : b.Keyed) {key : ItemKey} (op : WriteOp)
    (hk : op.key = .ok key) : (b.place key op).Keyed := by
  intro e he
  rcases of_find?_place (find?_of_mem_entries _ he) with ⟨hkey, hop⟩ | hold
  · rw [hkey, hop]
    exact hk
  · exact hb e (mem_entries_of_find? hold)

theorem push_eq {op : WriteOp} {key : ItemKey} (b : Batch) (hk : op.key = .ok key) :
    b.push op = .ok (b.place key op) := by
  rw [push, hk]
  rfl

theorem put_eq {item : Item} {key : ItemKey} (b : Batch) (hk : item.key = .ok key)
    (condition : Option Condition) :
    b.put item condition = .ok (b.place key (.put item condition)) :=
  b.push_eq hk

theorem Keyed.delete {b : Batch} (hb : b.Keyed) (key : ItemKey) (condition : Option Condition) :
    (b.delete key condition).1.Keyed := by
  unfold Batch.delete
  split
  · exact hb
  · exact hb.place _ rfl

theorem effect_delete (b : Batch) (key key' : ItemKey) (condition : Option Condition)
    (items : SortedMap ItemKey Item) : (b.delete key condition).1.effect items key' =
      if key' = key then none else b.effect items key' := by
  unfold Batch.delete
  split
  next hd =>
    split
    next hk =>
      subst hk
      unfold deletes at hd
      cases hop : b.find? key' with
      | none => simp [hop] at hd
      | some op =>
        cases op with
        | put item c => simp [hop, WriteOp.isDelete] at hd
        | delete k c => rw [effect, hop]; rfl
    · rfl
  · exact effect_place b key key' _ items

theorem find?_delete_of_ne (b : Batch) {key other : ItemKey} (h : other ≠ key)
    (condition : Option Condition) : (b.delete key condition).1.find? other = b.find? other := by
  unfold Batch.delete
  split
  · rfl
  · exact find?_place_of_ne b h _

theorem find?_delete_new {b : Batch} {key : ItemKey} (hnew : b.find? key = none)
    (condition : Option Condition) : (b.delete key condition).1.find? key = some (.delete key condition) := by
  have hpending : b.deletes key = false := by rw [deletes, hnew, Option.any_none]
  rw [Batch.delete, hpending, if_neg Bool.false_ne_true, find?_place_self]

/-- Takes up operations under their keys in turn. -/
def placeAll (b : Batch) (es : List (ItemKey × WriteOp)) : Batch :=
  es.foldl (fun b e => b.place e.1 e.2) b

theorem of_find?_placeAll {b : Batch} {es : List (ItemKey × WriteOp)} {key : ItemKey} {op : WriteOp}
    (h : (b.placeAll es).find? key = some op) : b.find? key = some op ∨ (key, op) ∈ es := by
  induction es generalizing b with
  | nil => exact .inl h
  | cons e es ih =>
    rcases ih (b := b.place e.1 e.2) h with h | h
    · rcases of_find?_place h with ⟨rfl, rfl⟩ | h
      · exact .inr List.mem_cons_self
      · exact .inl h
    · exact .inr (List.mem_cons_of_mem _ h)

theorem Keyed.placeAll {b : Batch} (hb : b.Keyed) {es : List (ItemKey × WriteOp)}
    (hes : ∀ e ∈ es, e.2.key = .ok e.1) : (b.placeAll es).Keyed := by
  induction es generalizing b with
  | nil => exact hb
  | cons e es ih =>
    exact ih (hb.place e.2 (hes e List.mem_cons_self)) fun d hd => hes d (List.mem_cons_of_mem _ hd)

theorem find?_placeAll_of_ne (b : Batch) {es : List (ItemKey × WriteOp)} {key : ItemKey}
    (h : ∀ e ∈ es, e.1 ≠ key) : (b.placeAll es).find? key = b.find? key := by
  induction es generalizing b with
  | nil => rfl
  | cons e es ih =>
    have hrest := ih (b.place e.1 e.2) fun d hd => h d (List.mem_cons_of_mem _ hd)
    exact hrest.trans (find?_place_of_ne b (Ne.symm (h e List.mem_cons_self)) _)

theorem effect_placeAll_of_ne (b : Batch) {es : List (ItemKey × WriteOp)} {key : ItemKey}
    (h : ∀ e ∈ es, e.1 ≠ key) (items : SortedMap ItemKey Item) :
    (b.placeAll es).effect items key = b.effect items key := by
  rw [effect, find?_placeAll_of_ne b h, effect]

/-- Where all operations on a key leave the same, it does not matter which one counts. -/
theorem effect_placeAll_of_mem (b : Batch) {es : List (ItemKey × WriteOp)} {key : ItemKey}
    {left : Option Item} (hm : key ∈ es.map Prod.fst) (hu : ∀ op, (key, op) ∈ es → op.leaves = left)
    (items : SortedMap ItemKey Item) : (b.placeAll es).effect items key = left := by
  induction es generalizing b with
  | nil => cases hm
  | cons e es ih =>
    by_cases hin : key ∈ es.map Prod.fst
    · exact ih (b.place e.1 e.2) hin fun op hop => hu op (List.mem_cons_of_mem _ hop)
    · have hkey : e.1 = key := by
        rcases List.mem_cons.mp hm with h | h
        · exact h.symm
        · exact absurd h hin
      have hne : ∀ d ∈ es, d.1 ≠ key := fun d hd hk => hin (List.mem_map.mpr ⟨d, hd, hk⟩)
      refine (effect_placeAll_of_ne (b.place e.1 e.2) hne items).trans ?_
      rw [effect_place, if_pos hkey.symm]
      exact hu e.2 (hkey ▸ List.mem_cons_self)

theorem extend_eq (b : Batch) {es : List (ItemKey × WriteOp)} (hes : ∀ e ∈ es, e.2.key = .ok e.1) :
    b.extend (es.map Prod.snd) = (b.placeAll es, .ok ()) := by
  induction es generalizing b with
  | nil => rfl
  | cons e es ih =>
    rw [List.map_cons, extend, b.push_eq (hes e List.mem_cons_self)]
    exact ih (b.place e.1 e.2) fun d hd => hes d (List.mem_cons_of_mem _ hd)

end TagStore.Batch

namespace TagStore

/-- The puts of the tags of an owner. -/
def Tag.puts (owner : String) (condition : Option Condition) (tags : List (String × String)) :
    List (ItemKey × WriteOp) :=
  tags.map fun tag => (Tag.key owner tag.1, .put (Tag.item owner tag.1 tag.2) condition)

theorem Tag.key_puts {owner : String} {condition : Option Condition} {tags : List (String × String)} :
    ∀ e ∈ puts owner condition tags, e.2.key = .ok e.1 := by
  intro e he
  obtain ⟨tag, _, rfl⟩ := List.mem_map.mp he
  exact key_item owner tag.1 tag.2

theorem Tag.addAll_eq (owner : String) (b : Batch) (tags : List (String × String)) :
    addAll owner b tags = .ok (b.placeAll (puts owner (some .absent) tags)) := by
  induction tags generalizing b with
  | nil => rfl
  | cons tag tags ih =>
    rw [addAll, b.put_eq (key_item owner tag.1 tag.2)]
    exact ih _

/-- The deletes of tags of an owner. -/
def Tag.removals (owner : String) (names : List String) : List (ItemKey × WriteOp) :=
  names.map fun name => (Tag.key owner name, .delete (Tag.key owner name) none)

/-- Putting an owner's tags leaves them and its other tags as they were. -/
theorem Tag.effect_puts (b : Batch) (owner : String) (condition : Option Condition) (tags : Tags)
    (name : String) (items : SortedMap ItemKey Item) :
    (b.placeAll (puts owner condition tags.entries)).effect items (key owner name) =
      ((tags.find? name).map (item owner name)).or (b.effect items (key owner name)) := by
  have hinj : ∀ {n}, key owner n = key owner name → n = name := fun h =>
    Key.tagSort_inj.mp (congrArg ItemKey.sort h)
  cases hf : tags.find? name with
  | none =>
    refine b.effect_placeAll_of_ne (fun d hd hk => ?_) items
    obtain ⟨⟨n, value⟩, htag, rfl⟩ := List.mem_map.mp hd
    obtain rfl := hinj hk
    rw [SortedMap.mem_entries_iff, hf] at htag
    cases htag
  | some value =>
    have hin : (key owner name, WriteOp.put (item owner name value) condition) ∈
        puts owner condition tags.entries :=
      List.mem_map.mpr ⟨(name, value), SortedMap.mem_entries_iff.mpr hf, rfl⟩
    refine b.effect_placeAll_of_mem (List.mem_map.mpr ⟨_, hin, rfl⟩) (fun op hop => ?_) items
    obtain ⟨⟨n, w⟩, htag, hk⟩ := List.mem_map.mp hop
    obtain ⟨hkey, rfl⟩ := Prod.mk.inj hk
    obtain rfl := hinj hkey
    rw [SortedMap.mem_entries_iff, hf] at htag
    cases htag
    rfl

theorem Tag.effect_removals (b : Batch) (owner : String) (names : List String) (name : String)
    (items : SortedMap ItemKey Item) :
    (b.placeAll (removals owner names)).effect items (key owner name) =
      if name ∈ names then none else b.effect items (key owner name) := by
  by_cases hn : name ∈ names
  · rw [if_pos hn]
    refine b.effect_placeAll_of_mem (List.mem_map.mpr ⟨_, List.mem_map.mpr ⟨name, hn, rfl⟩, rfl⟩)
      (fun op hop => ?_) items
    obtain ⟨n, _, hk⟩ := List.mem_map.mp hop
    rw [← (Prod.mk.inj hk).2]
    rfl
  · rw [if_neg hn]
    refine b.effect_placeAll_of_ne (fun d hd hk => ?_) items
    obtain ⟨n, hin, rfl⟩ := List.mem_map.mp hd
    exact hn (Key.tagSort_inj.mp (congrArg ItemKey.sort hk) ▸ hin)

theorem TagChange.extend_eq (owner : String) (b : Batch) (puts : List (String × String))
    (deletes : List String) : b.extend (TagChange.ops owner puts deletes) =
      (b.placeAll (Tag.puts owner Option.none puts ++ Tag.removals owner deletes), .ok ()) := by
  have hops : TagChange.ops owner puts deletes =
      (Tag.puts owner Option.none puts ++ Tag.removals owner deletes).map Prod.snd := by
    simp [TagChange.ops, Tag.puts, Tag.removals, Function.comp_def]
  rw [hops]
  apply b.extend_eq
  intro e he
  rcases List.mem_append.mp he with he | he
  · exact Tag.key_puts e he
  · obtain ⟨name, _, rfl⟩ := List.mem_map.mp he
    rfl

/-- Items that stand under their own keys can all be deleted. -/
theorem Resource.deleteAll_spec {items : List Item} {keys : List ItemKey}
    (hk : items.map Item.key = keys.map .ok) {b : Batch} (hb : b.Keyed) :
    ∃ b', deleteAll b items = .ok b' ∧ b'.Keyed ∧
      (∀ stored key, b'.effect stored key = if key ∈ keys then none else b.effect stored key) ∧
      ∀ key, key ∉ keys → b'.find? key = b.find? key := by
  induction items generalizing b keys with
  | nil =>
    cases keys with
    | nil => exact ⟨b, rfl, hb, by simp, fun _ _ => rfl⟩
    | cons k keys => cases hk
  | cons item items ih =>
    cases keys with
    | nil => cases hk
    | cons k keys =>
      obtain ⟨hitem, hrest⟩ := List.cons.inj hk
      obtain ⟨b', hb', hkeyed, heffect, hfind⟩ := ih hrest (hb.delete k none)
      refine ⟨b', ?_, hkeyed, fun stored key => ?_, fun key hnot => ?_⟩
      · rw [deleteAll, hitem]
        exact hb'
      · rw [heffect, Batch.effect_delete]
        by_cases h1 : key ∈ keys <;> by_cases h2 : key = k <;> simp [h1, h2]
      · obtain ⟨hne, hnot⟩ := not_or.mp fun h => hnot (List.mem_cons.mpr h)
        exact (hfind key hnot).trans (b.find?_delete_of_ne hne none)

end TagStore
