import TagStore.Proofs.MemoryPages
import TagStore.Proofs.Outcome
import TagStore.Proofs.Transactions
import TagStore.Tag.Basic

namespace TagStore.Listing

theorem fill_flatten (size room : Nat) (ids : List String) :
    (fill size room ids).1 ++ (fill size room ids).2.flatten = ids := by
  induction ids generalizing room with
  | nil => cases room <;> rfl
  | cons id ids ih =>
    cases room with
    | zero => simpa [fill] using ih (size - 1)
    | succ room => simpa [fill] using ih room

/-- No id is lost between the pieces, whatever their size. -/
theorem flatten_chunks (size : Nat) (ids : List String) : (chunks size ids).flatten = ids := by
  have h := fill_flatten size 0 ids
  cases ids with
  | nil => rfl
  | cons id ids => simpa [chunks, fill] using h

/-- Whether an item is of a resource's partition. -/
def isOf (code id : String) (item : Item) : Bool :=
  item.text? Attribute.partition = some (Key.resource code id)

theorem isOf_iff {code id id' : String} {item : Item} (h : isOf code id item = true) :
    isOf code id' item = true ↔ id' = id := by
  simp only [isOf, decide_eq_true_eq] at h ⊢
  rw [h, Option.some.injEq, Key.resource_right_inj, eq_comm]

/-- The items of some partitions. -/
def itemsOfAll (m : Memory) (partitions : List String) : List Item :=
  (m.items.entries.filter fun e => partitions.contains e.1.partition).map Prod.snd

theorem itemsOf_eq (m : Memory) (chunk : Nat) (code : String) (ids : List String) :
    itemsOf m chunk code ids = .ok
      (((chunks chunk ids).map fun ids => itemsOfAll m (ids.map (Key.resource code))).flatten) := by
  have hread := Outcome.mapM_eq_ok (l := chunks chunk ids)
    (f := fun ids => Read.all m { range := .partitions (ids.map (Key.resource code)) })
    (g := fun ids => itemsOfAll m (ids.map (Key.resource code))) fun ids _ => m.all_partitions _
  rw [itemsOf, hread]
  rfl

section
variable {m : Memory} (hm : m.Keyed) (code id : String)
include hm

theorem filter_itemsOfAll (ids : List String) :
    (itemsOfAll m (ids.map (Key.resource code))).filter (isOf code id) =
      if id ∈ ids then m.itemsIn (Key.resource code id) else [] := by
  have hpartition : ∀ e ∈ m.items.entries,
      isOf code id e.2 = decide (e.1.partition = Key.resource code id) := by
    rintro ⟨key, item⟩ he
    have hkey := Item.key_eq_ok_iff.mp (hm key item (SortedMap.mem_entries_iff.mp he))
    simp only [isOf, hkey.1, Option.some.injEq]
  rw [itemsOfAll, List.filter_map, List.filter_filter]
  split
  next hid =>
    rw [Memory.itemsIn]
    congr 1
    apply List.filter_congr
    intro e he
    have hcontains : (decide (e.1.partition = Key.resource code id) &&
        (ids.map (Key.resource code)).contains e.1.partition) =
        decide (e.1.partition = Key.resource code id) := by
      by_cases hp : e.1.partition = Key.resource code id
      · simp [hp, Key.resource_right_inj, hid]
      · simp [hp]
    rw [Function.comp_apply, hpartition e he]
    exact hcontains
  next hid =>
    rw [List.map_eq_nil_iff, List.filter_eq_nil_iff]
    intro e he
    rw [Function.comp_apply, hpartition e he]
    simp only [Bool.and_eq_true, decide_eq_true_eq, List.contains_iff_mem, List.mem_map, not_and]
    rintro hp ⟨id', hid', hk⟩
    rw [hp, Key.resource_right_inj] at hk
    exact hid (hk ▸ hid')

/-- Of the items that are read in pieces, those of a resource are what is read of it alone. -/
theorem filter_pieces {pieces : List (List String)} (hnodup : pieces.flatten.Nodup) :
    ((pieces.map fun ids => itemsOfAll m (ids.map (Key.resource code))).flatten).filter (isOf code id) =
      if id ∈ pieces.flatten then m.itemsIn (Key.resource code id) else [] := by
  induction pieces with
  | nil => rfl
  | cons ids pieces ih =>
    rw [List.flatten_cons] at hnodup
    obtain ⟨_, hrest, hapart⟩ := List.nodup_append.mp hnodup
    rw [List.map_cons, List.flatten_cons, List.filter_append, filter_itemsOfAll hm, ih hrest,
      List.flatten_cons]
    by_cases hid : id ∈ ids
    · have hnot : id ∉ pieces.flatten := fun h => hapart id hid id h rfl
      rw [if_pos hid, if_neg hnot, if_pos (List.mem_append_left _ hid), List.append_nil]
    · rw [if_neg hid, List.nil_append]
      simp only [List.mem_append, hid, false_or]

end

theorem group_cons (code : String) (items : List Item) (id : String) (ids : List String) :
    group code items (id :: ids) =
      if (items.filter (isOf code id)).isEmpty then
        group code (items.filter fun item => !isOf code id item) ids
      else (id, items.filter (isOf code id)) ::
        group code (items.filter fun item => !isOf code id item) ids := rfl

theorem group_eq (code : String) {ids : List String} (hnodup : ids.Nodup) (items : List Item) :
    group code items ids =
      (ids.map fun id => (id, items.filter (isOf code id))).filter fun g => !g.2.isEmpty := by
  induction ids generalizing items with
  | nil => rfl
  | cons id ids ih =>
    obtain ⟨hnot, hrest⟩ := List.nodup_cons.mp hnodup
    have hothers : ∀ id' ∈ ids, (items.filter fun item => !isOf code id item).filter (isOf code id') =
        items.filter (isOf code id') := by
      intro id' hid'
      rw [List.filter_filter]
      apply List.filter_congr
      intro item _
      cases hof : isOf code id' item with
      | false => rfl
      | true =>
        have hne : ¬ isOf code id item = true := fun h =>
          hnot (((isOf_iff hof).mp h).symm ▸ hid')
        simp [hne]
    have hmap := List.map_congr_left (l := ids)
      (f := fun id' => (id', (items.filter fun item => !isOf code id item).filter (isOf code id')))
      (g := fun id' => (id', items.filter (isOf code id'))) fun id' hid' => by rw [hothers id' hid']
    rw [group_cons, ih hrest, hmap, List.map_cons, List.filter_cons]
    cases (items.filter (isOf code id)).isEmpty <;> rfl

/-- Resources that are read in pieces are what is read of each of them alone, without those that have
no items. -/
theorem group_itemsOf {m : Memory} (hm : m.Keyed) (chunk : Nat) (code : String) {ids : List String}
    (hnodup : ids.Nodup) : ∃ items, itemsOf m chunk code ids = .ok items ∧
      group code items ids = (ids.map fun id => (id, m.itemsIn (Key.resource code id))).filter
        fun g => !g.2.isEmpty := by
  refine ⟨_, itemsOf_eq m chunk code ids, ?_⟩
  have hflatten := flatten_chunks chunk ids
  rw [group_eq code hnodup]
  congr 1
  apply List.map_congr_left
  intro id hid
  rw [filter_pieces hm code id (hflatten.symm ▸ hnodup), hflatten, if_pos hid]

end TagStore.Listing

namespace TagStore

/-- The items of a partition come in the order of their sort keys. -/
theorem Memory.Keyed.itemsIn_ascending {m : Memory} (hm : m.Keyed) (partition : String) :
    (m.itemsIn partition).Pairwise fun a b => ∃ s t, a.text? Attribute.sort = some s ∧
      b.text? Attribute.sort = some t ∧ s < t := by
  have ho := Selection.ordered_partition m.items.sorted partition
    (fun e => e.1.partition = partition) fun _ he => of_decide_eq_true he
  have hsort : ∀ e ∈ m.items.entries.filter fun e => e.1.partition = partition,
      e.2.text? Attribute.sort = some e.1.sort := fun e he =>
    (Item.key_eq_ok_iff.mp (hm e.1 e.2 (SortedMap.mem_entries_iff.mp (List.mem_filter.mp he).1))).2
  apply List.pairwise_map.mpr
  refine List.Pairwise.imp_of_mem (fun {x y} hx hy hxy => ?_) ho
  simp only [Selection.isBeyond, ↓reduceIte, beq_iff_eq, Text.compare_eq_gt_iff] at hxy
  exact ⟨x.1.sort, y.1.sort, hsort x hx, hsort y hy, hxy⟩

/-- Items that are read in pieces, of any size, and then grouped are the items of each resource alone, in
the order of the ids and of the sort keys. -/
theorem Memory.Reached.groups_oneByOne {m : Memory} (hm : m.Reached) (code : String) {ids : List String}
    (hnodup : ids.Nodup) : ∃ found : String → List Item,
      (∀ id, Listing.items m code id = .ok (found id) ∧ (found id).Pairwise fun a b => ∃ s t,
        a.text? Attribute.sort = some s ∧ b.text? Attribute.sort = some t ∧ s < t) ∧
      ∀ chunk, ∃ items, Listing.itemsOf m chunk code ids = .ok items ∧
        Listing.group code items ids =
          (ids.map fun id => (id, found id)).filter fun g => !g.2.isEmpty :=
  ⟨fun id => m.itemsIn (Key.resource code id),
    fun id => ⟨m.listing_items code id, hm.keyed.itemsIn_ascending _⟩,
    fun chunk => Listing.group_itemsOf hm.keyed chunk code hnodup⟩

/-- An id without items is left out, and one with a delimiter in it is not. -/
theorem Memory.Reached.groups_oneByOne_missing :
    let m := (Memory.empty.transact [.put (Tag.item (Key.resource "g" "4") "x" "1") none,
      .put (Tag.item (Key.resource "g" "1:a") "x" "1") none,
      .put (Tag.item (Key.resource "g" "1:a") "y" "2") none]).2
    let ids := ["4", "missing", "1:a"]
    m.Reached ∧ ids.Nodup ∧ ∀ chunk, ∃ items, Listing.itemsOf m chunk "g" ids = .ok items ∧
      (Listing.group "g" items ids).map (fun g => (g.1, g.2.length)) = [("4", 1), ("1:a", 2)] := by
  intro m ids
  have hm : m.Reached := .transact _ .empty
  have hnodup : ids.Nodup := by decide
  obtain ⟨found, hfound, hgroups⟩ := hm.groups_oneByOne "g" hnodup
  have hlengths : ids.map (fun id => (Listing.items m "g" id).toOption.map List.length) =
      [some 1, some 0, some 2] := by decide +kernel
  simp only [ids, List.map_cons, List.map_nil, (hfound _).1, Except.toOption, Option.map_some,
    List.cons.injEq, Option.some.injEq, and_true] at hlengths
  obtain ⟨hfirst, hnone, hlast⟩ := hlengths
  refine ⟨hm, hnodup, fun chunk => ?_⟩
  obtain ⟨items, hitems, hgroup⟩ := hgroups chunk
  refine ⟨items, hitems, ?_⟩
  have hne : ∀ id n, (found id).length = n + 1 → (found id).isEmpty = false := by
    intro id n hn
    cases hf : found id with
    | nil => simp [hf] at hn
    | cons item items => rfl
  rw [hgroup]
  simp [ids, hne "4" 0 hfirst, hne "1:a" 1 hlast, List.length_eq_zero_iff.mp hnone, hfirst, hlast]

end TagStore
