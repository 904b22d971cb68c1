import TagStore.Proofs.KeyParts
import TagStore.Proofs.Lookup
import TagStore.Read.Selection

namespace TagStore.Selection
variable {α κ : Type}

section
variable [Ord κ] [Std.TransOrd κ]

theorem not_isBeyond_self (ascending : Bool) (x : κ) : isBeyond ascending (compare x x) = false := by
  cases ascending <;> simp [isBeyond]

theorem isBeyond_trans {ascending : Bool} {x y z : κ} (hxy : isBeyond ascending (compare y x) = true)
    (hyz : isBeyond ascending (compare z y) = true) : isBeyond ascending (compare z x) = true := by
  cases ascending with
  | true =>
    simp only [isBeyond, beq_iff_eq, ↓reduceIte] at hxy hyz ⊢
    exact Std.TransCmp.gt_trans hyz hxy
  | false =>
    simp only [isBeyond, beq_iff_eq, Bool.false_eq_true, ↓reduceIte] at hxy hyz ⊢
    exact Std.TransCmp.lt_trans hyz hxy

theorem isBeyond_asymm {ascending : Bool} {x y : κ} (h : isBeyond ascending (compare y x) = true) :
    isBeyond ascending (compare x y) = false := by
  cases hc : isBeyond ascending (compare x y) with
  | false => rfl
  | true =>
    have hx := isBeyond_trans h hc
    rw [not_isBeyond_self] at hx
    cases hx

/-- Rows whose positions come one beyond the other, in the direction of a read. -/
def Ordered (ascending : Bool) (position : α → κ) (rows : List α) : Prop :=
  rows.Pairwise fun x y => isBeyond ascending (compare (position y) (position x)) = true

/-- What lies beyond a row is what follows it, also among the rows beyond an earlier start. -/
theorem filter_beyond {ascending : Bool} {position : α → κ} {rows : List α}
    (hr : Ordered ascending position rows) {start : Option κ} {a b : List α} {x : α}
    (h : rows.filter (fun y => start.all fun s => isBeyond ascending (compare (position y) s)) =
      a ++ x :: b) :
    rows.filter (fun y => isBeyond ascending (compare (position y) (position x))) = b := by
  have hx : x ∈ rows.filter
      (fun y => start.all fun s => isBeyond ascending (compare (position y) s)) := by simp [h]
  have hkeep := (List.mem_filter.mp hx).2
  have hsub : rows.filter (fun y => isBeyond ascending (compare (position y) (position x))) =
      (a ++ x :: b).filter fun y => isBeyond ascending (compare (position y) (position x)) := by
    rw [← h, List.filter_filter]
    apply List.filter_congr
    intro y _
    cases hy : isBeyond ascending (compare (position y) (position x)) with
    | false => rfl
    | true =>
      cases start with
      | none => rfl
      | some s => simpa using isBeyond_trans hkeep hy
  have ho : Ordered ascending position (a ++ x :: b) := h ▸ List.Pairwise.filter _ hr
  obtain ⟨_, hxb, hax⟩ := List.pairwise_append.mp ho
  rw [hsub, List.filter_append, List.filter_cons, not_isBeyond_self,
    List.filter_eq_nil_iff.mpr, List.filter_eq_self.mpr]
  · rfl
  · exact (List.pairwise_cons.mp hxb).1
  · intro y hy
    simp [isBeyond_asymm (hax y hy x List.mem_cons_self)]

theorem Ordered.directed {position : α → κ} {rows : List α} (h : Ordered true position rows)
    (ascending : Bool) : Ordered ascending position (directed ascending rows) := by
  cases ascending with
  | true => exact h
  | false =>
    apply List.pairwise_reverse.mpr
    apply h.imp
    intro x y hxy
    simp only [isBeyond, beq_iff_eq, ↓reduceIte] at hxy ⊢
    exact Std.OrientedCmp.gt_iff_lt.mp hxy

end

theorem Ordered.filter [Ord κ] {ascending : Bool} {position : α → κ} {rows : List α}
    (h : Ordered ascending position rows) (p : α → Bool) :
    Ordered ascending position (rows.filter p) :=
  List.Pairwise.filter p h

/-- Rows in order differ in whatever tells their positions. -/
theorem Ordered.nodup_map [Ord κ] [Std.TransOrd κ] {β : Type} {ascending : Bool} {position : α → κ}
    {rows : List α} (h : Ordered ascending position rows) (f : α → β)
    (hf : ∀ x ∈ rows, ∀ y ∈ rows, f x = f y → position x = position y) : (rows.map f).Nodup := by
  apply List.pairwise_map.mpr
  apply List.Pairwise.imp_of_mem _ h
  intro x y hx hy hxy he
  rw [hf x hx y hy he, not_isBeyond_self] at hxy
  cases hxy

theorem length_directed (ascending : Bool) (rows : List α) :
    (directed ascending rows).length = rows.length := by
  cases ascending <;> simp [directed]

theorem mem_directed {ascending : Bool} {rows : List α} {x : α} :
    x ∈ directed ascending rows ↔ x ∈ rows := by
  cases ascending <;> simp [directed]

theorem map_directed {β : Type} (f : α → β) (ascending : Bool) (rows : List α) :
    (directed ascending rows).map f = directed ascending (rows.map f) := by
  cases ascending <;> simp [directed]

theorem directed_filter (ascending : Bool) (rows : List α) (p : α → Bool) :
    directed ascending (rows.filter p) = (directed ascending rows).filter p := by
  cases ascending <;> simp [directed, List.filter_reverse]

theorem ordered_entries [Ord κ] [Std.TransOrd κ] {rows : List (κ × α)} (h : Entries.Sorted rows) :
    Ordered true Prod.fst rows := by
  apply h.imp
  intro x y hxy
  simpa [isBeyond] using Std.OrientedCmp.gt_iff_lt.mpr hxy

theorem compare_key_eq (a b : ItemKey) :
    compare a b = (compare a.partition b.partition).then (compare a.sort b.sort) := rfl

/-- Within one partition keys are ordered by their sort keys. -/
theorem compare_of_partition_eq {x y : ItemKey} (h : x.partition = y.partition) :
    compare x y = compare x.sort y.sort := by
  rw [compare_key_eq]
  simp [h]

theorem ordered_partition {rows : List (ItemKey × α)} (h : Entries.Sorted rows) (partition : String)
    (p : ItemKey × α → Bool) (hp : ∀ r, p r = true → r.1.partition = partition) :
    Ordered true (fun r => r.1.sort) (rows.filter p) := by
  apply List.Pairwise.imp_of_mem _ (List.Pairwise.filter p h)
  intro x y hx hy hxy
  have he := (hp x (List.mem_filter.mp hx).2).trans (hp y (List.mem_filter.mp hy).2).symm
  rw [compare_of_partition_eq he] at hxy
  simpa [isBeyond] using Std.OrientedCmp.gt_iff_lt.mpr hxy

/-- What a read finds, with the positions to go on from, is what lies beyond its start. -/
theorem map_filter_beyond [Ord κ] [Std.TransOrd κ] {ρ : Type} {ascending : Bool} {position : ρ → κ}
    {rows : List ρ} (hr : Ordered ascending position rows) (mark : ρ → StartKey × α)
    {start : Option κ} {a b : List (StartKey × α)} {k : StartKey} {row : α}
    (h : (rows.filter fun y => start.all fun s => isBeyond ascending (compare (position y) s)).map
      mark = a ++ (k, row) :: b) :
    ∃ x, mark x = (k, row) ∧
      (rows.filter fun y => isBeyond ascending (compare (position y) (position x))).map mark = b := by
  obtain ⟨a', b', he, _, hb⟩ := List.map_eq_append_iff.mp h
  obtain ⟨x, b', rfl, hk, rfl⟩ := List.map_eq_cons_iff.mp hb
  exact ⟨x, hk, congrArg _ (filter_beyond hr he)⟩

section
variable {places : Places α} {rows : List (ItemKey × α)}

theorem select_partition (start : Option StartKey) (partition stem : String) (ascending : Bool) :
    select places rows start (.partition partition stem ascending) =
      ((directed ascending (rows.filter fun r =>
        r.1.partition = partition && Text.beginsWith r.1.sort stem)).filter fun r =>
          (start.map StartKey.sort).all fun s => isBeyond ascending (compare r.1.sort s)).map
        fun r => (ofKey r.1, r.2) := by
  rw [select, ← directed_filter, List.filter_filter]
  congr 2
  apply List.filter_congr
  intro r _
  cases start <;> simp [Bool.and_comm]

theorem directed_true (rows : List α) : directed true rows = rows := rfl

theorem directed_false (rows : List α) : directed false rows = rows.reverse := rfl

theorem select_index (start : Option StartKey) (index : Index) (hash stem : String)
    (ascending : Bool) :
    select places rows start (.index index hash stem ascending) =
      ((directed ascending (indexed places index hash stem rows).entries).filter fun r =>
          (startPlace? start).all fun s => isBeyond ascending (compare r.1 s)).map
        fun r => (⟨r.1.key.partition, r.1.key.sort, some ⟨hash, r.1.range⟩⟩, r.2) := by
  rw [select, ← directed_filter]

theorem select_partitions (start : Option StartKey) (partitions : List String) :
    select places rows start (.partitions partitions) =
      ((rows.filter fun r => partitions.contains r.1.partition).filter fun r =>
          (start.map fun s => (⟨s.partition, s.sort⟩ : ItemKey)).all fun s =>
            isBeyond true (compare r.1 s)).map
        fun r => (ofKey r.1, r.2) := by
  rw [select, List.filter_filter]
  congr 1
  apply List.filter_congr
  intro r _
  cases start <;> simp [Bool.and_comm]

/-- Reading on after any row that was found gives exactly the rows that follow it. -/
theorem select_after (hrows : Entries.Sorted rows) {start : Option StartKey} {range : Range}
    {a b : List (StartKey × α)} {k : StartKey} {row : α}
    (h : select places rows start range = a ++ (k, row) :: b) :
    select places rows (some k) range = b := by
  cases range with
  | partition partition stem ascending =>
    rw [select_partition] at h ⊢
    have ho := (ordered_partition hrows partition
      (fun r => r.1.partition = partition && Text.beginsWith r.1.sort stem)
      (by simp +contextual)).directed ascending
    obtain ⟨x, hx, hb⟩ := map_filter_beyond ho _ h
    cases hx
    exact hb
  | index index hash stem ascending =>
    rw [select_index] at h ⊢
    have ho := (ordered_entries (indexed places index hash stem rows).sorted).directed
      ascending
    obtain ⟨x, hx, hb⟩ := map_filter_beyond ho _ h
    cases hx
    exact hb
  | partitions partitions =>
    rw [select_partitions] at h ⊢
    obtain ⟨x, hx, hb⟩ := map_filter_beyond (List.Pairwise.filter _ (ordered_entries hrows)) _ h
    cases hx
    exact hb

/-- A row at its place, if that is among those of a hash. -/
def placed? (places : Places α) (index : Index) (hash stem : String) (row : ItemKey × α) :
    Option (Place × α) :=
  match places index row.1 row.2 with
  | some (h, r) => if h = hash ∧ Text.beginsWith r stem then some (⟨r, row.1⟩, row.2) else none
  | none => none

theorem placed?_eq_some_iff {index : Index} {hash stem : String} {e : ItemKey × α} {place : Place}
    {row : α} : placed? places index hash stem e = some (place, row) ↔
      e = (place.key, row) ∧ places index place.key row = some (hash, place.range) ∧
        Text.beginsWith place.range stem = true := by
  unfold placed?
  constructor
  · intro h
    split at h
    next h' range hp =>
      split at h
      next hc =>
        cases h
        exact ⟨rfl, by rw [hp, hc.1], hc.2⟩
      · cases h
    · cases h
  · rintro ⟨rfl, hp, hb⟩
    rw [hp]
    exact if_pos ⟨rfl, hb⟩

theorem mem_indexed (hrows : Entries.Sorted rows) {index : Index} {hash stem : String}
    {place : Place} {row : α} :
    (place, row) ∈ (indexed places index hash stem rows).entries ↔
      (place.key, row) ∈ rows ∧ places index place.key row = some (hash, place.range) ∧
        Text.beginsWith place.range stem = true := by
  have hf : ∀ p r, (p, r) ∈ rows.filterMap (placed? places index hash stem) ↔
      (p.key, r) ∈ rows ∧ places index p.key r = some (hash, p.range) ∧
        Text.beginsWith p.range stem = true := by
    intro p r
    rw [List.mem_filterMap]
    constructor
    · rintro ⟨e, hm, he⟩
      obtain ⟨rfl, hplace⟩ := placed?_eq_some_iff.mp he
      exact ⟨hm, hplace⟩
    · rintro ⟨hm, hplace⟩
      exact ⟨(p.key, r), hm, placed?_eq_some_iff.mpr ⟨rfl, hplace⟩⟩
  have hindexed : indexed places index hash stem rows =
      .ofList (rows.filterMap (placed? places index hash stem)) := rfl
  rw [hindexed, SortedMap.mem_entries_ofList]
  · exact hf place row
  · intro p v w hv hw
    have hv := ((hf p v).mp hv).1
    have hw := ((hf p w).mp hw).1
    rw [← Entries.find?_eq_some_iff hrows] at hv hw
    exact Option.some.inj (hw.symm.trans hv)

/-- An index holds no row twice. -/
theorem length_indexed_le (hrows : Entries.Sorted rows) (index : Index) (hash stem : String) :
    (indexed places index hash stem rows).entries.length ≤ rows.length := by
  have hkeys : ((indexed places index hash stem rows).entries.map fun e =>
      (e.1.key, e.2)).Nodup := by
    apply List.pairwise_map.mpr
    apply List.Pairwise.imp_of_mem _ (SortedMap.nodup_entries _)
    rintro ⟨⟨range, key⟩, row⟩ ⟨⟨range', key'⟩, row'⟩ hx hy hne he
    obtain ⟨rfl, rfl⟩ := Prod.mk.inj he
    have hx := ((mem_indexed hrows).mp hx).2.1
    have hy := ((mem_indexed hrows).mp hy).2.1
    dsimp only at hx hy
    rw [hx, Option.some.injEq, Prod.mk.injEq] at hy
    exact hne (by rw [hy.2])
  have hsub : ((indexed places index hash stem rows).entries.map fun e =>
      (e.1.key, e.2)) ⊆ rows := by
    intro e he
    obtain ⟨⟨place, row⟩, hm, rfl⟩ := List.mem_map.mp he
    exact ((mem_indexed hrows).mp hm).1
  simpa using hkeys.length_le_of_subset hsub

end

theorem compare_eq (p q : Place) :
    compare p q = (compare p.range q.range).then (compare p.key q.key) := rfl

/-- Places in order are in the order of their ranges, and those with one range in that of their keys. -/
theorem lt_or_of_compare {code a b : String} {k k' : ItemKey}
    (h : compare (⟨Key.resource code a, k⟩ : Place) ⟨Key.resource code b, k'⟩ = .lt) :
    a < b ∨ a = b ∧ compare k k' = .lt := by
  rw [compare_eq, Key.compare_resource] at h
  cases hab : compare a b with
  | lt => exact .inl (Text.compare_eq_lt_iff.mp hab)
  | eq =>
    rw [hab] at h
    exact .inr ⟨Std.LawfulEqCmp.compare_eq_iff_eq.mp hab, h⟩
  | gt =>
    rw [hab] at h
    cases h

end TagStore.Selection
