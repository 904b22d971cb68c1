import TagStore.SortedMap

namespace TagStore

namespace Entries
variable {α β : Type} [Ord α]

theorem mem_of_find?_eq [Std.LawfulEqOrd α] {k : α} {v : β} {es : List (α × β)}
    (h : find? k es = some v) : (k, v) ∈ es := by
  induction es with
  | nil => simp [find?] at h
  | cons head rest ih =>
    obtain ⟨k', v'⟩ := head
    rw [find?] at h
    split at h
    next he =>
      cases Std.LawfulEqCmp.compare_eq_iff_eq.1 he
      cases h
      exact List.mem_cons_self
    · exact List.mem_cons_of_mem _ (ih h)

/-- In ascending order no key stands twice, so an entry is what its key is looked up as. -/
theorem find?_eq_some_iff [Std.TransOrd α] [Std.LawfulEqOrd α] {k : α} {v : β}
    {es : List (α × β)} (hs : Sorted es) : find? k es = some v ↔ (k, v) ∈ es := by
  refine ⟨mem_of_find?_eq, fun h => ?_⟩
  induction es with
  | nil => simp at h
  | cons head rest ih =>
    obtain ⟨k', v'⟩ := head
    have hh := List.pairwise_cons.mp hs
    rcases List.mem_cons.mp h with he | hr
    · cases he
      simp [find?]
    · have hlt : compare k' k = .lt := hh.1 _ hr
      have hgt : compare k k' = .gt := Std.OrientedCmp.gt_iff_lt.2 hlt
      simp [find?, hgt, ih hh.2 hr]

end Entries

namespace SortedMap
variable {α β : Type} [Ord α]

theorem mem_entries_iff [Std.TransOrd α] [Std.LawfulEqOrd α] {m : SortedMap α β} {k : α} {v : β} :
    (k, v) ∈ m.entries ↔ m.find? k = some v :=
  (Entries.find?_eq_some_iff m.sorted).symm

theorem mem_keys_iff [Std.TransOrd α] [Std.LawfulEqOrd α] {m : SortedMap α β} {k : α} :
    k ∈ m.keys ↔ ∃ v, m.find? k = some v := by
  simp [keys, ← mem_entries_iff]

theorem mem_values_iff [Std.TransOrd α] [Std.LawfulEqOrd α] {m : SortedMap α β} {v : β} :
    v ∈ m.values ↔ ∃ k, m.find? k = some v := by
  simp [values, ← mem_entries_iff]

theorem contains_eq_false_iff {m : SortedMap α β} {k : α} :
    m.contains k = false ↔ m.find? k = none := by
  simp [contains]

/-- Entries with equal keys are equal. -/
theorem nodup_keys [Std.TransOrd α] (m : SortedMap α β) : m.keys.Nodup := by
  apply List.Pairwise.map Prod.fst _ m.sorted
  intro a b hab he
  simp [he] at hab

theorem nodup_entries [Std.TransOrd α] (m : SortedMap α β) : m.entries.Nodup := by
  apply m.sorted.imp
  intro a b hab he
  simp [he] at hab

section
variable [DecidableEq α] [Std.LawfulEqOrd α]

theorem find?_insert [Std.TransOrd α] (m : SortedMap α β) (k k' : α) (v : β) :
    (m.insert k v).find? k' = if k' = k then some v else m.find? k' := by
  split
  next h => rw [h, find?_insert_self]
  next h => exact find?_insert_of_ne m h v

theorem find?_erase (m : SortedMap α β) (k k' : α) :
    (m.erase k).find? k' = if k' = k then none else m.find? k' := by
  split
  next h => rw [h, find?_erase_self]
  next h => exact find?_erase_of_ne m h

end

section
variable [Std.TransOrd α]

@[simp] theorem insertAll_nil (m : SortedMap α β) : m.insertAll [] = m := rfl

@[simp] theorem insertAll_cons (m : SortedMap α β) (e : α × β) (es : List (α × β)) :
    m.insertAll (e :: es) = (m.insert e.1 e.2).insertAll es := rfl

theorem entries_insertAll (m : SortedMap α β) (es : List (α × β)) :
    (m.insertAll es).entries = es.foldl (fun acc e => Entries.insert e.1 e.2 acc) m.entries := by
  induction es generalizing m with
  | nil => rfl
  | cons e es ih => exact ih (m.insert e.1 e.2)

theorem ofList_eq_insertAll (es : List (α × β)) : ofList es = empty.insertAll es := by
  have h := entries_insertAll (empty : SortedMap α β) es
  cases hm : (empty : SortedMap α β).insertAll es with
  | mk entries sorted =>
    rw [hm] at h
    cases h
    rfl

variable [Std.LawfulEqOrd α]

theorem find?_insertAll_of_ne (m : SortedMap α β) {k : α} {es : List (α × β)}
    (h : ∀ e ∈ es, e.1 ≠ k) : (m.insertAll es).find? k = m.find? k := by
  induction es generalizing m with
  | nil => rfl
  | cons e es ih =>
    rw [insertAll_cons, ih _ fun e he => h e (List.mem_cons_of_mem _ he)]
    exact find?_insert_of_ne m (fun hk => h e List.mem_cons_self hk.symm) e.2

/-- Where all entries for a key agree, it does not matter which one counts. -/
theorem find?_insertAll_of_mem (m : SortedMap α β) {k : α} {v : β} {es : List (α × β)}
    (hm : (k, v) ∈ es) (hu : ∀ w, (k, w) ∈ es → w = v) : (m.insertAll es).find? k = some v := by
  induction es generalizing m with
  | nil => simp at hm
  | cons e es ih =>
    rw [insertAll_cons]
    by_cases hin : ∃ w, (k, w) ∈ es
    · obtain ⟨w, hw⟩ := hin
      have hv := hu w (List.mem_cons_of_mem _ hw)
      exact ih _ (hv ▸ hw) fun w hw => hu w (List.mem_cons_of_mem _ hw)
    · rw [find?_insertAll_of_ne]
      · rcases List.mem_cons.mp hm with rfl | hm
        · exact find?_insert_self m k v
        · exact absurd ⟨v, hm⟩ hin
      · rintro ⟨k', w⟩ he rfl
        exact hin ⟨w, he⟩

omit [Ord α] [Std.TransOrd α] [Std.LawfulEqOrd α] in
theorem snd_eq_of_nodup {es : List (α × β)} (h : (es.map Prod.fst).Nodup) {k : α} {v w : β}
    (hv : (k, v) ∈ es) (hw : (k, w) ∈ es) : v = w := by
  induction es with
  | nil => cases hv
  | cons e es ih =>
    obtain ⟨hnot, hrest⟩ := List.nodup_cons.mp h
    rcases List.mem_cons.mp hv with rfl | hv'
    · rcases List.mem_cons.mp hw with he | hw'
      · exact (Prod.mk.inj he).2.symm
      · exact absurd (List.mem_map.mpr ⟨_, hw', rfl⟩) hnot
    · rcases List.mem_cons.mp hw with rfl | hw'
      · exact absurd (List.mem_map.mpr ⟨_, hv', rfl⟩) hnot
      · exact ih hrest hv' hw'

section
variable {γ : Type} [DecidableEq α] {step : SortedMap α β → α × γ → SortedMap α β} (left : γ → Option β)
  (hstep : ∀ m e k, (step m e).find? k = if k = e.1 then left e.2 else m.find? k)
include hstep

omit [Std.TransOrd α] [Std.LawfulEqOrd α] in
theorem find?_foldl_of_ne (m : SortedMap α β) {es : List (α × γ)} {k : α} (h : k ∉ es.map Prod.fst) :
    (es.foldl step m).find? k = m.find? k := by
  induction es generalizing m with
  | nil => rfl
  | cons e es ih =>
    have hne : k ≠ e.1 := fun he => h (he ▸ List.mem_cons_self)
    rw [List.foldl_cons, ih _ fun hm => h (List.mem_cons_of_mem _ hm), hstep, if_neg hne]

omit [Std.TransOrd α] [Std.LawfulEqOrd α] in
/-- Where no key stands twice, steps leave under a key what the entry for it says. -/
theorem find?_foldl_of_mem (m : SortedMap α β) {es : List (α × γ)} (hes : (es.map Prod.fst).Nodup) {k : α}
    {w : γ} (h : (k, w) ∈ es) : (es.foldl step m).find? k = left w := by
  induction es generalizing m with
  | nil => cases h
  | cons e es ih =>
    obtain ⟨hnot, hes⟩ := List.nodup_cons.mp hes
    rcases List.mem_cons.mp h with rfl | h
    · rw [List.foldl_cons, find?_foldl_of_ne left hstep _ hnot, hstep, if_pos rfl]
    · exact ih _ hes h

/-- Steps that each settle the value of one key, for every entry of a map in turn. -/
theorem find?_foldl_entries (m : SortedMap α β) (n : SortedMap α γ) (k : α) :
    (n.entries.foldl step m).find? k =
      match n.find? k with
      | some w => left w
      | none => m.find? k := by
  cases hk : n.find? k with
  | none =>
    apply find?_foldl_of_ne left hstep
    intro hm
    obtain ⟨w, hw⟩ := mem_keys_iff.mp hm
    rw [hk] at hw
    cases hw
  | some w => exact find?_foldl_of_mem left hstep _ (nodup_keys n) (mem_entries_iff.mpr hk)

end

/-- Where the entries of one map are put into another, they count first. -/
theorem find?_insertAll_entries [DecidableEq α] (m n : SortedMap α β) (k : α) :
    (m.insertAll n.entries).find? k = (n.find? k).or (m.find? k) := by
  refine (find?_foldl_entries some (fun m e k => find?_insert m e.1 k e.2) m n k).trans ?_
  cases n.find? k <;> rfl

/-- Of the entries for a key the last one counts. -/
theorem find?_insertAll_eq [DecidableEq α] (m : SortedMap α β) (es : List (α × β)) (k : α) :
    (m.insertAll es).find? k = ((es.reverse.find? fun e => e.1 = k).map Prod.snd).or (m.find? k) := by
  induction es generalizing m with
  | nil => rfl
  | cons e es ih =>
    rw [insertAll_cons, ih, find?_insert, List.reverse_cons, List.find?_append, Option.map_or,
      Option.or_assoc]
    by_cases h : e.1 = k <;> simp [h, eq_comm (a := k)]

theorem find?_ofList [DecidableEq α] (es : List (α × β)) (k : α) :
    (ofList es).find? k = (es.reverse.find? fun e => e.1 = k).map Prod.snd := by
  rw [ofList_eq_insertAll, find?_insertAll_eq, find?_empty, Option.or_none]

theorem mem_entries_ofList {es : List (α × β)} (hu : ∀ k v w, (k, v) ∈ es → (k, w) ∈ es → w = v)
    (e : α × β) : e ∈ (ofList es).entries ↔ e ∈ es := by
  obtain ⟨k, v⟩ := e
  rw [mem_entries_iff, ofList_eq_insertAll]
  constructor
  · intro h
    by_cases hin : ∃ w, (k, w) ∈ es
    · obtain ⟨w, hw⟩ := hin
      rw [find?_insertAll_of_mem _ hw fun x hx => hu k w x hw hx] at h
      exact Option.some.inj h ▸ hw
    · rw [find?_insertAll_of_ne, find?_empty] at h
      · cases h
      · rintro ⟨k', w⟩ he rfl
        exact hin ⟨w, he⟩
  · intro h
    exact find?_insertAll_of_mem _ h fun w hw => hu k v w h hw

omit [Std.LawfulEqOrd α] in
theorem mem_of_mem_insertAll (m : SortedMap α β) {es : List (α × β)} {e : α × β}
    (h : e ∈ (m.insertAll es).entries) : e ∈ m.entries ∨ e ∈ es := by
  induction es generalizing m with
  | nil => exact .inl h
  | cons d es ih =>
    rcases ih _ h with hm | hes
    · rcases Entries.mem_insert hm with rfl | hm
      · exact .inr List.mem_cons_self
      · exact .inl hm
    · exact .inr (List.mem_cons_of_mem _ hes)

omit [Std.LawfulEqOrd α] in
theorem mem_of_mem_ofList {es : List (α × β)} {e : α × β} (h : e ∈ (ofList es).entries) : e ∈ es := by
  rw [ofList_eq_insertAll] at h
  simpa [empty] using mem_of_mem_insertAll empty h

/-- A map is made of its own entries. -/
theorem ofList_entries (m : SortedMap α β) : ofList m.entries = m := by
  apply ext_find?
  intro k
  apply Option.ext
  intro v
  rw [← mem_entries_iff, ← mem_entries_iff]
  apply mem_entries_ofList
  intro k v w hv hw
  rw [mem_entries_iff] at hv hw
  exact Option.some.inj (hw.symm.trans hv)

theorem find?_filter (m : SortedMap α β) (p : α → β → Bool) (k : α) :
    (m.filter p).find? k = (m.find? k).filter (p k) := by
  apply Option.ext
  intro v
  simp only [← mem_entries_iff, filter, List.mem_filter, Option.filter_eq_some_iff]

end

section
variable {γ : Type}

/-- The map with `f` of each value. -/
def map (f : β → γ) (m : SortedMap α β) : SortedMap α γ :=
  ⟨m.entries.map fun e => (e.1, f e.2), by
    apply List.pairwise_map.mpr
    exact m.sorted⟩

theorem find?_map (f : β → γ) (m : SortedMap α β) (k : α) : (m.map f).find? k = (m.find? k).map f := by
  have hlist : ∀ es : List (α × β),
      Entries.find? k (es.map fun e => (e.1, f e.2)) = (Entries.find? k es).map f := by
    intro es
    induction es with
    | nil => rfl
    | cons e es ih =>
      rw [List.map_cons, Entries.find?, Entries.find?, ih]
      split <;> rfl
  exact hlist m.entries

variable [DecidableEq α] [Std.TransOrd α] [Std.LawfulEqOrd α]

theorem map_insert (f : β → γ) (m : SortedMap α β) (k : α) (v : β) :
    (m.insert k v).map f = (m.map f).insert k (f v) := by
  apply ext_find?
  intro k'
  simp only [find?_map, find?_insert]
  split <;> rfl

theorem map_erase (f : β → γ) (m : SortedMap α β) (k : α) :
    (m.erase k).map f = (m.map f).erase k := by
  apply ext_find?
  intro k'
  simp only [find?_map, find?_erase]
  split <;> rfl

theorem map_ofList (f : β → γ) (es : List (α × β)) :
    (ofList es).map f = ofList (es.map fun e => (e.1, f e.2)) := by
  have hinsert : ∀ m : SortedMap α β,
      (m.insertAll es).map f = (m.map f).insertAll (es.map fun e => (e.1, f e.2)) := by
    induction es with
    | nil => exact fun m => rfl
    | cons e es ih =>
      intro m
      rw [insertAll_cons, ih, map_insert]
      rfl
  rw [ofList_eq_insertAll, ofList_eq_insertAll, hinsert]
  rfl

end

end SortedMap

end TagStore
