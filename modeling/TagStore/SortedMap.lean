namespace TagStore

namespace Entries
variable {α β : Type} [Ord α]

def find? (k : α) : List (α × β) → Option β
  | [] => none
  | (k', v) :: rest => if compare k k' = .eq then some v else find? k rest

/-- Puts the entry at its place and replaces an entry with an equal key. -/
def insert (k : α) (v : β) : List (α × β) → List (α × β)
  | [] => [(k, v)]
  | (k', v') :: rest =>
    match compare k k' with
    | .lt => (k, v) :: (k', v') :: rest
    | .eq => (k, v) :: rest
    | .gt => (k', v') :: insert k v rest

def erase (k : α) (es : List (α × β)) : List (α × β) :=
  es.filter fun e => compare k e.1 != .eq

/-- Later entries win over earlier ones with the same key. -/
def ofList (es : List (α × β)) : List (α × β) :=
  es.foldl (fun acc e => insert e.1 e.2 acc) []

def Sorted (es : List (α × β)) : Prop :=
  es.Pairwise fun a b => compare a.1 b.1 = .lt

theorem mem_insert {k : α} {v : β} {es : List (α × β)} {e : α × β} (h : e ∈ insert k v es) :
    e = (k, v) ∨ e ∈ es := by
  induction es with
  | nil => simpa [insert] using h
  | cons head rest ih =>
    obtain ⟨k', v'⟩ := head
    rw [insert] at h
    split at h
    · simpa using h
    · rcases List.mem_cons.1 h with h | h
      · exact .inl h
      · exact .inr (List.mem_cons_of_mem _ h)
    · rcases List.mem_cons.1 h with h | h
      · exact .inr (h ▸ List.mem_cons_self ..)
      · exact (ih h).imp id (List.mem_cons_of_mem _)

theorem sorted_insert [Std.TransOrd α] {k : α} {v : β} {es : List (α × β)} (h : Sorted es) :
    Sorted (insert k v es) := by
  induction es with
  | nil => simp [insert, Sorted]
  | cons head rest ih =>
    obtain ⟨k', v'⟩ := head
    have hrest : Sorted rest := (List.pairwise_cons.1 h).2
    have hhead : ∀ e ∈ rest, compare k' e.1 = .lt := (List.pairwise_cons.1 h).1
    rw [insert]
    split
    next hlt =>
      refine List.pairwise_cons.2 ⟨fun e he => ?_, h⟩
      rcases List.mem_cons.1 he with rfl | he
      · exact hlt
      · exact Std.TransCmp.lt_trans hlt (hhead e he)
    next heq =>
      refine List.pairwise_cons.2 ⟨fun e he => ?_, hrest⟩
      exact Std.TransCmp.lt_of_eq_of_lt heq (hhead e he)
    next hgt =>
      refine List.pairwise_cons.2 ⟨fun e he => ?_, ih hrest⟩
      rcases mem_insert he with rfl | he
      · exact Std.OrientedCmp.gt_iff_lt.1 hgt
      · exact hhead e he

theorem sorted_erase {k : α} {es : List (α × β)} (h : Sorted es) : Sorted (erase k es) :=
  List.Pairwise.filter _ h

theorem sorted_foldl_insert [Std.TransOrd α] {new es : List (α × β)} (h : Sorted es) :
    Sorted (new.foldl (fun acc e => insert e.1 e.2 acc) es) := by
  induction new generalizing es with
  | nil => exact h
  | cons e rest ih => exact ih (sorted_insert h)

theorem sorted_ofList [Std.TransOrd α] (es : List (α × β)) : Sorted (ofList es) :=
  sorted_foldl_insert List.Pairwise.nil

theorem find?_insert_self [Std.ReflOrd α] (k : α) (v : β) (es : List (α × β)) :
    find? k (insert k v es) = some v := by
  induction es with
  | nil => simp [insert, find?]
  | cons head rest ih =>
    obtain ⟨k', v'⟩ := head
    rw [insert]
    split
    · simp [find?]
    · simp [find?]
    next hgt => simp [find?, hgt, ih]

theorem find?_insert_of_ne [Std.LawfulEqOrd α] {k k' : α} (h : k' ≠ k) (v : β) (es : List (α × β)) :
    find? k' (insert k v es) = find? k' es := by
  have hne : compare k' k ≠ .eq := fun he => h (Std.LawfulEqCmp.compare_eq_iff_eq.1 he)
  induction es with
  | nil => simp [insert, find?, hne]
  | cons head rest ih =>
    obtain ⟨k'', v''⟩ := head
    rw [insert]
    split
    · simp [find?, hne]
    next heq =>
      have : k = k'' := Std.LawfulEqCmp.compare_eq_iff_eq.1 heq
      subst this
      simp [find?, hne]
    · simp [find?, ih]

theorem find?_erase_self (k : α) (es : List (α × β)) : find? k (erase k es) = none := by
  induction es with
  | nil => rfl
  | cons head rest ih =>
    by_cases h : compare k head.1 = .eq
    · simpa [erase, h] using ih
    · simp only [erase] at ih
      simp [erase, h, find?, ih]

theorem find?_erase_of_ne [Std.LawfulEqOrd α] {k k' : α} (h : k' ≠ k) (es : List (α × β)) :
    find? k' (erase k es) = find? k' es := by
  induction es with
  | nil => rfl
  | cons head rest ih =>
    simp only [erase] at ih
    by_cases hk : compare k head.1 = .eq
    · have he : k = head.1 := Std.LawfulEqCmp.compare_eq_iff_eq.1 hk
      have hne : compare k' head.1 ≠ .eq := fun hc =>
        h ((Std.LawfulEqCmp.compare_eq_iff_eq.1 hc).trans he.symm)
      simp [erase, hk, find?, hne, ih]
    · simp [erase, hk, find?, ih]

theorem find?_eq_none_of_lt {k : α} (es : List (α × β))
    (h : ∀ e ∈ es, compare k e.1 = .lt) : find? k es = none := by
  induction es with
  | nil => rfl
  | cons head rest ih =>
    have hk := h head (List.mem_cons_self ..)
    simp [find?, hk, ih fun e he => h e (List.mem_cons_of_mem _ he)]

theorem eq_of_find?_eq [Std.TransOrd α] [Std.LawfulEqOrd α] {es fs : List (α × β)}
    (hs : Sorted es) (ht : Sorted fs) (h : ∀ k, find? k es = find? k fs) : es = fs := by
  induction es generalizing fs with
  | nil =>
    cases fs with
    | nil => rfl
    | cons f fs => have := h f.1; simp [find?] at this
  | cons e es ih =>
    cases fs with
    | nil => have := h e.1; simp [find?] at this
    | cons f fs =>
      have he := List.pairwise_cons.1 hs
      have hf := List.pairwise_cons.1 ht
      have key : compare e.1 f.1 = .eq := by
        cases hc : compare e.1 f.1 with
        | eq => rfl
        | lt =>
          have := h e.1
          rw [find?_eq_none_of_lt (f :: fs)] at this
          · simp [find?] at this
          · intro g hg
            rcases List.mem_cons.1 hg with rfl | hg
            · exact hc
            · exact Std.TransCmp.lt_trans hc (hf.1 g hg)
        | gt =>
          have hlt := Std.OrientedCmp.gt_iff_lt.1 hc
          have := h f.1
          rw [find?_eq_none_of_lt (e :: es)] at this
          · simp [find?] at this
          · intro g hg
            rcases List.mem_cons.1 hg with rfl | hg
            · exact hlt
            · exact Std.TransCmp.lt_trans hlt (he.1 g hg)
      obtain ⟨k, v⟩ := e
      obtain ⟨k', w⟩ := f
      have hk : k = k' := Std.LawfulEqCmp.compare_eq_iff_eq.1 key
      subst hk
      have hv : v = w := by have := h k; simpa [find?] using this
      subst hv
      refine congrArg _ (ih he.2 hf.2 fun x => ?_)
      by_cases hx : compare x k = .eq
      · have : x = k := Std.LawfulEqCmp.compare_eq_iff_eq.1 hx
        subst this
        rw [find?_eq_none_of_lt es he.1, find?_eq_none_of_lt fs hf.1]
      · have := h x
        simpa [find?, hx] using this

end Entries

/-- A finite map as a list of entries in ascending key order. All operations keep the order, so that a
map is told by its look-ups (`ext_find?`). -/
structure SortedMap (α β : Type) [Ord α] where
  entries : List (α × β)
  sorted : Entries.Sorted entries

namespace SortedMap
variable {α β : Type} [Ord α]

instance [DecidableEq α] [DecidableEq β] : DecidableEq (SortedMap α β) := fun a b =>
  decidable_of_iff (a.entries = b.entries) (by cases a; cases b; simp)

instance : Inhabited (SortedMap α β) := ⟨⟨[], List.Pairwise.nil⟩⟩

def empty : SortedMap α β := ⟨[], List.Pairwise.nil⟩

def find? (m : SortedMap α β) (k : α) : Option β := Entries.find? k m.entries

def contains (m : SortedMap α β) (k : α) : Bool := (m.find? k).isSome

def size (m : SortedMap α β) : Nat := m.entries.length

def isEmpty (m : SortedMap α β) : Bool := m.entries.isEmpty

def keys (m : SortedMap α β) : List α := m.entries.map Prod.fst

def values (m : SortedMap α β) : List β := m.entries.map Prod.snd

def erase (m : SortedMap α β) (k : α) : SortedMap α β :=
  ⟨Entries.erase k m.entries, Entries.sorted_erase m.sorted⟩

def filter (m : SortedMap α β) (p : α → β → Bool) : SortedMap α β :=
  ⟨m.entries.filter fun e => p e.1 e.2, List.Pairwise.filter _ m.sorted⟩

def insert [Std.TransOrd α] (m : SortedMap α β) (k : α) (v : β) : SortedMap α β :=
  ⟨Entries.insert k v m.entries, Entries.sorted_insert m.sorted⟩

/-- Later entries win over earlier ones with the same key. -/
def ofList [Std.TransOrd α] (es : List (α × β)) : SortedMap α β :=
  ⟨Entries.ofList es, Entries.sorted_ofList es⟩

/-- Adds every entry in turn. -/
def insertAll [Std.TransOrd α] (m : SortedMap α β) (es : List (α × β)) : SortedMap α β :=
  es.foldl (fun acc e => acc.insert e.1 e.2) m

@[simp] theorem find?_empty (k : α) : (empty : SortedMap α β).find? k = none := rfl

@[simp] theorem find?_erase_self (m : SortedMap α β) (k : α) : (m.erase k).find? k = none :=
  Entries.find?_erase_self k m.entries

theorem find?_erase_of_ne [Std.LawfulEqOrd α] (m : SortedMap α β) {k k' : α} (h : k' ≠ k) :
    (m.erase k).find? k' = m.find? k' :=
  Entries.find?_erase_of_ne h m.entries

@[simp] theorem find?_insert_self [Std.TransOrd α] (m : SortedMap α β) (k : α) (v : β) :
    (m.insert k v).find? k = some v :=
  Entries.find?_insert_self k v m.entries

theorem find?_insert_of_ne [Std.TransOrd α] [Std.LawfulEqOrd α] (m : SortedMap α β) {k k' : α}
    (h : k' ≠ k) (v : β) : (m.insert k v).find? k' = m.find? k' :=
  Entries.find?_insert_of_ne h v m.entries

/-- Two maps with the same look-ups are equal. -/
theorem ext_find? [Std.TransOrd α] [Std.LawfulEqOrd α] {m n : SortedMap α β}
    (h : ∀ k, m.find? k = n.find? k) : m = n := by
  obtain ⟨es, hs⟩ := m
  obtain ⟨fs, ht⟩ := n
  have := Entries.eq_of_find?_eq hs ht h
  subst this
  rfl

end SortedMap

end TagStore
