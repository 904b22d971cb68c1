import TagStore.Error

namespace TagStore
variable {α : Type}

/-- The pages that come up when tokens are followed until there is none. The page function is told how
many pages came before, so that each page may be asked for with a size of its own. -/
inductive Follows (page : Nat → Option String → Except Error (List α × Option String)) :
    Nat → Option String → List (List α) → Prop where
  | last {i : Nat} {token : Option String} {items : List α} (h : page i token = .ok (items, none)) :
    Follows page i token [items]
  | more {i : Nat} {token : Option String} {next : String} {items : List α} {pages : List (List α)}
    (h : page i token = .ok (items, some next)) (hrest : Follows page (i + 1) (some next) pages) :
    Follows page i token (items :: pages)

/-- How a page function answers where some items are still to come: with the first of them, and with a
token for the others unless there is none. -/
def Deals (page : Nat → Option String → Except Error (List α × Option String)) (size : Nat → Nat)
    (toCome : Option String → List α → Prop) : Prop :=
  ∀ i token items, toCome token items →
    (page i token = .ok (items.take (size i), none) ∧ items.length ≤ size i) ∨
      ∃ next, page i token = .ok (items.take (size i), some next) ∧ items ≠ [] ∧
        toCome (some next) (items.drop (size i))

variable {page : Nat → Option String → Except Error (List α × Option String)} {size : Nat → Nat}
  {toCome : Option String → List α → Prop}

/-- Tokens can be followed to the end. -/
theorem Deals.follows (h : Deals page size toCome) (hsize : ∀ i, 0 < size i) {items : List α} (i : Nat)
    {token : Option String} (hitems : toCome token items) : ∃ pages, Follows page i token pages := by
  generalize hn : items.length = n
  induction n using Nat.strongRecOn generalizing i token items with
  | ind n ih =>
    rcases h i token items hitems with ⟨hp, _⟩ | ⟨next, hp, hne, hrest⟩
    · exact ⟨_, .last hp⟩
    · have hless : (items.drop (size i)).length < n := by
        have hpos := List.length_pos_iff.mpr hne
        have hi := hsize i
        rw [List.length_drop]
        omega
      obtain ⟨pages, hpages⟩ := ih _ hless (i + 1) hrest rfl
      exact ⟨_, .more hp hpages⟩

/-- The pages hold what is to come, each item once and in order. -/
theorem Deals.flatten_eq (h : Deals page size toCome) {items : List α} {i : Nat} {token : Option String}
    (hitems : toCome token items) {pages : List (List α)} (hp : Follows page i token pages) :
    pages.flatten = items := by
  induction hp generalizing items with
  | @last i token shown hshown =>
    rcases h i token items hitems with ⟨hp, hlen⟩ | ⟨next, hp, _⟩
    · rw [hshown, Except.ok.injEq, Prod.mk.injEq] at hp
      simp [hp.1, List.take_of_length_le hlen]
    · rw [hshown] at hp
      cases hp
  | @more i token next shown pages hshown _ ih =>
    rcases h i token items hitems with ⟨hp, _⟩ | ⟨next', hp, _, hrest⟩
    · rw [hshown] at hp
      cases hp
    · rw [hshown, Except.ok.injEq, Prod.mk.injEq, Option.some.injEq] at hp
      obtain ⟨rfl, rfl⟩ := hp
      rw [List.flatten_cons, ih hrest, List.take_append_drop]

/-- No page is larger than it was asked to be. -/
theorem Deals.length_le (h : Deals page size toCome) {n : Nat} (hn : ∀ i, size i ≤ n)
    {items : List α} {i : Nat} {token : Option String} (hitems : toCome token items)
    {pages : List (List α)} (hp : Follows page i token pages) : ∀ shown ∈ pages, shown.length ≤ n := by
  have htake : ∀ (i : Nat) (items : List α), (items.take (size i)).length ≤ n := by
    intro i items
    have hi := hn i
    rw [List.length_take]
    omega
  induction hp generalizing items with
  | @last i token shown hshown =>
    intro s hs
    rw [List.mem_singleton] at hs
    rcases h i token items hitems with ⟨hp, _⟩ | ⟨next, hp, _⟩
    · rw [hshown, Except.ok.injEq, Prod.mk.injEq] at hp
      rw [hs, hp.1]
      exact htake i items
    · rw [hshown] at hp
      cases hp
  | @more i token next shown pages hshown _ ih =>
    intro s hs
    rcases h i token items hitems with ⟨hp, _⟩ | ⟨next', hp, _, hrest⟩
    · rw [hshown] at hp
      cases hp
    · rw [hshown, Except.ok.injEq, Prod.mk.injEq, Option.some.injEq] at hp
      obtain ⟨rfl, rfl⟩ := hp
      rcases List.mem_cons.mp hs with rfl | hs
      · exact htake i items
      · exact ih hrest s hs

/-- What is made of the items of each page is dealt out like them. -/
theorem Deals.map {β : Type} {f : α → β}
    {page' : Nat → Option String → Except Error (List β × Option String)} (h : Deals page size toCome)
    (hpage : ∀ i token items next, toCome token items → page i token = .ok (items.take (size i), next) →
      page' i token = .ok ((items.take (size i)).map f, next)) :
    Deals page' size fun token made => ∃ items, toCome token items ∧ made = items.map f := by
  rintro i token _ ⟨items, hitems, rfl⟩
  rw [← List.map_take, List.length_map]
  rcases h i token items hitems with ⟨hp, hlen⟩ | ⟨next, hp, hne, hrest⟩
  · exact .inl ⟨hpage i token items none hitems hp, hlen⟩
  · refine .inr ⟨next, hpage i token items (some next) hitems hp, ?_, _, hrest, ?_⟩
    · rwa [ne_eq, List.map_eq_nil_iff]
    · rw [List.map_drop]

end TagStore
