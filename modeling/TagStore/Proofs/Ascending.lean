import TagStore.Proofs.KeyParts
import TagStore.Tag.Search

namespace TagStore.Tag

/-- Ascending lists with the same members are equal. -/
theorem ascending_ext {xs ys : List String} (hx : xs.Pairwise (· < ·)) (hy : ys.Pairwise (· < ·))
    (h : ∀ a, a ∈ xs ↔ a ∈ ys) : xs = ys := by
  induction xs generalizing ys with
  | nil => exact (List.eq_nil_iff_forall_not_mem.mpr fun a ha => by simpa using (h a).mpr ha).symm
  | cons x xs ih =>
    obtain ⟨hxs, hx'⟩ := List.pairwise_cons.mp hx
    cases ys with
    | nil => simpa using (h x).mp List.mem_cons_self
    | cons y ys =>
      obtain ⟨hys, hy'⟩ := List.pairwise_cons.mp hy
      have hxy : x = y := by
        rcases List.mem_cons.mp ((h x).mp List.mem_cons_self) with he | hm
        · exact he
        · rcases List.mem_cons.mp ((h y).mpr List.mem_cons_self) with he | hm'
          · exact he.symm
          · exact absurd (hxs y hm') (String.lt_asymm (hys x hm))
      subst hxy
      congr 1
      apply ih hx' hy'
      intro a
      constructor
      · intro ha
        rcases List.mem_cons.mp ((h a).mp (List.mem_cons_of_mem _ ha)) with he | hm
        · exact absurd (hxs a ha) (he ▸ String.lt_irrefl x)
        · exact hm
      · intro ha
        rcases List.mem_cons.mp ((h a).mpr (List.mem_cons_of_mem _ ha)) with he | hm
        · exact absurd (hys a ha) (he ▸ String.lt_irrefl x)
        · exact hm

theorem filter_gt_eq_self {n : String} {xs : List String} (h : ∀ x ∈ xs, n < x) :
    xs.filter (n < ·) = xs :=
  List.filter_eq_self.mpr fun x hx => decide_eq_true (h x hx)

/-- What lies beyond the last of some first ids is what follows them. -/
theorem filter_gt_of_getLast? {a b : List String} {n : String} (h : (a ++ b).Pairwise (· < ·))
    (hn : a.getLast? = some n) : (a ++ b).filter (n < ·) = b := by
  obtain ⟨a, rfl⟩ := List.getLast?_eq_some_iff.mp hn
  obtain ⟨ha, _, hab⟩ := List.pairwise_append.mp h
  have hlow : (a ++ [n]).filter (n < ·) = [] := by
    apply List.filter_eq_nil_iff.mpr
    intro x hx
    rw [decide_eq_true_eq]
    rcases List.mem_append.mp hx with hx | hx
    · exact String.lt_asymm ((List.pairwise_append.mp ha).2.2 x hx n List.mem_cons_self)
    · rw [List.mem_singleton] at hx
      exact hx ▸ String.lt_irrefl n
  rw [List.filter_append, hlow, List.nil_append,
    filter_gt_eq_self fun x hx => hab n (by simp) x hx]

theorem le_getLast? {a : List String} {n x : String} (h : a.Pairwise (· < ·))
    (hn : a.getLast? = some n) (hx : x ∈ a) : ¬ n < x := by
  obtain ⟨a, rfl⟩ := List.getLast?_eq_some_iff.mp hn
  rcases List.mem_append.mp hx with hx | hx
  · exact String.lt_asymm ((List.pairwise_append.mp h).2.2 x hx n List.mem_cons_self)
  · rw [List.mem_singleton] at hx
    exact hx ▸ String.lt_irrefl n

/-- Some ids, ascending, are those that all of some lists hold. -/
def Common (lists : List (List String)) (ids : List String) : Prop :=
  ids.Pairwise (· < ·) ∧ ∀ x, x ∈ ids ↔ ∀ l ∈ lists, x ∈ l

theorem Common.filter {lists : List (List String)} {ids : List String} (h : Common lists ids)
    (hne : lists ≠ []) (n : String) :
    Common (lists.map (List.filter (n < ·))) (ids.filter (n < ·)) := by
  refine ⟨h.1.filter _, fun x => ?_⟩
  simp only [List.mem_filter, List.forall_mem_map, h.2, decide_eq_true_eq]
  constructor
  · exact fun ⟨hx, hn⟩ l hl => ⟨hx l hl, hn⟩
  · intro hx
    obtain ⟨l, hl⟩ := List.exists_mem_of_ne_nil _ hne
    exact ⟨fun l hl => (hx l hl).1, (hx l hl).2⟩

/-- A least element of some ascending ids comes first, and the others lie beyond it. -/
theorem eq_cons_of_least {ids : List String} {n : String} (h : ids.Pairwise (· < ·)) (hn : n ∈ ids)
    (hle : ∀ x ∈ ids, ¬ x < n) : ids = n :: ids.filter (n < ·) := by
  obtain ⟨x, rest, rfl⟩ := List.exists_cons_of_ne_nil (List.ne_nil_of_mem hn)
  have hbeyond := (List.pairwise_cons.mp h).1
  rcases List.mem_cons.mp hn with rfl | hm
  · rw [List.filter_cons, if_neg (mt of_decide_eq_true (String.lt_irrefl _)), filter_gt_eq_self hbeyond]
  · exact absurd (hbeyond n hm) (hle x List.mem_cons_self)

theorem filter_gt_of_not_mem {ids : List String} {n : String} (hn : n ∉ ids)
    (hle : ∀ x ∈ ids, ¬ x < n) : ids.filter (n < ·) = ids := by
  apply filter_gt_eq_self
  intro x hx
  rcases Text.lt_or_eq_or_gt n x with h | rfl | h
  · exact h
  · exact absurd hx hn
  · exact absurd h (hle x hx)

theorem least_spec (id : String) (ids : List String) :
    least id ids ∈ id :: ids ∧ ∀ x ∈ id :: ids, ¬ x < least id ids := by
  induction ids generalizing id with
  | nil => exact ⟨List.mem_singleton_self id, fun x hx => List.mem_singleton.mp hx ▸ String.lt_irrefl _⟩
  | cons y ids ih =>
    have hl : least id (y :: ids) = least (if y < id then y else id) ids := rfl
    rw [hl]
    by_cases hy : y < id
    · rw [if_pos hy]
      obtain ⟨hm, hle⟩ := ih y
      refine ⟨List.mem_cons_of_mem _ hm, fun x hx hlt => ?_⟩
      rcases List.mem_cons.mp hx with rfl | hx
      · exact hle y List.mem_cons_self (String.lt_trans hy hlt)
      · exact hle x hx hlt
    · rw [if_neg hy]
      obtain ⟨hm, hle⟩ := ih id
      have hid := hle id List.mem_cons_self
      constructor
      · rcases List.mem_cons.mp hm with he | hm
        · rw [he]
          exact List.mem_cons_self
        · exact List.mem_cons_of_mem _ (List.mem_cons_of_mem _ hm)
      · intro x hx hlt
        rcases List.mem_cons.mp hx with rfl | hx
        · exact hid hlt
        rcases List.mem_cons.mp hx with rfl | hx
        · rcases Text.lt_or_eq_or_gt id x with hlt' | rfl | hgt
          · exact hid (String.lt_trans hlt' hlt)
          · exact hid hlt
          · exact hy hgt
        · exact hle x (List.mem_cons_of_mem _ hx) hlt

end TagStore.Tag
