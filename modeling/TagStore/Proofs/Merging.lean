import TagStore.Proofs.Ascending
import TagStore.Proofs.TagStream

namespace TagStore.Tag

namespace Cursor

/-- The ids that a cursor has yet to pass, of the owners of its tag. -/
def pending (owners : String × String → List String) (c : Cursor) : List String :=
  match c.next with
  | none => c.unread
  | some n => c.unread ++ (owners c.tag).filter (n < ·)

/-- A cursor stands between the owners it has passed, all that was found among them, and those it has
yet to pass; the id it goes on after is the last one it has read. -/
def Stands (owners : String × String → List String) (found : List String) (c : Cursor) : Prop :=
  ∃ passed, owners c.tag = passed ++ c.pending owners ∧ (∀ x ∈ found, x ∈ passed) ∧
    ∀ n, c.next = some n → (passed ++ c.unread).getLast? = some n

variable {owners : String × String → List String} {found : List String}

theorem stands_ofFound {tag : String × String} (hs : (owners tag).Pairwise (· < ·))
    {passed rest : List String} (h : owners tag = passed ++ rest) (hf : ∀ x ∈ found, x ∈ passed)
    {count : Nat} (hc : 0 < count) :
    (ofFound tag (Found.first count rest)).pending owners = rest ∧
      Stands owners found (ofFound tag (Found.first count rest)) := by
  have hlast : ∀ n, (ofFound tag (Found.first count rest)).next = some n →
      (passed ++ rest.take count).getLast? = some n ∧
        (owners tag).filter (n < ·) = rest.drop count := by
    intro n hn
    simp only [ofFound, Found.first] at hn
    split at hn
    · have hl : (passed ++ rest.take count).getLast? = some n := by
        rw [List.getLast?_append, hn]
        rfl
      refine ⟨hl, ?_⟩
      rw [h, ← List.take_append_drop count rest, ← List.append_assoc] at hs ⊢
      rw [filter_gt_of_getLast? hs hl, List.take_append_drop]
    · cases hn
  have hp : (ofFound tag (Found.first count rest)).pending owners = rest := by
    unfold pending
    split
    next hn =>
      simp only [ofFound, Found.first] at hn ⊢
      split at hn
      next hle =>
        rw [List.getLast?_eq_none_iff, List.take_eq_nil_iff] at hn
        rcases hn with hn | hn
        · omega
        · simp [hn]
      next hle => exact List.take_of_length_le (by omega)
    next n hn =>
      have hd := (hlast n hn).2
      simp only [ofFound, Found.first] at hd ⊢
      rw [hd, List.take_append_drop]
  exact ⟨hp, passed, by rw [hp]; exact h, hf, fun n hn => (hlast n hn).1⟩

/-- The id to go on after is never below the last id that was found, so that it is not overridden. -/
theorem resume_eq {c : Cursor} (hs : (owners c.tag).Pairwise (· < ·)) (h : c.Stands owners found)
    (hu : c.unread = []) {n : String} (hn : c.next = some n) : resume found.getLast? n = n := by
  obtain ⟨passed, hp, hf, hl⟩ := h
  have hl := hl n hn
  rw [hu, List.append_nil] at hl
  unfold resume
  split
  next m hm =>
    have hm := hf m (List.mem_of_getLast? hm)
    rw [hp] at hs
    exact if_neg (le_getLast? (List.pairwise_append.mp hs).1 hl hm)
  · rfl

section
variable {m : Memory} {code : String} {after : Option String}

/-- The owners of a tag beyond the start of a search, which later pages of the search go through. -/
def Owners (m : Memory) (code : String) (after : Option String)
    (owners : String × String → List String) (tag : String × String) : Prop :=
  (owners tag).Pairwise (· < ·) ∧
    (∀ id, id ∈ owners tag ↔ (∀ a ∈ after, a < id) ∧ Carries m code [tag] id) ∧
    ∀ n ∈ owners tag, ∀ count, 0 < count →
      search m code count tag (some n) = .ok (Found.first count ((owners tag).filter (n < ·)))

/-- The search for a tag goes through some ids in order: after one of them it finds the first of those
beyond it. -/
def Paged (m : Memory) (code : String) (tag : String × String) (ids : List String) : Prop :=
  ids.Pairwise (· < ·) ∧ ∀ n ∈ ids, ∀ count, 0 < count →
    search m code count tag (some n) = .ok (Found.first count (ids.filter (n < ·)))

theorem Owners.paged {tag : String × String} (h : Owners m code after owners tag) :
    Paged m code tag (owners tag) := ⟨h.1, h.2.2⟩

/-- A refill leaves a cursor where it stands, with an id to come, unless it has none left. -/
theorem refill?_eq {c : Cursor} (ho : Paged m code c.tag (owners c.tag))
    (h : c.Stands owners found) {count : Nat} (hc : 0 < count) :
    (c.pending owners = [] ∧ refill? m code count found.getLast? c = .ok none) ∨
      ∃ c', refill? m code count found.getLast? c = .ok (some c') ∧ c'.tag = c.tag ∧
        c'.pending owners = c.pending owners ∧ c'.Stands owners found ∧ c'.unread ≠ [] := by
  cases hu : c.unread with
  | cons x rest => exact .inr ⟨c, by simp [refill?, hu], rfl, rfl, h, by simp [hu]⟩
  | nil =>
    cases hn : c.next with
    | none => exact .inl ⟨by simp [pending, hn, hu], by simp [refill?, hn, hu]⟩
    | some n =>
      have hp : c.pending owners = (owners c.tag).filter (n < ·) := by simp [pending, hn, hu]
      have hr := resume_eq ho.1 h hu hn
      obtain ⟨passed, hw, hf, hl⟩ := h
      have hl := hl n hn
      rw [hu, List.append_nil] at hl
      have hmem : n ∈ owners c.tag := by
        rw [hw]
        exact List.mem_append_left _ (List.mem_of_getLast? hl)
      have hsearch := ho.2 n hmem count hc
      rw [← hp] at hsearch
      have hstand := stands_ofFound ho.1 hw hf hc
      have hrefill : refill? m code count found.getLast? c =
          .ok (if (Found.first count (c.pending owners)).ids.isEmpty then none
            else some (ofFound c.tag (Found.first count (c.pending owners)))) := by
        rw [refill?, hu, hn]
        simp only [hr, hsearch, bind, Except.bind, pure, Except.pure]
      rw [hrefill]
      by_cases he : c.pending owners = []
      · exact .inl ⟨he, by simp [he, Found.first]⟩
      · have hne : (Found.first count (c.pending owners)).ids ≠ [] := by
          simp only [Found.first, ne_eq, List.take_eq_nil_iff, he, or_false]
          omega
        exact .inr ⟨ofFound c.tag (Found.first count (c.pending owners)), by simp [hne], rfl,
          hstand.1, hstand.2, hne⟩

/-- Either some tag has no owner left, or all cursors are refilled where they stand. -/
theorem refillAll?_eq {cs : List Cursor} (ho : ∀ c ∈ cs, Paged m code c.tag (owners c.tag))
    (h : ∀ c ∈ cs, c.Stands owners found) {count : Nat} (hc : 0 < count) :
    ((∃ c ∈ cs, c.pending owners = []) ∧ refillAll? m code count found.getLast? cs = .ok none) ∨
      ∃ cs', refillAll? m code count found.getLast? cs = .ok (some cs') ∧
        cs'.map Cursor.tag = cs.map Cursor.tag ∧
        cs'.map (pending owners) = cs.map (pending owners) ∧
        ∀ c ∈ cs', c.Stands owners found ∧ c.unread ≠ [] := by
  induction cs with
  | nil => exact .inr ⟨[], rfl, rfl, rfl, by simp⟩
  | cons c cs ih =>
    rcases refill?_eq (ho c List.mem_cons_self) (h c List.mem_cons_self) hc with
      ⟨he, hr⟩ | ⟨c', hr, ht, hp, hs, hu⟩
    · refine .inl ⟨⟨c, List.mem_cons_self, he⟩, ?_⟩
      simp [refillAll?, hr, bind, Except.bind, pure, Except.pure]
    · rcases ih (fun c hc => ho c (List.mem_cons_of_mem _ hc))
        (fun c hc => h c (List.mem_cons_of_mem _ hc)) with ⟨⟨d, hd, he⟩, hrs⟩ | ⟨cs', hrs, hts, hps, hss⟩
      · refine .inl ⟨⟨d, List.mem_cons_of_mem _ hd, he⟩, ?_⟩
        simp [refillAll?, hr, hrs, bind, Except.bind, pure, Except.pure]
      · refine .inr ⟨c' :: cs', ?_, by simp [ht, hts], by simp [hp, hps], ?_⟩
        · simp [refillAll?, hr, hrs, bind, Except.bind, pure, Except.pure]
        · intro d hd
          rcases List.mem_cons.mp hd with rfl | hd
          · exact ⟨hs, hu⟩
          · exact hss d hd

end

/-- Passing the least of the next ids leaves what lies beyond it. -/
theorem pass_stands {c : Cursor} (hs : (owners c.tag).Pairwise (· < ·))
    (h : c.Stands owners found) {id head : String} {rest : List String}
    (hu : c.unread = head :: rest) (hle : ¬ head < id) :
    (c.pass id).tag = c.tag ∧ (c.pass id).pending owners = (c.pending owners).filter (id < ·) ∧
      (c.pass id).Stands owners found ∧
      (head = id → (c.pass id).Stands owners (found ++ [id])) := by
  obtain ⟨passed, hw, hf, hl⟩ := h
  obtain ⟨more, hmore⟩ : ∃ more, c.pending owners = head :: more := by
    unfold pending
    split <;> simp [hu]
  have hasc : (head :: more).Pairwise (· < ·) := by
    rw [hw, hmore] at hs
    exact (List.pairwise_append.mp hs).2.1
  have hbeyond := (List.pairwise_cons.mp hasc).1
  by_cases he : head = id
  · have hpass : c.pass id = { c with unread := rest } := by simp [pass, hu, he]
    have hp : (c.pass id).pending owners = more := by
      rw [hpass]
      unfold pending at hmore ⊢
      split at hmore <;> simp_all
    have hstand : (c.pass id).Stands owners (found ++ [id]) := by
      refine ⟨passed ++ [head], ?_, ?_, ?_⟩
      · rw [hp, hpass, hw, hmore]
        simp
      · intro x hx
        rcases List.mem_append.mp hx with hx | hx
        · exact List.mem_append_left _ (hf x hx)
        · rw [he]
          exact List.mem_append_right _ hx
      · intro n hn
        rw [hpass] at hn ⊢
        have := hl n hn
        simpa [hu] using this
    refine ⟨by rw [hpass], ?_, ?_, fun _ => hstand⟩
    · rw [hp, hmore, List.filter_cons, if_neg (mt of_decide_eq_true (he ▸ String.lt_irrefl _)),
        filter_gt_eq_self (he ▸ hbeyond)]
    · obtain ⟨passed', h1, h2, h3⟩ := hstand
      exact ⟨passed', h1, fun x hx => h2 x (List.mem_append_left _ hx), h3⟩
  · have hpass : c.pass id = c := by simp [pass, hu, he]
    have hgt : id < head := by
      rcases Text.lt_or_eq_or_gt id head with h | h | h
      · exact h
      · exact absurd h.symm he
      · exact absurd h hle
    rw [hpass]
    refine ⟨rfl, ?_, ⟨passed, hw, hf, hl⟩, fun h => absurd h he⟩
    rw [hmore, filter_gt_eq_self]
    intro x hx
    rcases List.mem_cons.mp hx with rfl | hx
    · exact hgt
    · exact String.lt_trans hgt (hbeyond x hx)

/-- The next id of a cursor is the least of those that it has yet to pass. -/
theorem head_least {c : Cursor} (hs : (owners c.tag).Pairwise (· < ·)) (h : c.Stands owners found)
    {head : String} {rest : List String} (hu : c.unread = head :: rest) :
    head ∈ c.pending owners ∧ ∀ x ∈ c.pending owners, ¬ x < head := by
  obtain ⟨passed, hw, _, _⟩ := h
  obtain ⟨more, hmore⟩ : ∃ more, c.pending owners = head :: more := by
    unfold pending
    split <;> simp [hu]
  rw [hw, hmore] at hs
  rw [hmore]
  refine ⟨List.mem_cons_self, fun x hx => ?_⟩
  rcases List.mem_cons.mp hx with rfl | hx
  · exact String.lt_irrefl x
  · exact String.lt_asymm ((List.pairwise_cons.mp (List.pairwise_append.mp hs).2.1).1 x hx)

/-- No id to come lies below one that the next id does not lie below. -/
theorem not_lt_of_mem_pending {c : Cursor} (hs : (owners c.tag).Pairwise (· < ·))
    (h : c.Stands owners found) {id head : String} {rest : List String} (hu : c.unread = head :: rest)
    (hle : ¬ head < id) {x : String} (hx : x ∈ c.pending owners) : ¬ x < id := by
  intro hlt
  have hhead := (head_least hs h hu).2 x hx
  rcases Text.lt_or_eq_or_gt x head with h1 | rfl | h1
  · exact hhead h1
  · exact hle hlt
  · exact hle (String.lt_trans h1 hlt)

theorem mem_pending_iff_head {c : Cursor} (hs : (owners c.tag).Pairwise (· < ·))
    (h : c.Stands owners found) {id head : String} {rest : List String} (hu : c.unread = head :: rest)
    (hle : ¬ head < id) : id ∈ c.pending owners ↔ head = id := by
  constructor
  · intro hid
    rcases Text.lt_or_eq_or_gt head id with h1 | h1 | h1
    · exact absurd h1 hle
    · exact h1
    · exact absurd h1 ((head_least hs h hu).2 id hid)
  · rintro rfl
    exact (head_least hs h hu).1

theorem mem_heads {cs : List Cursor} {x : String} :
    x ∈ heads cs ↔ ∃ c ∈ cs, ∃ rest, c.unread = x :: rest := by
  simp only [heads, List.mem_filterMap, List.head?_eq_some_iff]

end Cursor

namespace Merge
variable {owners : String × String → List String}

/-- Whether a merge passes an id: the least that is to come for some cursor, which it finds if it is to
come for all. -/
structure Passes (owners : String × String → List String) (id : String) (m m' : Merge) : Prop where
  some : ∃ c ∈ m.cursors, id ∈ c.pending owners
  least : ∀ c ∈ m.cursors, ∀ x ∈ c.pending owners, ¬ x < id
  tags : m'.cursors.map Cursor.tag = m.cursors.map Cursor.tag
  pending : m'.cursors.map (Cursor.pending owners) =
    (m.cursors.map (Cursor.pending owners)).map (List.filter (id < ·))
  stands : ∀ c ∈ m'.cursors, c.Stands owners m'.found
  found : (m'.found = m.found ++ [id] ∧ ∀ c ∈ m.cursors, id ∈ c.pending owners) ∨
    m'.found = m.found ∧ ∃ c ∈ m.cursors, id ∉ c.pending owners

/-- A round in which every cursor has an id to come passes one. -/
theorem advance_passes {m : Merge} (ho : ∀ c ∈ m.cursors, (owners c.tag).Pairwise (· < ·))
    (h : ∀ c ∈ m.cursors, c.Stands owners m.found ∧ c.unread ≠ []) (hne : m.cursors ≠ []) :
    ∃ id, Passes owners id m m.advance := by
  have hheads : ∀ c ∈ m.cursors, ∃ head rest, c.unread = head :: rest ∧ head ∈ Cursor.heads m.cursors := by
    intro c hc
    obtain ⟨head, rest, hu⟩ := List.exists_cons_of_ne_nil (h c hc).2
    exact ⟨head, rest, hu, Cursor.mem_heads.mpr ⟨c, hc, rest, hu⟩⟩
  obtain ⟨x, ids, hx⟩ : ∃ x ids, Cursor.heads m.cursors = x :: ids := by
    obtain ⟨c, hc⟩ := List.exists_mem_of_ne_nil _ hne
    obtain ⟨_, _, _, hm⟩ := hheads c hc
    exact List.exists_cons_of_ne_nil (List.ne_nil_of_mem hm)
  obtain ⟨hin, hle⟩ := least_spec x ids
  have hadv : m.advance = ⟨m.cursors.map (Cursor.pass (least x ids)),
      if (x :: ids).all (· = least x ids) then m.found ++ [least x ids] else m.found⟩ := by
    rw [advance, hx]
  rw [← hx] at hin hle hadv
  generalize least x ids = id at hin hle hadv
  have hmem : ∀ c ∈ m.cursors, ∃ head ∈ Cursor.heads m.cursors, (id ∈ c.pending owners ↔ head = id) := by
    intro c hc
    obtain ⟨head, rest, hu, hm⟩ := hheads c hc
    exact ⟨head, hm, Cursor.mem_pending_iff_head (ho c hc) (h c hc).1 hu (hle head hm)⟩
  have hpass : ∀ c ∈ m.cursors, ∃ head ∈ Cursor.heads m.cursors,
      (c.pass id).tag = c.tag ∧ (c.pass id).pending owners = (c.pending owners).filter (id < ·) ∧
      (c.pass id).Stands owners m.found ∧
      (head = id → (c.pass id).Stands owners (m.found ++ [id])) := by
    intro c hc
    obtain ⟨head, rest, hu, hm⟩ := hheads c hc
    exact ⟨head, hm, Cursor.pass_stands (ho c hc) (h c hc).1 hu (hle head hm)⟩
  refine ⟨id, ?_, fun c hc y hy => ?_, ?_, ?_, fun d hd => ?_, ?_⟩
  · obtain ⟨c, hc, rest, hu⟩ := Cursor.mem_heads.mp hin
    exact ⟨c, hc, (Cursor.head_least (ho c hc) (h c hc).1 hu).1⟩
  · obtain ⟨head, rest, hu, hm⟩ := hheads c hc
    exact Cursor.not_lt_of_mem_pending (ho c hc) (h c hc).1 hu (hle head hm) hy
  · rw [hadv, List.map_map]
    apply List.map_congr_left
    intro c hc
    obtain ⟨_, _, htag, _⟩ := hpass c hc
    exact htag
  · rw [hadv, List.map_map, List.map_map]
    apply List.map_congr_left
    intro c hc
    obtain ⟨_, _, _, hpending, _⟩ := hpass c hc
    exact hpending
  · rw [hadv] at hd ⊢
    obtain ⟨c, hc, rfl⟩ := List.mem_map.mp hd
    obtain ⟨head, hm, _, _, hs, hs'⟩ := hpass c hc
    dsimp only
    split
    next hall => exact hs' (of_decide_eq_true (List.all_eq_true.mp hall head hm))
    next hall => exact hs
  · rw [hadv]
    by_cases hall : (Cursor.heads m.cursors).all (· = id)
    · refine .inl ⟨if_pos hall, fun c hc => ?_⟩
      obtain ⟨head, hm, hiff⟩ := hmem c hc
      exact hiff.mpr (of_decide_eq_true (List.all_eq_true.mp hall head hm))
    · refine .inr ⟨if_neg hall, ?_⟩
      obtain ⟨y, hy, hyid⟩ : ∃ y ∈ Cursor.heads m.cursors, y ≠ id := by
        simpa using hall
      obtain ⟨c, hc, rest, hu⟩ := Cursor.mem_heads.mp hy
      refine ⟨c, hc, fun hid => hyid ?_⟩
      exact (Cursor.mem_pending_iff_head (ho c hc) (h c hc).1 hu (hle y hy)).mp hid

namespace Passes
variable {id : String} {m m' : Merge} (h : Passes owners id m m')
include h

theorem length_lt : (m'.cursors.map (Cursor.pending owners)).flatten.length <
    (m.cursors.map (Cursor.pending owners)).flatten.length := by
  obtain ⟨c, hc, hid⟩ := h.some
  rw [h.pending, ← List.filter_flatten]
  apply List.length_filter_lt_length_iff_exists.mpr
  exact ⟨id, List.mem_flatten.mpr ⟨_, List.mem_map.mpr ⟨c, hc, rfl⟩, hid⟩,
    mt of_decide_eq_true (String.lt_irrefl _)⟩

variable {todo : List String} (ht : Common (m.cursors.map (Cursor.pending owners)) todo)
include ht

theorem common : Common (m'.cursors.map (Cursor.pending owners)) (todo.filter (id < ·)) := by
  obtain ⟨c, hc, _⟩ := h.some
  rw [h.pending]
  exact ht.filter (mt List.map_eq_nil_iff.mp (List.ne_nil_of_mem hc)) id

/-- The page comes out the same whether or not an id has been passed. -/
theorem page_eq {count : Nat} (hfull : m.found.length < count) :
    m'.found ++ (todo.filter (id < ·)).take (count - m'.found.length) =
      m.found ++ todo.take (count - m.found.length) := by
  obtain ⟨c, hc, _⟩ := h.some
  have hbelow : ∀ x ∈ todo, ¬ x < id := fun x hx =>
    h.least c hc x ((ht.2 x).mp hx _ (List.mem_map.mpr ⟨c, hc, rfl⟩))
  rcases h.found with ⟨hfound, hall⟩ | ⟨hfound, d, hd, hdid⟩
  · have hid : id ∈ todo := (ht.2 id).mpr (List.forall_mem_map.mpr hall)
    have hlen : count - m.found.length = (count - (m.found ++ [id]).length) + 1 := by
      simp only [List.length_append, List.length_singleton]
      omega
    conv => rhs; rw [eq_cons_of_least ht.1 hid hbelow, hlen, List.take_succ_cons]
    rw [hfound]
    simp
  · have hid : id ∉ todo := fun hid =>
      hdid ((ht.2 id).mp hid _ (List.mem_map.mpr ⟨d, hd, rfl⟩))
    rw [hfound, filter_gt_of_not_mem hid hbelow]

end Passes

theorem forall_tag_of_map_eq {cs cs' : List Cursor} (h : cs'.map Cursor.tag = cs.map Cursor.tag)
    {p : String × String → Prop} (hp : ∀ c ∈ cs, p c.tag) : ∀ c ∈ cs', p c.tag := by
  intro c hc
  obtain ⟨d, hd, hdt⟩ := List.mem_map.mp (h ▸ List.mem_map.mpr ⟨c, hc, rfl⟩)
  exact hdt ▸ hp d hd

theorem ne_nil_of_map_eq {cs cs' : List Cursor} (h : cs'.map Cursor.tag = cs.map Cursor.tag)
    (hne : cs ≠ []) : cs' ≠ [] := by
  rintro rfl
  exact hne (List.map_eq_nil_iff.mp h.symm)

variable {m : Memory} {code : String} {after : Option String}

/-- A merge that ends by itself within some rounds. -/
def Ends {σ : Type} [Store σ] (s : σ) (code : String) (count : Nat) : (rounds : Nat) → Merge → Prop
  | 0, _ => False
  | rounds + 1, m =>
    m.step? s code count = .ok none ∨
      ∃ m', m.step? s code count = .ok (some m') ∧ Ends s code count rounds m'

variable (owners after) in
/-- A merge finds what is to come for all its cursors, in order, up to the size of a page. Each of its
rounds passes an id, so that it ends within as many rounds as ids are to come for some cursor. -/
theorem run_eq {count : Nat} (hc : 0 < count) (rounds : Nat) (cs : List Cursor)
    (found todo : List String) (hne : cs ≠ [])
    (ho : ∀ c ∈ cs, Cursor.Owners m code after owners c.tag)
    (hs : ∀ c ∈ cs, c.Stands owners found)
    (ht : Common (cs.map (Cursor.pending owners)) todo)
    (hr : (cs.map (Cursor.pending owners)).flatten.length < rounds) :
    run m code count rounds ⟨cs, found⟩ = .ok (found ++ todo.take (count - found.length)) ∧
      Ends m code count rounds ⟨cs, found⟩ := by
  induction rounds generalizing cs found todo with
  | zero => omega
  | succ rounds ih =>
    by_cases hfull : count ≤ found.length
    · have h0 : count - found.length = 0 := by omega
      simp [run, Ends, step?, hfull, h0, bind, Except.bind, pure, Except.pure]
    rcases Cursor.refillAll?_eq (fun c hmem => (ho c hmem).paged) hs hc with
      ⟨⟨c, hmem, hempty⟩, href⟩ | ⟨cs', href, htag, hpend, hs'⟩
    · -- a cursor without ids to come leaves none that all have
      have htodo : todo = [] := by
        apply List.eq_nil_iff_forall_not_mem.mpr
        intro x hx
        have hxc := (ht.2 x).mp hx _ (List.mem_map.mpr ⟨c, hmem, rfl⟩)
        simp [hempty] at hxc
      simp [run, Ends, step?, hfull, href, htodo, bind, Except.bind, pure, Except.pure]
    have hrun : run m code count (rounds + 1) ⟨cs, found⟩ =
        run m code count rounds (advance ⟨cs', found⟩) := by
      simp [run, step?, hfull, href, bind, Except.bind, pure, Except.pure]
    have hends : Ends m code count (rounds + 1) ⟨cs, found⟩ ↔
        Ends m code count rounds (advance ⟨cs', found⟩) := by
      simp [Ends, step?, hfull, href, bind, Except.bind, pure, Except.pure]
    have htags : ∀ c ∈ cs', Cursor.Owners m code after owners c.tag := forall_tag_of_map_eq htag ho
    have hne' := ne_nil_of_map_eq htag hne
    rw [hrun, hends]
    rw [← hpend] at ht hr
    obtain ⟨id, hpasses⟩ :=
      @advance_passes owners ⟨cs', found⟩ (fun c hc => (htags c hc).1) hs' hne'
    have hless := Nat.lt_of_lt_of_le hpasses.length_lt (Nat.le_of_lt_succ hr)
    obtain ⟨hrest, hend⟩ := ih _ _ _ (ne_nil_of_map_eq hpasses.tags hne')
      (forall_tag_of_map_eq hpasses.tags htags) hpasses.stands (hpasses.common ht) hless
    exact ⟨hrest.trans (congrArg _ (hpasses.page_eq ht (Nat.lt_of_not_le hfull))), hend⟩

end Merge

end TagStore.Tag
