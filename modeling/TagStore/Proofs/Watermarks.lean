import Mathlib.Logic.Relation
import TagStore.Proofs.Intersection

namespace TagStore.Tag

/-- Whether the index of tag values holds an item of a resource under a tag. -/
def Indexed (m : Memory) (code : String) (tag : String × String) (id : String) : Prop :=
  ∃ key item, m.items.find? key = some item ∧
    item.text? Attribute.tagIndex = some (Key.tagIndex tag.1 tag.2) ∧
    item.text? Attribute.partition = some (Key.resource code id)

section
variable {m : Memory} (hm : m.Keyed) (ht : Only m)
include hm ht

/-- A tag is searched by its index key: another tag with the same key finds the same. -/
theorem rows_eq_of_tagIndex_eq {plain tag : String × String}
    (hn : Key.hasDelimiter plain.1 = false)
    (he : Key.tagIndex plain.1 plain.2 = Key.tagIndex tag.1 tag.2)
    (code : String) (count : Nat) (after : Option String) :
    m.rows (valueRead code tag.1 tag.2 count after) =
      m.rows (valueRead code plain.1 plain.2 count after) := by
  simp only [valueRead, Memory.rows_index, startPlace?_startAfter, Selection.directed_true, he]
  congr 1
  apply List.filter_congr
  intro e hmem
  obtain ⟨p, row⟩ := e
  cases after with
  | none => rfl
  | some a =>
    rw [← he, mem_indexed_tagValue hm ht hn] at hmem
    obtain ⟨id, rfl, _⟩ := hmem
    -- the places of one resource differ in the names alone, and the start is not the lesser one
    have hnot := Key.not_tagSort_lt hn he
    rw [← Text.compare_eq_gt_iff] at hnot
    simp only [Option.map_some, Option.all_some, place, key, Selection.compare_eq,
      Selection.compare_key_eq, Key.compare_resource, Selection.isBeyond, if_true]
    cases compare id a <;> simp [hnot]

theorem indexed_iff_carries {plain tag : String × String} (hn : Key.hasDelimiter plain.1 = false)
    (he : Key.tagIndex plain.1 plain.2 = Key.tagIndex tag.1 tag.2) {code id : String} :
    Indexed m code tag id ↔ Carries m code [plain] id := by
  constructor
  · intro h
    obtain ⟨key, row, hf, hi, hp⟩ := h
    obtain ⟨owner, rfl, rfl⟩ := ht.exists_owner hm hn hf (he ▸ hi)
    rw [text?_item_partition, Option.some.injEq] at hp
    subst hp
    simpa [Carries] using hf
  · intro h
    exact ⟨_, _, h plain List.mem_cons_self, by simp [he], by simp⟩

end

/-- A read of a tag that is not in the index finds nothing. -/
theorem rows_eq_nil {m : Memory} {tag : String × String}
    (h : ∀ key row, m.items.find? key = some row →
      row.text? Attribute.tagIndex ≠ some (Key.tagIndex tag.1 tag.2))
    (code : String) (count : Nat) (after : Option String) :
    m.rows (valueRead code tag.1 tag.2 count after) = [] := by
  rw [List.eq_nil_iff_forall_not_mem]
  intro x hx
  obtain ⟨key, _, hfind, hhash, _⟩ := Memory.of_mem_rows_index hx
  exact h key x.2 hfind hhash

/-- A tag, however it is named, is either in the index as one that is named without a delimiter or not
in it at all. -/
theorem plain_or_absent {m : Memory} (ht : Only m) (tag : String × String) :
    (∃ plain : String × String, Key.hasDelimiter plain.1 = false ∧
      Key.tagIndex plain.1 plain.2 = Key.tagIndex tag.1 tag.2) ∨
    ∀ key row, m.items.find? key = some row →
      row.text? Attribute.tagIndex ≠ some (Key.tagIndex tag.1 tag.2) := by
  by_cases h : ∃ key row, m.items.find? key = some row ∧
      row.text? Attribute.tagIndex = some (Key.tagIndex tag.1 tag.2)
  · obtain ⟨key, row, hf, hi⟩ := h
    obtain ⟨owner, name, value, hn, rfl⟩ := ht key row hf (by simp [hi])
    rw [text?_item_tagIndex, Option.some.injEq] at hi
    exact .inl ⟨(name, value), hn, hi⟩
  · exact .inr fun key row hf hi => h ⟨key, row, hf, hi⟩

section
variable {m : Memory} (hm : m.Keyed) (ht : Only m) {code : String}
  (hc : Key.hasDelimiter code = false) (tag : String × String) (after : Option String)
include hm ht hc

/-- The search for a tag, however it is named, finds the first of its owners. -/
theorem search_first {count : Nat} (hcount : 0 < count) :
    search m code count tag after = .ok (Found.first count (owners m code after tag)) := by
  rcases plain_or_absent ht tag with ⟨plain, hn, he⟩ | habsent
  · have hrows := rows_eq_of_tagIndex_eq hm ht hn he
    have hsearch := search_eq hm ht hc hn after hcount
    rw [search_rows m code plain after hcount] at hsearch
    rw [search_rows m code tag after hcount, owners, hrows, hrows, hsearch, owners]
  · have hnone := ofIds_take count []
    rw [List.take_nil] at hnone
    rw [search_rows m code tag after hcount, owners, rows_eq_nil habsent, rows_eq_nil habsent]
    simp [Listing.ids, hnone]

theorem paged_owners : Cursor.Paged m code tag (owners m code after tag) := by
  rcases plain_or_absent ht tag with ⟨plain, hn, he⟩ | habsent
  · have heq : ∀ start, owners m code start tag = owners m code start plain := by
      intro start
      rw [owners, owners, rows_eq_of_tagIndex_eq hm ht hn he]
    have hpaged := (owners_spec hm ht hc after hn).paged
    rw [heq after]
    refine ⟨hpaged.1, fun n hmem count hcount => ?_⟩
    rw [search_first hm ht hc tag (some n) hcount, heq, ← hpaged.2 n hmem count hcount,
      search_first hm ht hc plain (some n) hcount]
  · rw [owners, rows_eq_nil habsent]
    exact ⟨List.Pairwise.nil, fun n hmem => absurd hmem List.not_mem_nil⟩

theorem mem_owners_iff {id : String} :
    id ∈ owners m code after tag ↔ (∀ a ∈ after, a < id) ∧ Indexed m code tag id := by
  rcases plain_or_absent ht tag with ⟨plain, hn, he⟩ | habsent
  · rw [owners, rows_eq_of_tagIndex_eq hm ht hn he, indexed_iff_carries hm ht hn he]
    exact mem_owners hm ht hc hn after
  · have hnone : ¬ Indexed m code tag id := by
      intro h
      obtain ⟨key, row, hf, hi, _⟩ := h
      exact habsent key row hf hi
    rw [owners, rows_eq_nil habsent]
    simp [Listing.ids, hnone]

end

namespace Cursor

/-- What a cursor has yet to read, of the owners of its tag. -/
def beyond (owners : String × String → List String) (c : Cursor) : List String :=
  match c.next with
  | none => []
  | some n => (owners c.tag).filter (n < ·)

theorem pending_eq (owners : String × String → List String) (c : Cursor) :
    c.pending owners = c.unread ++ c.beyond owners := by
  rw [pending, beyond]
  cases c.next <;> simp

theorem pass_eq (id : String) (c : Cursor) :
    ∃ rest, c.pass id = { c with unread := rest } ∧ rest <:+ c.unread := by
  obtain ⟨tag, unread, next⟩ := c
  cases unread with
  | nil => exact ⟨[], rfl, List.suffix_rfl⟩
  | cons x rest =>
    by_cases h : x = id
    · exact ⟨rest, by simp [pass, h], List.suffix_cons x rest⟩
    · exact ⟨x :: rest, by simp [pass, h], List.suffix_rfl⟩

theorem unread_ne_nil_of_refill? {σ : Type} [Store σ] {s : σ} {code : String} {count : Nat}
    {mark : Option String} {c c' : Cursor} (h : refill? s code count mark c = .ok (some c')) :
    c'.unread ≠ [] := by
  unfold refill? at h
  split at h
  next x rest _ hu =>
    cases h
    simp [hu]
  next => cases h
  next =>
    obtain ⟨found, _, h⟩ := Outcome.bind_eq_ok_iff.mp h
    by_cases he : found.ids.isEmpty
    · simp [he, pure, Except.pure] at h
    · simp only [he, pure, Except.pure, Bool.false_eq_true, if_false, Except.ok.injEq,
        Option.some.injEq] at h
      subst h
      simpa [ofFound] using he

end Cursor

/-- What a merge comes to by some rounds. -/
def Merge.Rounds {σ : Type} [Store σ] (s : σ) (code : String) (count : Nat) : Merge → Merge → Prop :=
  Relation.ReflTransGen fun m m' => m.step? s code count = .ok (some m')

theorem Merge.exists_pass (m : Merge) :
    ∃ id, m.advance.cursors = m.cursors.map (Cursor.pass id) := by
  unfold advance
  split
  next hnone =>
    -- where there is no next id, none is passed
    have hnil : ∀ c ∈ m.cursors, c.pass "" = c := by
      intro c hc
      have hu : c.unread.head? = none := List.filterMap_eq_nil_iff.mp hnone c hc
      simp [Cursor.pass, List.head?_eq_none_iff.mp hu]
    exact ⟨"", ((List.map_congr_left hnil).trans (List.map_id' _)).symm⟩
  next id ids _ => exact ⟨least id ids, rfl⟩

/-- A cursor with the pages that it has read, the newest first. -/
structure Reading where
  cursor : Cursor
  pages : List (List String)

namespace Reading

def ofFound (tag : String × String) (f : Found) : Reading := ⟨Cursor.ofFound tag f, [f.ids]⟩

/-- A refill of a cursor with an id to come reads no page. -/
def refilled (r : Reading) (c : Cursor) : Reading :=
  ⟨c, if r.cursor.unread = [] then c.unread :: r.pages else r.pages⟩

def pass (id : String) (r : Reading) : Reading := { r with cursor := r.cursor.pass id }

@[simp] theorem tag_pass (id : String) (r : Reading) : (r.pass id).cursor.tag = r.cursor.tag := by
  obtain ⟨rest, hpass, _⟩ := Cursor.pass_eq id r.cursor
  rw [pass, hpass]

/-- What a cursor holds while the search has found some ids, of a tag's owners beyond a start. A refill
would go on after the last id that was found, were that the greater one; but no cursor has left an id
behind that it could skip that way. -/
structure Buffered (m : Memory) (code : String) (after : Option String) (found : List String)
    (r : Reading) : Prop where
  /-- The unread ids are the end of an ascending page, and so is the id to go on after. -/
  newest : ∃ page older, r.pages = page :: older ∧ page.Pairwise (· < ·) ∧
    r.cursor.unread <:+ page ∧ ∀ n, r.cursor.next = some n → page.getLast? = some n
  unread_gt : ∀ mark, found.getLast? = some mark → ∀ id ∈ r.cursor.unread, mark < id
  next_ge : ∀ mark, found.getLast? = some mark → ∀ n, r.cursor.next = some n → ¬ n < mark
  resumes : ∀ n, r.cursor.next = some n → Cursor.resume found.getLast? n = n
  /-- No id is read twice. -/
  ascending : r.pages.reverse.flatten.Pairwise (· < ·)
  /-- No id is left out: it is on a page or is yet to be read. -/
  complete : ∀ id, (id ∈ r.pages.flatten ∨
      ∃ n, r.cursor.next = some n ∧ n < id ∧ Indexed m code r.cursor.tag id) ↔
    (∀ a ∈ after, a < id) ∧ Indexed m code r.cursor.tag id

/-- A reading has read the owners of its tag up to the id to go on after, page by page, and its cursor
stands in the newest page. -/
structure Tracks (owners : String × String → List String) (found : List String) (r : Reading) :
    Prop where
  stands : r.cursor.Stands owners found
  read : owners r.cursor.tag = r.pages.reverse.flatten ++ r.cursor.beyond owners
  newest : ∃ page older, r.pages = page :: older ∧ r.cursor.unread <:+ page ∧
    ∀ n, r.cursor.next = some n → page.getLast? = some n

section
variable {owners : String × String → List String} {found : List String}

theorem tracks_ofFound {tag : String × String} (hs : (owners tag).Pairwise (· < ·)) {count : Nat}
    (hc : 0 < count) : (ofFound tag (Found.first count (owners tag))).Tracks owners [] := by
  obtain ⟨hp, hstands⟩ := Cursor.ofFound_start hs hc
  rw [Cursor.pending_eq] at hp
  refine ⟨hstands, by simpa [ofFound, Cursor.ofFound] using hp.symm, _, [], rfl, List.suffix_rfl, ?_⟩
  intro n hn
  simp only [ofFound, Cursor.ofFound, Found.first] at hn ⊢
  split at hn
  next => exact hn
  next => cases hn

namespace Tracks
variable {r : Reading} (h : r.Tracks owners found)
include h

theorem refill {m : Memory} {code : String} {count : Nat} (hcount : 0 < count)
    (ho : Cursor.Paged m code r.cursor.tag (owners r.cursor.tag)) {c : Cursor}
    (hr : Cursor.refill? m code count found.getLast? r.cursor = .ok (some c)) :
    c.tag = r.cursor.tag ∧ (r.refilled c).Tracks owners found := by
  rcases Cursor.refill?_eq ho h.stands hcount with ⟨_, hnone⟩ | ⟨c', hc', htag, hpending, hstands, hne⟩
  · rw [hr] at hnone
    cases hnone
  rw [hr, Except.ok.injEq, Option.some.injEq] at hc'
  subst hc'
  refine ⟨htag, ?_⟩
  by_cases hu : r.cursor.unread = []
  · refine ⟨hstands, ?_, c.unread, r.pages, by simp [refilled, hu], List.suffix_rfl, ?_⟩
    · rw [Cursor.pending_eq, Cursor.pending_eq, hu, List.nil_append] at hpending
      have hread := h.read
      rw [← hpending] at hread
      simpa [refilled, hu, htag] using hread
    · intro n hn
      obtain ⟨passed, _, _, hlast⟩ := hstands
      obtain ⟨last, hl⟩ := Option.isSome_iff_exists.mp (List.getLast?_isSome.mpr hne)
      have hlast := hlast n hn
      rw [List.getLast?_append, hl, Option.some_or] at hlast
      exact hl.trans hlast
  · obtain ⟨x, rest, hx⟩ := List.exists_cons_of_ne_nil hu
    obtain rfl : r.cursor = c := by simpa [Cursor.refill?, hx] using hr
    simpa [refilled, hu] using h

theorem pass {id : String} {found' : List String}
    (hs : (r.cursor.pass id).Stands owners found') : (r.pass id).Tracks owners found' := by
  obtain ⟨rest, hpass, hsuffix⟩ := Cursor.pass_eq id r.cursor
  obtain ⟨page, older, hpages, hunread, hlast⟩ := h.newest
  have hp : r.pass id = ⟨{ r.cursor with unread := rest }, r.pages⟩ := by rw [Reading.pass, hpass]
  rw [hp]
  exact ⟨hpass ▸ hs, h.read, page, older, hpages, hsuffix.trans hunread, hlast⟩

theorem buffered {m : Memory} {code : String} {after : Option String}
    (hs : (owners r.cursor.tag).Pairwise (· < ·))
    (hmem : ∀ id, id ∈ owners r.cursor.tag ↔
      (∀ a ∈ after, a < id) ∧ Indexed m code r.cursor.tag id) :
    r.Buffered m code after found := by
  obtain ⟨page, older, hpages, hunread, hlast⟩ := h.newest
  have hread := h.read
  obtain ⟨passed, howners, hfound, hend⟩ := h.stands
  rw [Cursor.pending_eq, ← List.append_assoc] at howners
  have hasc : r.pages.reverse.flatten.Pairwise (· < ·) :=
    (List.pairwise_append.mp (hread ▸ hs)).1
  have hpassed : (passed ++ r.cursor.unread).Pairwise (· < ·) :=
    (List.pairwise_append.mp (howners ▸ hs)).1
  have hnext : ∀ mark, found.getLast? = some mark → ∀ n, r.cursor.next = some n → ¬ n < mark :=
    fun mark hmark n hn => le_getLast? hpassed (hend n hn)
      (List.mem_append_left _ (hfound mark (List.mem_of_getLast? hmark)))
  refine ⟨⟨page, older, hpages, ?_, hunread, hlast⟩, ?_, hnext, ?_, hasc, ?_⟩
  · rw [hpages, List.reverse_cons, List.flatten_append, List.flatten_singleton] at hasc
    exact (List.pairwise_append.mp hasc).2.1
  · intro mark hmark id hid
    exact (List.pairwise_append.mp hpassed).2.2 mark (hfound mark (List.mem_of_getLast? hmark)) id hid
  · intro n hn
    cases hmark : found.getLast? with
    | none => rfl
    | some mark => exact if_neg (hnext mark hmark n hn)
  · intro id
    have hbeyond : id ∈ r.cursor.beyond owners ↔
        ∃ n, r.cursor.next = some n ∧ n < id ∧ Indexed m code r.cursor.tag id := by
      rw [Cursor.beyond]
      cases hn : r.cursor.next with
      | none => simp
      | some n =>
        have hin : n ∈ owners r.cursor.tag := by
          rw [howners]
          exact List.mem_append_left _ (List.mem_of_getLast? (hend n hn))
        have hafter := ((hmem n).mp hin).1
        simp only [List.mem_filter, decide_eq_true_eq, hmem, Option.some.injEq, exists_eq_left']
        constructor
        · exact fun ⟨⟨_, hindexed⟩, hlt⟩ => ⟨hlt, hindexed⟩
        · exact fun ⟨hlt, hindexed⟩ =>
            ⟨⟨fun a ha => String.lt_trans (hafter a ha) hlt, hindexed⟩, hlt⟩
    rw [← hmem, hread, List.mem_append, hbeyond]
    simp only [List.mem_flatten, List.mem_reverse]

end Tracks

end

end Reading

/-- A store that holds one tag of each of some resources of a type. -/
def tagged (code : String) (tags : List (String × String × String)) : Memory :=
  (Memory.empty.transact (tags.map fun (id, name, value) =>
    .put (item (Key.resource code id) name value) none)).2

theorem only_tagged (code : String) {tags : List (String × String × String)}
    (h : ∀ tag ∈ tags, Key.hasDelimiter tag.2.1 = false) : Only (tagged code tags) := by
  apply Only.transact
  · intro key row hf
    cases hf
  · exact List.forall_mem_map.mpr fun tag htag => ⟨_, _, _, h tag htag, rfl⟩

/-- The states of a search for some tags: their readings, and what was found so far. A round refills the
cursors one after the other and, once all have an id to come, passes one. -/
inductive Underway {σ : Type} [Store σ] (s : σ) (code : String) (count : Nat)
    (tags : List (String × String)) (after : Option String) : List Reading → List String → Prop where
  | start {firsts : List Found} : (tags.mapM fun tag => search s code count tag after) = .ok firsts →
      Underway s code count tags after (List.zipWith Reading.ofFound tags firsts) []
  | refill {done todo : List Reading} {r : Reading} {c : Cursor} {found : List String} :
      Underway s code count tags after (done ++ r :: todo) found →
      Cursor.refill? s code count found.getLast? r.cursor = .ok (some c) →
      Underway s code count tags after (done ++ r.refilled c :: todo) found
  | advance {readings : List Reading} {found : List String} {merge : Merge} :
      Underway s code count tags after readings found → (∀ r ∈ readings, r.cursor.unread ≠ []) →
      Merge.advance ⟨readings.map Reading.cursor, found⟩ = merge →
      Underway s code count tags after
        (List.zipWith Reading.mk merge.cursors (readings.map Reading.pages)) merge.found

/-- No page is read where an id is passed. -/
theorem Reading.exists_pass (readings : List Reading) (found : List String) :
    ∃ id, (Merge.advance ⟨readings.map cursor, found⟩).cursors = (readings.map (pass id)).map cursor ∧
      List.zipWith mk (Merge.advance ⟨readings.map cursor, found⟩).cursors (readings.map pages) =
        readings.map (pass id) := by
  obtain ⟨id, hid⟩ := Merge.exists_pass ⟨readings.map cursor, found⟩
  refine ⟨id, by simp [hid, pass], ?_⟩
  rw [hid, List.map_map, List.zipWith_map, List.zipWith_self]
  rfl

namespace Underway

section
variable {σ : Type} [Store σ] {s : σ} {code : String} {count : Nat} {tags : List (String × String)}
  {after : Option String} {found : List String}

theorem refillAll {done todo : List Reading} {cs : List Cursor}
    (h : Underway s code count tags after (done ++ todo) found)
    (hr : Cursor.refillAll? s code count found.getLast? (todo.map Reading.cursor) = .ok (some cs)) :
    ∃ todo', Underway s code count tags after (done ++ todo') found ∧
      todo'.map Reading.cursor = cs ∧ ∀ r ∈ todo', r.cursor.unread ≠ [] := by
  induction todo generalizing done cs with
  | nil =>
    cases hr
    exact ⟨[], h, rfl, by simp⟩
  | cons r todo ih =>
    rw [List.map_cons, Cursor.refillAll?] at hr
    obtain ⟨first, hfirst, hr⟩ := Outcome.bind_eq_ok_iff.mp hr
    cases first with
    | none => cases hr
    | some c =>
      obtain ⟨rest, hrest, hr⟩ := Outcome.bind_eq_ok_iff.mp hr
      cases rest with
      | none => cases hr
      | some rest =>
        cases hr
        have hstep := h.refill hfirst
        rw [← List.singleton_append, ← List.append_assoc] at hstep
        obtain ⟨todo', hu, hcursors, hne⟩ := ih hstep hrest
        refine ⟨r.refilled c :: todo', ?_, ?_, ?_⟩
        · simpa using hu
        · simp [Reading.refilled, hcursors]
        · intro r' hr'
          rcases List.mem_cons.mp hr' with rfl | hr'
          · exact Cursor.unread_ne_nil_of_refill? hfirst
          · exact hne r' hr'

/-- A round of a merge keeps to these states. -/
theorem step? {readings : List Reading} {merge : Merge}
    (h : Underway s code count tags after readings found)
    (hs : Merge.step? s code count ⟨readings.map Reading.cursor, found⟩ = .ok (some merge)) :
    ∃ readings', Underway s code count tags after readings' merge.found ∧
      readings'.map Reading.cursor = merge.cursors := by
  rw [Merge.step?] at hs
  by_cases hfull : count ≤ found.length
  · simp [hfull, pure, Except.pure] at hs
  simp only [hfull, if_false] at hs
  obtain ⟨cs, hcs, hs⟩ := Outcome.bind_eq_ok_iff.mp hs
  cases cs with
  | none => cases hs
  | some cs =>
    cases hs
    rw [← List.nil_append readings] at h
    obtain ⟨refilled, hu, rfl, hne⟩ := h.refillAll hcs
    obtain ⟨id, hcursors, hzip⟩ := Reading.exists_pass refilled found
    have hstep := hu.advance hne rfl
    rw [List.nil_append, hzip] at hstep
    exact ⟨refilled.map (Reading.pass id), hstep, hcursors.symm⟩

theorem of_rounds {firsts : List Found} {merge : Merge}
    (hfirsts : (tags.mapM fun tag => search s code count tag after) = .ok firsts)
    (h : Merge.Rounds s code count ⟨List.zipWith Cursor.ofFound tags firsts, []⟩ merge) :
    ∃ readings, Underway s code count tags after readings merge.found ∧
      readings.map Reading.cursor = merge.cursors := by
  induction h with
  | refl =>
    refine ⟨_, .start hfirsts, ?_⟩
    rw [List.map_zipWith]
    rfl
  | @tail a b _ hstep ih =>
    obtain ⟨readings, hu, hcursors⟩ := ih
    obtain ⟨cursors, found⟩ := a
    subst hcursors
    exact hu.step? hstep

end

section
variable {m : Memory} (hm : m.Keyed) (ht : Only m) {code : String}
  (hc : Key.hasDelimiter code = false) {count : Nat} (hcount : 0 < count)
  {tags : List (String × String)} {after : Option String}
include hm ht hc hcount

theorem tracks {readings : List Reading} {found : List String}
    (h : Underway m code count tags after readings found) :
    (readings.map fun r => r.cursor.tag) = tags ∧
      ∀ r ∈ readings, r.Tracks (owners m code after) found := by
  induction h with
  | @start firsts hfirsts =>
    rw [Outcome.mapM_eq_ok fun tag _ => search_first hm ht hc tag after hcount, Except.ok.injEq]
      at hfirsts
    subst hfirsts
    rw [List.zipWith_map_right, List.zipWith_self]
    constructor
    · rw [List.map_map]
      exact List.map_id tags
    · exact List.forall_mem_map.mpr fun tag _ =>
        Reading.tracks_ofFound (paged_owners hm ht hc tag after).1 hcount
  | @refill done todo r c found _ hr ih =>
    obtain ⟨htags, htracks⟩ := ih
    have hmem : r ∈ done ++ r :: todo := by simp
    obtain ⟨htag, hrefilled⟩ :=
      (htracks r hmem).refill hcount (paged_owners hm ht hc r.cursor.tag after) hr
    constructor
    · simpa [Reading.refilled, htag] using htags
    · intro r' hr'
      rcases List.mem_append.mp hr' with hdone | hr'
      · exact htracks r' (List.mem_append_left _ hdone)
      rcases List.mem_cons.mp hr' with rfl | htodo
      · exact hrefilled
      · exact htracks r' (List.mem_append_right _ (List.mem_cons_of_mem _ htodo))
  | @advance readings found merge _ hne hmerge ih =>
    obtain ⟨htags, htracks⟩ := ih
    subst hmerge
    obtain ⟨id, hcursors, hzip⟩ := Reading.exists_pass readings found
    rw [hzip]
    constructor
    · rw [← htags, List.map_map]
      exact List.map_congr_left fun r _ => r.tag_pass id
    · intro r' hr'
      obtain ⟨r, hr, rfl⟩ := List.mem_map.mp hr'
      have hpaged : ∀ c ∈ readings.map Reading.cursor,
          (owners m code after c.tag).Pairwise (· < ·) :=
        fun c _ => (paged_owners hm ht hc c.tag after).1
      have hstand : ∀ c ∈ readings.map Reading.cursor,
          c.Stands (owners m code after) found ∧ c.unread ≠ [] :=
        List.forall_mem_map.mpr fun r hr => ⟨(htracks r hr).stands, hne r hr⟩
      have hsome : readings.map Reading.cursor ≠ [] :=
        List.ne_nil_of_mem (List.mem_map.mpr ⟨r, hr, rfl⟩)
      obtain ⟨_, hpasses⟩ :=
        @Merge.advance_passes _ ⟨readings.map Reading.cursor, found⟩ hpaged hstand hsome
      exact (htracks r hr).pass (hpasses.stands _ (hcursors ▸ List.mem_map.mpr ⟨_, hr', rfl⟩))

end

/-- While a search for some tags is under way, between its rounds and between its refills, what a cursor
has read and not passed lies beyond the last id that was found, and the id to go on after does not lie
below it. So each cursor reads on where it ended, and in the end has read every owner of its tag once. -/
theorem readings_buffered {m : Memory} (hm : m.Reached) (ht : Only m) {code : String}
    (hc : Key.hasDelimiter code = false) {count : Nat} (hcount : 0 < count)
    (tags : List (String × String)) (after : Option String) :
    (∀ firsts, (tags.mapM fun tag => search m code count tag after) = .ok firsts →
      ∀ merge, Merge.Rounds m code count ⟨List.zipWith Cursor.ofFound tags firsts, []⟩ merge →
        (∃ readings, Underway m code count tags after readings merge.found ∧
          readings.map Reading.cursor = merge.cursors) ∧
        ∀ cursors, Cursor.refillAll? m code count merge.found.getLast? merge.cursors = .ok (some cursors) →
          ∃ readings, Underway m code count tags after readings merge.found ∧
            readings.map Reading.cursor = cursors) ∧
    ∀ readings found, Underway m code count tags after readings found →
      (readings.map fun r => r.cursor.tag) = tags ∧
        ∀ r ∈ readings, r.Buffered m code after found := by
  constructor
  · intro firsts hfirsts merge hrounds
    have hreadings := Underway.of_rounds hfirsts hrounds
    refine ⟨hreadings, fun cursors hrefill => ?_⟩
    obtain ⟨readings, hu, hcursors⟩ := hreadings
    rw [← hcursors] at hrefill
    rw [← List.nil_append readings] at hu
    obtain ⟨refilled, hu, hrefilled, _⟩ := hu.refillAll hrefill
    exact ⟨refilled, hu, hrefilled⟩
  · intro readings found h
    obtain ⟨htags, htracks⟩ := h.tracks hm.keyed ht hc hcount
    refine ⟨htags, fun r hr => (htracks r hr).buffered ?_ ?_⟩
    · exact (paged_owners hm.keyed ht hc r.cursor.tag after).1
    · intro id
      exact mem_owners_iff hm.keyed ht hc r.cursor.tag after

theorem readings_buffered_two_tags :
    let m := tagged "r" [("a", "x", "1"), ("b", "x", "1"), ("c", "x", "1"), ("b", "y", "2"), ("c", "y", "2")]
    let readings : List Reading := [⟨⟨("x", "1"), ["c"], none⟩, [["c"], ["a", "b"]]⟩,
      ⟨⟨("y", "2"), ["c"], some "c"⟩, [["b", "c"]]⟩]
    Underway m "r" 2 [("x", "1"), ("y", "2")] none readings ["b"] ∧
      ∀ r ∈ readings, r.Buffered m "r" none ["b"] := by
  intro m readings
  let x : Cursor := ⟨("x", "1"), ["a", "b"], some "b"⟩
  let y : Cursor := ⟨("y", "2"), ["b", "c"], some "c"⟩
  have hfirsts : ([("x", "1"), ("y", "2")].mapM fun tag => search m "r" 2 tag none) =
    .ok [⟨["a", "b"], some "b"⟩, ⟨["b", "c"], some "c"⟩] := rfl
  have hstart : Underway m "r" 2 [("x", "1"), ("y", "2")] none
      [⟨x, [["a", "b"]]⟩, ⟨y, [["b", "c"]]⟩] [] := .start hfirsts
  have hpassed : Underway m "r" 2 [("x", "1"), ("y", "2")] none
      [⟨x.pass "a", [["a", "b"]]⟩, ⟨y, [["b", "c"]]⟩] [] := hstart.advance (by decide) rfl
  have hfound : Underway m "r" 2 [("x", "1"), ("y", "2")] none
      ([] ++ ⟨(x.pass "a").pass "b", [["a", "b"]]⟩ :: [⟨y.pass "b", [["b", "c"]]⟩]) ["b"] :=
    hpassed.advance (by decide) rfl
  have hread : Cursor.refill? m "r" 2 (some "b") ((x.pass "a").pass "b") =
    .ok (some ⟨("x", "1"), ["c"], none⟩) := Outcome.toOption_eq_some_iff.mp (by decide +kernel)
  have hrefilled : Underway m "r" 2 [("x", "1"), ("y", "2")] none readings ["b"] :=
    hfound.refill hread
  refine ⟨hrefilled, ?_⟩
  exact ((readings_buffered (.transact _ .empty) (only_tagged "r" (by decide)) (by decide)
    (by decide) _ none).2 readings ["b"] hrefilled).2

/-- Under a code with a delimiter a page is read again, below the id that was found on it. -/
theorem not_buffered_of_delimiter :
    let m := tagged "a:b" [("w", "p", "1"), ("x", "p", "1"), ("v", "q", "1"), ("x", "q", "1")]
    let r : Reading := ⟨⟨("p", "1"), ["b:w", "b:x"], some "b:x"⟩, [["b:w", "b:x"], ["b:w", "b:x"]]⟩
    m.Reached ∧ Only m ∧
      (∃ others, Underway m "a:b" 2 [("p", "1"), ("q", "1")] none (r :: others) ["b:x"]) ∧
      ¬ r.Buffered m "a:b" none ["b:x"] ∧
      searchAll m "a:b" 2 (.ofList [("p", "1"), ("q", "1")]) none =
        .ok ⟨["b:x", "b:x"], some "b:x"⟩ := by
  intro m r
  let p : Cursor := ⟨("p", "1"), ["b:w", "b:x"], some "b:x"⟩
  let q : Cursor := ⟨("q", "1"), ["b:v", "b:x"], some "b:x"⟩
  have hfirsts : ([("p", "1"), ("q", "1")].mapM fun tag => search m "a:b" 2 tag none) =
    .ok [⟨["b:w", "b:x"], some "b:x"⟩, ⟨["b:v", "b:x"], some "b:x"⟩] := rfl
  have hstart : Underway m "a:b" 2 [("p", "1"), ("q", "1")] none
      [⟨p, [["b:w", "b:x"]]⟩, ⟨q, [["b:v", "b:x"]]⟩] [] := .start hfirsts
  have hv : Underway m "a:b" 2 [("p", "1"), ("q", "1")] none
      [⟨p, [["b:w", "b:x"]]⟩, ⟨q.pass "b:v", [["b:v", "b:x"]]⟩] [] :=
    hstart.advance (by decide) rfl
  have hw : Underway m "a:b" 2 [("p", "1"), ("q", "1")] none
      [⟨p.pass "b:w", [["b:w", "b:x"]]⟩, ⟨q.pass "b:v", [["b:v", "b:x"]]⟩] [] :=
    hv.advance (by decide) rfl
  have hx : Underway m "a:b" 2 [("p", "1"), ("q", "1")] none
      ([] ++ ⟨(p.pass "b:w").pass "b:x", [["b:w", "b:x"]]⟩ ::
        [⟨(q.pass "b:v").pass "b:x", [["b:v", "b:x"]]⟩]) ["b:x"] :=
    hw.advance (by decide) rfl
  have hread : Cursor.refill? m "a:b" 2 (some "b:x") ((p.pass "b:w").pass "b:x") = .ok (some p) :=
    Outcome.toOption_eq_some_iff.mp (by decide +kernel)
  refine ⟨.transact _ .empty, only_tagged "a:b" (by decide), ⟨_, hx.refill hread⟩, ?_,
    Outcome.toOption_eq_some_iff.mp (by decide +kernel)⟩
  intro h
  exact absurd (h.unread_gt "b:x" rfl "b:w" (by decide)) (by decide)

end Underway

end TagStore.Tag
