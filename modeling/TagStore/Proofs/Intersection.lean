import TagStore.Proofs.Merging
import TagStore.Proofs.Outcome
import TagStore.Proofs.Paging

namespace TagStore.Tag

section
variable {m : Memory} (hm : m.Keyed) (ht : Only m) {code : String}
  (hc : Key.hasDelimiter code = false) (after : Option String)
include hm ht hc

theorem owners_spec {tag : String × String} (hn : Key.hasDelimiter tag.1 = false) :
    Cursor.Owners m code after (owners m code after) tag := by
  refine ⟨owners_ascending hm ht hc hn after, fun id => mem_owners hm ht hc hn after, ?_⟩
  intro n hmem count hcount
  rw [search_eq hm ht hc hn (some n) hcount]
  congr 2
  apply ascending_ext (owners_ascending hm ht hc hn _) ((owners_ascending hm ht hc hn _).filter _)
  intro id
  rw [List.mem_filter, decide_eq_true_eq, mem_owners hm ht hc hn, mem_owners hm ht hc hn]
  rw [mem_owners hm ht hc hn] at hmem
  constructor
  · rintro ⟨hid, hcarries⟩
    have hlt := hid n rfl
    exact ⟨⟨fun a ha => String.lt_trans (hmem.1 a ha) hlt, hcarries⟩, hlt⟩
  · rintro ⟨⟨_, hcarries⟩, hlt⟩
    refine ⟨fun a ha => ?_, hcarries⟩
    rw [Option.mem_def, Option.some.injEq] at ha
    exact ha ▸ hlt

theorem common_owners {tags : List (String × String)} (hne : tags ≠ [])
    (hn : ∀ tag ∈ tags, Key.hasDelimiter tag.1 = false) :
    ∃ ids, Common (tags.map (owners m code after)) ids ∧
      ∀ id, id ∈ ids ↔ (∀ a ∈ after, a < id) ∧ Carries m code tags id := by
  have hmem : ∀ id, (∀ l ∈ tags.map (owners m code after), id ∈ l) ↔
      (∀ a ∈ after, a < id) ∧ Carries m code tags id := by
    intro id
    rw [List.forall_mem_map]
    constructor
    · intro h
      obtain ⟨tag, htag⟩ := List.exists_mem_of_ne_nil _ hne
      refine ⟨((mem_owners hm ht hc (hn tag htag) after).mp (h tag htag)).1, fun t htag => ?_⟩
      exact ((mem_owners hm ht hc (hn t htag) after).mp (h t htag)).2 t List.mem_cons_self
    · rintro ⟨ha, hcarries⟩ tag htag
      refine (mem_owners hm ht hc (hn tag htag) after).mpr ⟨ha, fun t hmem => ?_⟩
      rw [List.mem_singleton] at hmem
      exact hcarries t (hmem ▸ htag)
  obtain ⟨first, rest, rfl⟩ := List.exists_cons_of_ne_nil hne
  refine ⟨(owners m code after first).filter fun id =>
    ((first :: rest).map (owners m code after)).all fun l => id ∈ l, ⟨?_, ?_⟩, ?_⟩
  · exact (owners_ascending hm ht hc (hn first List.mem_cons_self) after).filter _
  · intro id
    simp only [List.mem_filter, List.all_eq_true, decide_eq_true_eq, and_iff_right_iff_imp]
    exact fun h => h _ List.mem_cons_self
  · intro id
    rw [← hmem]
    simp only [List.mem_filter, List.all_eq_true, decide_eq_true_eq, and_iff_right_iff_imp]
    exact fun h => h _ List.mem_cons_self

end

theorem length_flatten_le {lists : List (List String)} {n : Nat} (h : ∀ l ∈ lists, l.length ≤ n) :
    lists.flatten.length ≤ lists.length * n := by
  induction lists with
  | nil => simp
  | cons l lists ih =>
    have hl := h l List.mem_cons_self
    have hr := ih fun l hl => h l (List.mem_cons_of_mem _ hl)
    simp only [List.flatten_cons, List.length_append, List.length_cons, Nat.add_mul, Nat.one_mul]
    omega

/-- A merge never runs out of rounds. -/
theorem lt_maxRounds {tags size : Nat} (h : 0 < tags) : tags * size < maxRounds tags size := by
  have hsize : size < (size + 1) * (size + 1) :=
    Nat.lt_of_lt_of_le (Nat.lt_succ_self size) (Nat.le_mul_of_pos_left _ (Nat.succ_pos _))
  exact Nat.mul_lt_mul_of_pos_left hsize h

theorem Cursor.ofFound_start {owners : String × String → List String} {tag : String × String}
    (hs : (owners tag).Pairwise (· < ·)) {count : Nat} (hc : 0 < count) :
    (ofFound tag (Found.first count (owners tag))).pending owners = owners tag ∧
      (ofFound tag (Found.first count (owners tag))).Stands owners [] :=
  stands_ofFound hs (List.nil_append _).symm (by simp) hc

section
variable {m : Memory} (hm : m.Keyed) (ht : Only m) {code : String}
  (hc : Key.hasDelimiter code = false) {tags : Tags} (hne : tags.entries ≠ [])
  (hn : ∀ tag ∈ tags.entries, Key.hasDelimiter tag.1 = false) (after : Option String)
include hm ht hc hne hn

/-- The merge of the first pages of all tags ends, and has found the first of the resources that carry
them all. -/
theorem run_firsts {ids : List String} (hids : Common (tags.entries.map (owners m code after)) ids)
    {count : Nat} (hcount : 0 < count) :
    let firsts := tags.entries.map fun tag => Found.first count (owners m code after tag)
    let merge : Merge := ⟨List.zipWith Cursor.ofFound tags.entries firsts, []⟩
    Merge.run m code count (maxRounds tags.size (Store.size m)) merge = .ok (ids.take count) ∧
      Merge.Ends m code count (maxRounds tags.size (Store.size m)) merge := by
  intro firsts merge
  have hcursors : List.zipWith Cursor.ofFound tags.entries
      (tags.entries.map fun tag => Found.first count (owners m code after tag)) =
        tags.entries.map fun tag =>
          Cursor.ofFound tag (Found.first count (owners m code after tag)) := by
    rw [List.zipWith_map_right, List.zipWith_self]
  have hstart : ∀ tag ∈ tags.entries, _ := fun tag htag =>
    Cursor.ofFound_start (owners_ascending hm ht hc (hn tag htag) after) hcount
  have hpend : (tags.entries.map fun tag =>
      Cursor.ofFound tag (Found.first count (owners m code after tag))).map
        (Cursor.pending (owners m code after)) = tags.entries.map (owners m code after) := by
    rw [List.map_map]
    exact List.map_congr_left fun tag htag => (hstart tag htag).1
  have hrounds : (tags.entries.map (owners m code after)).flatten.length <
      maxRounds tags.size (Store.size m) := by
    apply Nat.lt_of_le_of_lt (length_flatten_le (n := m.items.size) ?_)
    · rw [List.length_map]
      exact lt_maxRounds (List.length_pos_iff.mpr hne)
    · exact List.forall_mem_map.mpr fun tag htag => length_owners_le hm ht hc (hn tag htag) after
  have hmerge : merge = ⟨tags.entries.map fun tag =>
      Cursor.ofFound tag (Found.first count (owners m code after tag)), []⟩ := by
    rw [← hcursors]
  rw [hmerge]
  apply Merge.run_eq (owners m code after) after hcount
  · simpa using hne
  · exact List.forall_mem_map.mpr fun tag htag => owners_spec hm ht hc after (hn tag htag)
  · exact List.forall_mem_map.mpr fun tag htag => (hstart tag htag).2
  · rwa [hpend]
  · rwa [hpend]

/-- A page of a search for several tags holds the first of those that carry all of them. -/
theorem searchAll_eq : ∃ ids : List String, ids.Pairwise (· < ·) ∧
    (∀ id, id ∈ ids ↔ (∀ a ∈ after, a < id) ∧ Carries m code tags.entries id) ∧
    ∀ count, 0 < count → searchAll m code count tags after = .ok (Found.first count ids) := by
  obtain ⟨ids, hcommon, hids⟩ := common_owners hm ht hc after hne hn
  refine ⟨ids, hcommon.1, hids, fun count hcount => ?_⟩
  have hempty : tags.isEmpty = false := by simpa [SortedMap.isEmpty] using hne
  have h0 : count ≠ 0 := by omega
  have hsearch : ∀ tag ∈ tags.entries, search m code count tag after =
      .ok (Found.first count (owners m code after tag)) := fun tag htag =>
    search_eq hm ht hc (hn tag htag) after hcount
  simp only [searchAll, hempty, h0, Bool.false_eq_true, if_false]
  split
  next tag htags =>
    rw [htags] at hsearch hcommon
    have heq : owners m code after tag = ids := by
      apply ascending_ext (owners_ascending hm ht hc (hn tag (by simp [htags])) after) hcommon.1
      simp [hcommon.2]
    rw [← heq]
    exact hsearch tag List.mem_cons_self
  next =>
    rw [Outcome.mapM_eq_ok hsearch]
    simp only [bind, Except.bind, pure, Except.pure]
    rw [(run_firsts hm ht hc hne hn after hcommon hcount).1]
    split
    next hnone =>
      -- a tag that no resource has is seen on its first page
      obtain ⟨f, hf, hfirst⟩ := List.any_eq_true.mp hnone
      obtain ⟨tag, htag, rfl⟩ := List.mem_map.mp hf
      have howners : owners m code after tag = [] := by
        simpa [Found.first, List.take_eq_nil_iff, h0] using hfirst
      have hnil : ids = [] := by
        apply List.eq_nil_iff_forall_not_mem.mpr
        intro id hid
        have hmem := (hcommon.2 id).mp hid _ (List.mem_map.mpr ⟨tag, htag, rfl⟩)
        simp [howners] at hmem
      simp [hnil, Found.first, Found.none]
    next =>
      simp only [Found.first, List.length_take]
      by_cases hfull : count ≤ ids.length
      · rw [if_neg (by omega), if_pos hfull]
      · rw [if_pos (by omega), if_neg hfull]

end

/-- A page of a search, for its token. -/
def idPage (m : Memory) (code : String) (tags : Tags) (count : Nat) (token : Option String) :
    Except Error (List String × Option String) :=
  (searchAll m code count tags token).map fun f => (f.ids, f.next)

/-- The ids beyond a token that carry all tags are what the pages deal out. -/
theorem idPage_deals {m : Memory} (hm : m.Keyed) (ht : Only m) {code : String}
    (hc : Key.hasDelimiter code = false) {tags : Tags} (hne : tags.entries ≠ [])
    (hn : ∀ tag ∈ tags.entries, Key.hasDelimiter tag.1 = false) {sizes : Nat → Nat}
    (hsizes : ∀ i, 0 < sizes i) :
    Deals (fun i => idPage m code tags (sizes i)) sizes fun token ids =>
      ids.Pairwise (· < ·) ∧
        ∀ id, id ∈ ids ↔ (∀ a ∈ token, a < id) ∧ Carries m code tags.entries id := by
  rintro i token ids ⟨hasc, hids⟩
  obtain ⟨ids', hasc', hids', hsearch⟩ := searchAll_eq hm ht hc hne hn token
  obtain rfl := ascending_ext hasc' hasc fun id => (hids' id).trans (hids id).symm
  have hpage : idPage m code tags (sizes i) token =
      .ok ((Found.first (sizes i) ids').ids, (Found.first (sizes i) ids').next) := by
    rw [idPage, hsearch _ (hsizes i)]
    rfl
  simp only [hpage, Found.first]
  by_cases hfull : sizes i ≤ ids'.length
  · have hi := hsizes i
    have hne' : ids'.take (sizes i) ≠ [] := by
      rw [ne_eq, List.take_eq_nil_iff, ← List.length_eq_zero_iff]
      omega
    obtain ⟨last, hlast⟩ : ∃ last, (ids'.take (sizes i)).getLast? = some last :=
      ⟨_, List.getLast?_eq_some_getLast hne'⟩
    refine .inr ⟨last, by rw [if_pos hfull, hlast], ?_, ?_, ?_⟩
    · exact fun h => hne' (by rw [h, List.take_nil])
    · exact hasc.sublist (List.drop_sublist _ _)
    · intro id
      have hbeyond : ids'.filter (last < ·) = ids'.drop (sizes i) := by
        have happ := List.take_append_drop (sizes i) ids'
        conv => lhs; rw [← happ]
        exact filter_gt_of_getLast? (happ.symm ▸ hasc) hlast
      rw [← hbeyond, List.mem_filter, decide_eq_true_eq, hids]
      constructor
      · rintro ⟨⟨_, hcarries⟩, hlt⟩
        refine ⟨fun a ha => ?_, hcarries⟩
        rw [Option.mem_def, Option.some.injEq] at ha
        exact ha ▸ hlt
      · rintro ⟨hlt, hcarries⟩
        have hlt := hlt last rfl
        have hpassed := (hids last).mp (List.mem_of_mem_take (List.mem_of_getLast? hlast))
        exact ⟨⟨fun a ha => String.lt_trans (hpassed.1 a ha) hlt, hcarries⟩, hlt⟩
  · exact .inl ⟨by rw [if_neg hfull], by omega⟩

/-- The search for all of some tags ends, and each of its pages holds the first of the ids beyond the
start that carry them all. So following tokens shows each such id once, in order, whatever the sizes of
the pages. -/
theorem searchAll_exact {m : Memory} (hm : m.Reached) (ht : Only m) {code : String}
    (hc : Key.hasDelimiter code = false) {tags : Tags} (hne : tags.entries ≠ [])
    (hn : ∀ tag ∈ tags.entries, Key.hasDelimiter tag.1 = false) :
    (∀ after : Option String, ∃ ids : List String, ids.Pairwise (· < ·) ∧
      (∀ id, id ∈ ids ↔ (∀ a ∈ after, a < id) ∧ Carries m code tags.entries id) ∧
      ∀ count, 0 < count →
        searchAll m code count tags after =
          .ok ⟨ids.take count, if (ids.take count).length = count then (ids.take count).getLast? else none⟩ ∧
        ∀ firsts, (tags.entries.mapM fun tag => search m code count tag after) = .ok firsts →
          Merge.Ends m code count (maxRounds tags.size m.items.size)
            ⟨List.zipWith Cursor.ofFound tags.entries firsts, []⟩) ∧
    ∃ ids : List String, ids.Pairwise (· < ·) ∧ (∀ id, id ∈ ids ↔ Carries m code tags.entries id) ∧
      ∀ sizes : Nat → Nat, (∀ i, 0 < sizes i) →
        (∃ pages, Follows (fun i => idPage m code tags (sizes i)) 0 none pages) ∧
        ∀ pages, Follows (fun i => idPage m code tags (sizes i)) 0 none pages → pages.flatten = ids := by
  constructor
  · intro after
    obtain ⟨ids, hasc, hids, hsearch⟩ := searchAll_eq hm.keyed ht hc hne hn after
    refine ⟨ids, hasc, hids, fun count hcount => ⟨?_, fun firsts hfirsts => ?_⟩⟩
    · have hfull : min count ids.length = count ↔ count ≤ ids.length := by omega
      simp only [hsearch count hcount, Found.first, List.length_take, hfull]
    · obtain ⟨all, hall, _⟩ := common_owners hm.keyed ht hc after hne hn
      rw [Outcome.mapM_eq_ok fun tag htag => search_eq hm.keyed ht hc (hn tag htag) after hcount,
        Except.ok.injEq] at hfirsts
      subst hfirsts
      exact (run_firsts hm.keyed ht hc hne hn after hall hcount).2
  · obtain ⟨ids, hasc, hids, _⟩ := searchAll_eq hm.keyed ht hc hne hn none
    have hall : ∀ id, id ∈ ids ↔ Carries m code tags.entries id := by simpa using hids
    refine ⟨ids, hasc, hall, fun sizes hsizes => ?_⟩
    have hdeals := idPage_deals hm.keyed ht hc hne hn hsizes
    exact ⟨hdeals.follows hsizes 0 ⟨hasc, hids⟩, fun pages hp => hdeals.flatten_eq ⟨hasc, hids⟩ hp⟩

theorem searchAll_exact_two_tags :
    let m := (Memory.empty.transact [.put (item (Key.resource "r" "a") "x" "1") none,
      .put (item (Key.resource "r" "a") "y" "2") none]).2
    let tags : Tags := .ofList [("x", "1"), ("y", "2")]
    ∃ ids : List String, ids.Pairwise (· < ·) ∧ (∀ id, id ∈ ids ↔ Carries m "r" tags.entries id) ∧
      ∀ sizes : Nat → Nat, (∀ i, 0 < sizes i) →
        (∃ pages, Follows (fun i => idPage m "r" tags (sizes i)) 0 none pages) ∧
        ∀ pages, Follows (fun i => idPage m "r" tags (sizes i)) 0 none pages → pages.flatten = ids := by
  intro m tags
  have hitems : m.items = (SortedMap.empty.insert (key (Key.resource "r" "a") "x")
      (item (Key.resource "r" "a") "x" "1")).insert (key (Key.resource "r" "a") "y")
      (item (Key.resource "r" "a") "y" "2") := rfl
  have honly : Only m := by
    intro k row hf _
    simp only [hitems, SortedMap.find?_insert, SortedMap.find?_empty] at hf
    split at hf
    · cases hf
      exact ⟨_, "y", _, by decide, rfl⟩
    · split at hf
      · cases hf
        exact ⟨_, "x", _, by decide, rfl⟩
      · cases hf
  exact (searchAll_exact (.transact _ .empty) honly (by decide) (by decide) (by decide)).2

end TagStore.Tag
