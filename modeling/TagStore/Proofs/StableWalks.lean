import TagStore.Proofs.ListWalks

namespace TagStore

section
variable {α : Type} (id : α → String) (token : String → String)

/-- What a page is that goes on after an id: things that are shown, in the order of their ids and beyond
that id, and a token for the last of them unless nothing that is there lies beyond it. -/
structure PageAfter (isShown : α → Prop) (isThere : String → Prop) (after : Option String)
    (items : List α) (next : Option String) : Prop where
  ascending : (items.map id).Pairwise (· < ·)
  beyond : ∀ s ∈ items, ∀ a ∈ after, a < id s
  shown : ∀ s ∈ items, isShown s
  covers : ∀ i, isThere i → (∀ a ∈ after, a < i) →
    i ∈ items.map id ∨ next ≠ none ∧ ∀ s ∈ items, id s < i
  next : ∀ text, next = some text → ∃ last, (items.map id).getLast? = some last ∧ text = token last

/-- Whether all pages are such, each for what is shown and what is there when it is read. -/
def PagesAfter (page : Nat → Option String → Except Error (List α × Option String))
    (isShown : Nat → α → Prop) (isThere : Nat → String → Prop) : Prop :=
  ∀ i after items next, page i (after.map token) = .ok (items, next) →
    PageAfter id token (isShown i) (isThere i) after items next

variable {id token} {page : Nat → Option String → Except Error (List α × Option String)}
  {isShown : Nat → α → Prop} {isThere : Nat → String → Prop}

/-- The last of some ascending ids has no other beyond it. -/
theorem PageAfter.le_last {isShown : α → Prop} {isThere : String → Prop} {after : Option String}
    {items : List α} {next : Option String} (h : PageAfter id token isShown isThere after items next)
    {last : String} (hlast : (items.map id).getLast? = some last) :
    ∀ s ∈ items, ¬ last < id s :=
  fun _ hs => Tag.le_getLast? h.ascending hlast (List.mem_map.mpr ⟨_, hs, rfl⟩)

/-- Fewer of some ids lie beyond a later one of them. -/
theorem length_beyond_lt {ids : List String} {after : Option String} {last : String} (hin : last ∈ ids)
    (hlt : ∀ a ∈ after, a < last) : (ids.filter fun x => (some last).all (· < x)).length <
      (ids.filter fun x => after.all (· < x)).length := by
  have hsub : (ids.filter fun x => (some last).all (· < x)) =
      (ids.filter fun x => after.all (· < x)).filter (last < ·) := by
    rw [List.filter_filter]
    apply List.filter_congr
    intro x _
    cases after with
    | none => simp
    | some a =>
      have htrans : last < x → a < x := String.lt_trans (hlt a rfl)
      simpa using htrans
  have hkept : last ∈ ids.filter fun x => after.all (· < x) := by
    refine List.mem_filter.mpr ⟨hin, ?_⟩
    cases after with
    | none => rfl
    | some a => exact decide_eq_true (hlt a rfl)
  rw [hsub]
  exact List.length_filter_lt_length_iff_exists.mpr ⟨last, hkept, by simp⟩

variable (h : PagesAfter id token page isShown isThere)
include h

/-- Along the pages ids ascend, whatever changes between them. -/
theorem PagesAfter.ascending {i : Nat} {after : Option String} {pages : List (List α)}
    (hp : Follows page i (after.map token) pages) :
    (pages.flatten.map id).Pairwise (· < ·) ∧ ∀ s ∈ pages.flatten, ∀ a ∈ after, a < id s := by
  generalize hstart : after.map token = start at hp
  induction hp generalizing after with
  | @last i _ items hitems =>
    subst hstart
    have hpage := h i after items none hitems
    rw [List.flatten_cons, List.flatten_nil, List.append_nil]
    exact ⟨hpage.ascending, hpage.beyond⟩
  | @more i _ next items pages hitems _ ih =>
    subst hstart
    have hpage := h i after items (some next) hitems
    obtain ⟨last, hlast, rfl⟩ := hpage.next next rfl
    obtain ⟨hasc, hbeyond⟩ := ih (Option.map_some last token)
    have hmem := List.mem_of_getLast? hlast
    obtain ⟨s, hs, hid⟩ := List.mem_map.mp hmem
    rw [List.flatten_cons, List.map_append]
    refine ⟨List.pairwise_append.mpr ⟨hpage.ascending, hasc, ?_⟩, fun b hb a ha => ?_⟩
    · intro x hx y hy
      obtain ⟨b, hb, rfl⟩ := List.mem_map.mp hx
      obtain ⟨c, hc, rfl⟩ := List.mem_map.mp hy
      have hlt := hbeyond c hc last rfl
      rcases Text.lt_or_eq_or_gt (id b) last with hless | heq | hmore
      · exact String.lt_trans hless hlt
      · exact heq ▸ hlt
      · exact absurd hmore (hpage.le_last hlast b hb)
    · rcases List.mem_append.mp hb with hb | hb
      · exact hpage.beyond b hb a ha
      · exact String.lt_trans (hid ▸ hpage.beyond s hs a ha) (hbeyond b hb last rfl)

theorem PagesAfter.shown {i : Nat} {after : Option String} {pages : List (List α)}
    (hp : Follows page i (after.map token) pages) (j : Nat) {items : List α}
    (hitems : pages[j]? = some items) : ∀ s ∈ items, isShown (i + j) s := by
  generalize hstart : after.map token = start at hp
  induction hp generalizing after j with
  | @last i _ found hfound =>
    subst hstart
    obtain ⟨rfl, rfl⟩ : j = 0 ∧ found = items := by
      cases j with
      | zero => exact ⟨rfl, Option.some.inj hitems⟩
      | succ j => cases hitems
    exact (h i after found none hfound).shown
  | @more i _ next found pages hfound _ ih =>
    subst hstart
    have hpage := h i after found (some next) hfound
    obtain ⟨last, _, rfl⟩ := hpage.next next rfl
    cases j with
    | zero =>
      obtain rfl := Option.some.inj hitems
      exact hpage.shown
    | succ j =>
      have hrest := ih j hitems (Option.map_some last token)
      rwa [Nat.add_assoc, Nat.add_comm 1 j] at hrest

/-- What is there whenever a page is read, is on one of them. -/
theorem PagesAfter.covers {i : Nat} {after : Option String} {pages : List (List α)}
    (hp : Follows page i (after.map token) pages) {x : String}
    (hx : ∀ j < pages.length, isThere (i + j) x) (hbeyond : ∀ a ∈ after, a < x) :
    x ∈ pages.flatten.map id := by
  generalize hstart : after.map token = start at hp
  induction hp generalizing after with
  | @last i _ items hitems =>
    subst hstart
    rw [List.flatten_cons, List.flatten_nil, List.append_nil]
    rcases (h i after items none hitems).covers x (hx 0 Nat.zero_lt_one) hbeyond with hin | ⟨hnext, _⟩
    · exact hin
    · exact absurd rfl hnext
  | @more i _ next items pages hitems _ ih =>
    subst hstart
    have hpage := h i after items (some next) hitems
    obtain ⟨last, hlast, rfl⟩ := hpage.next next rfl
    rw [List.flatten_cons, List.map_append, List.mem_append]
    refine (hpage.covers x (hx 0 (Nat.zero_lt_succ _)) hbeyond).imp_right fun ⟨_, hall⟩ => ?_
    obtain ⟨s, hs, hid⟩ := List.mem_map.mp (List.mem_of_getLast? hlast)
    refine ih (fun j hj => ?_) (fun a ha => ?_) (Option.map_some last token)
    · have hlater := hx (j + 1) (Nat.succ_lt_succ hj)
      rwa [Nat.add_comm j 1, ← Nat.add_assoc] at hlater
    · exact Option.some.inj ha ▸ hid ▸ hall s hs

/-- Pages come to an end once all that they show is among some ids. -/
theorem PagesAfter.ends (hok : ∀ i after, ∃ found, page i (Option.map token after) = .ok found)
    {n : Nat} {ids : List String} (hids : ∀ i s, n ≤ i → isShown i s → id s ∈ ids) (i : Nat)
    (after : Option String) : ∃ pages, Follows page i (after.map token) pages := by
  have hmore : ∀ {i : Nat} {after : Option String},
      (∀ last, ∃ pages, Follows page (i + 1) (some (token last)) pages) →
      ∃ pages, Follows page i (after.map token) pages := by
    intro i after hrest
    obtain ⟨⟨items, next⟩, hitems⟩ := hok i after
    cases next with
    | none => exact ⟨_, .last hitems⟩
    | some next =>
      obtain ⟨last, _, rfl⟩ := (h i after items _ hitems).next next rfl
      obtain ⟨pages, hpages⟩ := hrest last
      exact ⟨_, .more hitems hpages⟩
  -- from the `n`th page on, each page leaves fewer of the ids beyond it
  have hsettled : ∀ {k i : Nat} {after : Option String}, n ≤ i →
      (ids.filter fun x => after.all (· < x)).length = k →
      ∃ pages, Follows page i (after.map token) pages := by
    intro k
    induction k using Nat.strongRecOn with
    | ind k ih =>
      intro i after hi hk
      obtain ⟨⟨items, next⟩, hitems⟩ := hok i after
      have hpage := h i after items next hitems
      cases next with
      | none => exact ⟨_, .last hitems⟩
      | some next =>
        obtain ⟨last, hlast, rfl⟩ := hpage.next next rfl
        obtain ⟨s, hs, hid⟩ := List.mem_map.mp (List.mem_of_getLast? hlast)
        have hfewer := length_beyond_lt (hid ▸ hids i s hi (hpage.shown s hs)) (hid ▸ hpage.beyond s hs)
        obtain ⟨pages, hpages⟩ : ∃ pages, Follows page (i + 1) ((some last).map token) pages :=
          ih _ (hk ▸ hfewer) (Nat.le_succ_of_le hi) rfl
        exact ⟨_, .more hitems hpages⟩
  generalize hk : n - i = k
  induction k generalizing i after with
  | zero => exact hsettled (Nat.le_of_sub_eq_zero hk) rfl
  | succ k ih => exact hmore fun last => ih (i + 1) (some last) (by omega)

end

/-- The token with which a listing goes on after an id: the id itself where ids are found by tags, and
else the place of the id among those of its type. -/
def Resource.tokenAfter (code : String) (tags : Tags) (id : String) : String :=
  if tags.isEmpty then Listing.token (Listing.startAfter code id) else id

/-- Whether a resource is stored and carries all the tags that a query asks for. -/
def Resource.Meets (setup : Setup) (m : Memory) (t : ResourceType) (q : ListQuery) (id : String) : Prop :=
  (∃ s, get setup m t.code id = .ok s) ∧ Tag.Carries m t.code q.wanted.entries id

namespace Holds
variable {setup : Setup} {m : Memory} {r : Registry} (h : Holds setup.catalog m r)
  (hc : setup.catalog.Sound) {t : ResourceType} (ht : setup.catalog.Has t)
include h hc ht

/-- A page of ids that goes on after one, stored or not, has the first of those beyond it. -/
theorem pageOfIds_after {tags : Tags} (hplain : ∀ tag ∈ tags.entries, Key.hasDelimiter tag.1 = false)
    {count : Nat} (hcount : 0 < count) (after : Option String) :
    ∃ (ids : List String) (next : Option String), ids.Pairwise (· < ·) ∧
      (∀ id, id ∈ ids ↔ (∀ a ∈ after, a < id) ∧
        (∃ e, r.entries t.code id = some e) ∧ Tag.Carries m t.code tags.entries id) ∧
      Resource.pageOfIds m t.code count tags (after.map (Resource.tokenAfter t.code tags)) =
        .ok (ids.take count, next) ∧
      next = if count < ids.length ∨ tags.isEmpty = false ∧ count = ids.length then
        (ids.take count).getLast?.map (Resource.tokenAfter t.code tags) else none := by
  cases hempty : tags.isEmpty with
  | true =>
    have hnil : tags.entries = [] := List.isEmpty_iff.mp hempty
    have htoken : Resource.tokenAfter t.code tags = Listing.token ∘ Listing.startAfter t.code := by
      funext id
      rw [Resource.tokenAfter, if_pos hempty]
      rfl
    obtain ⟨hasc, hmem, hplaces⟩ := h.rows_after hc ht after
    generalize hrows : m.rows (Listing.canonical t.code 1 (after.map (Listing.startAfter t.code))) = rows
      at hasc hmem hplaces
    have hcanonical : m.rows (Listing.canonical t.code count (after.map (Listing.startAfter t.code))) =
        rows := hrows
    have hfirst : Listing.ids ((rows.take count).map Prod.snd) =
        (rows.map fun row => Listing.idOf row.2).take count := by
      rw [Listing.ids_eq_map, List.map_map, ← List.map_take]
      · rfl
      · intro item hi
        obtain ⟨row, hrow, rfl⟩ := List.mem_map.mp hi
        exact h.isSome_id_of_mem_rows hc ht _ row (hrows ▸ List.mem_of_mem_take hrow)
    have hlast : (rows.take count).getLast?.map Prod.fst =
        ((rows.map fun row => Listing.idOf row.2).take count).getLast?.map (Listing.startAfter t.code) := by
      rw [← List.map_take, List.getLast?_map, Option.map_map]
      cases hlast : (rows.take count).getLast? with
      | none => rfl
      | some row =>
        exact congrArg some (hplaces row (List.mem_of_mem_take (List.mem_of_getLast? hlast)))
    have hpage := Listing.page_eq m t.code hcount (after.map (Listing.startAfter t.code))
    rw [hcanonical, hfirst, hlast, Option.map_map, Option.map_map] at hpage
    refine ⟨_, _, hasc, fun id => (hmem id).trans (and_congr_right fun _ => ?_), ?_, rfl⟩
    · rw [hnil]
      exact ⟨fun he => ⟨he, List.forall_mem_nil _⟩, fun he => he.1⟩
    · rw [Resource.pageOfIds, if_pos hempty, htoken, hpage, List.length_map]
      simp
  | false =>
    have hne : tags.entries ≠ [] := fun hnil => by
      rw [SortedMap.isEmpty, hnil] at hempty
      cases hempty
    have htoken : Resource.tokenAfter t.code tags = id := by
      funext id
      rw [Resource.tokenAfter, hempty]
      rfl
    obtain ⟨ids, hasc, hids, hsearch⟩ := Tag.searchAll_eq h.keyed (h.only hc)
      (hc.hasDelimiter_code ht) hne hplain after
    refine ⟨ids, _, hasc, fun id => (hids id).trans (and_congr_right fun _ => ?_), ?_, rfl⟩
    · refine ⟨fun hcarries => ⟨?_, hcarries⟩, fun he => he.2⟩
      obtain ⟨tag, htag⟩ := List.exists_mem_of_ne_nil _ hne
      exact h.sound.entry_of_tag? hc ht ((h.carries_iff ht).mp hcarries tag htag)
    · have hfull : count < ids.length ∨ true = true ∧ count = ids.length ↔ count ≤ ids.length := by
        rw [and_iff_right rfl]
        exact Nat.le_iff_lt_or_eq.symm
      rw [Resource.pageOfIds, if_neg (by simp [hempty]), htoken, Option.map_id, id_eq,
        hsearch count hcount]
      simp [Tag.Found.first, bind, Except.bind, pure, Except.pure, Nat.le_iff_lt_or_eq]

/-- A page of a query that fits shows the first resources beyond an id that meet it. -/
theorem listPage_after {q : ListQuery} (hq : q.Fits setup t) (i : Nat) (after : Option String) :
    ∃ items next, Resource.listPage setup m t.code q i
        (after.map (Resource.tokenAfter t.code q.wanted)) = .ok (items, next) ∧
      PageAfter Resource.id (Resource.tokenAfter t.code q.wanted)
        (fun s => Resource.get setup m t.code s.id = .ok { s with latest := [] } ∧
          Resource.Meets setup m t q s.id)
        (Resource.Meets setup m t q) after items next := by
  have hcount : 0 < q.pageSize setup := Nat.pos_of_ne_zero hq.count
  obtain ⟨ids, next, hasc, hmem, hpage, hnext⟩ := h.pageOfIds_after hc ht (hq.plain hc ht) hcount after
  have hmeets : ∀ id, Resource.Meets setup m t q id ↔
      (∃ e, r.entries t.code id = some e) ∧ Tag.Carries m t.code q.wanted.entries id := by
    refine fun id => and_congr_left fun _ => ⟨fun ⟨s, hs⟩ => ?_, fun ⟨e, he⟩ => ?_⟩
    · obtain ⟨_, e, _, he, _⟩ := Resource.get_eq_ok h hc hs
      exact ⟨e, he⟩
    · exact ⟨_, Resource.get_some h hc ht he⟩
  have hpageAsc : (ids.take (q.pageSize setup)).Pairwise (· < ·) := hasc.sublist (List.take_sublist _ _)
  have hin : ∀ id ∈ ids.take (q.pageSize setup), id ∈ ids := fun id => List.mem_of_mem_take
  have hnodup : (ids.take (q.pageSize setup)).Nodup := by
    apply hpageAsc.imp
    rintro a b hlt rfl
    exact String.lt_irrefl a hlt
  have hanswer := h.answer_eq hc ht (q := q) hnodup (fun id hid => ((hmem id).mp (hin id hid)).2.1) next
  have hlist := (Resource.list_eq_ok_iff (m := m) ht).mpr
    ⟨hq.withToken (after.map (Resource.tokenAfter t.code q.wanted)),
      Outcome.bind_eq_ok_iff.mpr ⟨_, hpage, hanswer⟩⟩
  have hmap : ((ids.take (q.pageSize setup)).map (r.shown t (q.attached setup t))).map Resource.id =
      ids.take (q.pageSize setup) := by
    rw [List.map_map]
    exact List.map_id _
  refine ⟨_, next, by rw [Resource.listPage, hlist]; rfl, ?_⟩
  refine ⟨hmap.symm ▸ hpageAsc, fun s hs => ?_, fun s hs => ?_, fun id hid hbeyond => ?_, fun text htext => ?_⟩
  · obtain ⟨id, hid, rfl⟩ := List.mem_map.mp hs
    exact ((hmem id).mp (hin id hid)).1
  · obtain ⟨id, hid, rfl⟩ := List.mem_map.mp hs
    obtain ⟨_, ⟨e, he⟩, hcarries⟩ := (hmem id).mp (hin id hid)
    refine ⟨?_, (hmeets id).mpr ⟨⟨e, he⟩, hcarries⟩⟩
    rw [Registry.shown, he]
    exact Resource.get_some h hc ht he
  · rw [hmap]
    have hids := (hmem id).mpr ⟨hbeyond, (hmeets id).mp hid⟩
    rw [← List.take_append_drop (q.pageSize setup) ids, List.mem_append] at hids
    refine hids.imp_right fun hlater => ⟨?_, fun s hs => ?_⟩
    · have hlength : q.pageSize setup < ids.length := by
        have hpos := List.length_pos_of_mem hlater
        rw [List.length_drop] at hpos
        omega
      rw [hnext, if_pos (.inl hlength), ne_eq, Option.map_eq_none_iff, List.getLast?_eq_none_iff,
        List.take_eq_nil_iff, ← List.length_eq_zero_iff]
      omega
    · obtain ⟨first, hfirst, rfl⟩ := List.mem_map.mp hs
      rw [← List.take_append_drop (q.pageSize setup) ids] at hasc
      exact (List.pairwise_append.mp hasc).2.2 first hfirst id hlater
  · rw [hmap]
    rw [hnext] at htext
    split at htext
    · obtain ⟨last, hlast, rfl⟩ := Option.map_eq_some_iff.mp htext
      exact ⟨last, hlast, rfl⟩
    · cases htext

end Holds

namespace Call
variable (setup : Setup) (between : Nat → List Call)

/-- The store that a page of a walk is read of: what is left by all calls made before that page. -/
def storeAt (i : Nat) : Memory := runAll setup ((List.range (i + 1)).flatMap between)

/-- The pages of a walk with calls between them, each page of a size of its own. -/
def pageAt (code : String) (q : ListQuery) (counts : Nat → Option Nat) (i : Nat) (token : Option String) :
    Except Error (List Resource × Option String) :=
  Resource.listPage setup (storeAt setup between i) code { q with count := counts i } i token

variable {setup between}

theorem storeAt_succ (i : Nat) :
    storeAt setup between (i + 1) = (between (i + 1)).foldl (run setup) (storeAt setup between i) := by
  rw [storeAt, List.range_succ, List.flatMap_append, List.flatMap_singleton, runAll, List.foldl_append]
  rfl

theorem storeAt_settled {n : Nat} (hn : ∀ i, n < i → between i = []) {i : Nat} (hi : n ≤ i) :
    storeAt setup between i = storeAt setup between n := by
  induction hi with
  | refl => rfl
  | @step i hi ih => rw [storeAt_succ, hn (i + 1) (Nat.lt_succ_of_le hi), List.foldl_nil, ih]

section
variable (hc : setup.catalog.Sound) (hapart : ∀ code id, setup.catalog.Apart code id)
  (htimely : ∀ i, ∀ call ∈ between i, call.Timely)
include hc hapart htimely

theorem storeAt_holds (i : Nat) : ∃ r, Holds setup.catalog (storeAt setup between i) r := by
  apply runAll_holds hc hapart
  intro call hcall
  obtain ⟨j, _, hj⟩ := List.mem_flatMap.mp hcall
  exact htimely j call hj

variable {t : ResourceType} (ht : setup.catalog.Has t) (q : ListQuery) (counts : Nat → Option Nat)
include ht

theorem pagesAfter : PagesAfter Resource.id (Resource.tokenAfter t.code q.wanted)
    (pageAt setup between t.code q counts)
    (fun i s => Resource.get setup (storeAt setup between i) t.code s.id = .ok { s with latest := [] } ∧
      Resource.Meets setup (storeAt setup between i) t q s.id)
    (fun i => Resource.Meets setup (storeAt setup between i) t q) := by
  intro i after items next hpage
  obtain ⟨r, h⟩ := storeAt_holds hc hapart htimely i
  have hfits : { q with count := counts i }.Fits setup t := Resource.fits_of_listPage ht hpage
  obtain ⟨items', next', hpage', hafter⟩ := h.listPage_after hc ht hfits i after
  obtain ⟨rfl, rfl⟩ := Prod.mk.inj (Except.ok.inj (hpage'.symm.trans hpage))
  exact hafter

/-- A walk comes to an end if calls do. -/
theorem pageAt_ends (hfits : ∀ i, { q with count := counts i }.Fits setup t) {n : Nat}
    (hn : ∀ i, n < i → between i = []) :
    ∃ pages, Follows (pageAt setup between t.code q counts) 0 none pages := by
  obtain ⟨r, h⟩ := storeAt_holds hc hapart htimely n
  obtain ⟨_, hids⟩ := h.ids_of_type hc ht
  refine (pagesAfter hc hapart htimely ht q counts).ends (fun i after => ?_) (n := n)
    (fun i s hi hs => (hids s.id).mpr ?_) 0 none
  · obtain ⟨r, h⟩ := storeAt_holds hc hapart htimely i
    obtain ⟨items, next, hpage, _⟩ := h.listPage_after hc ht (hfits i) i after
    exact ⟨_, hpage⟩
  · rw [storeAt_settled hn hi] at hs
    obtain ⟨_, e, _, he, _⟩ := Resource.get_eq_ok h hc hs.1
    exact ⟨e, he⟩

end

/-- A walk stays true to the stores that its pages are read of, whatever calls are made in between. Its
ids ascend, each page shows resources that meet the query when it is read, and what meets the query
whenever a page is read is shown once. -/
theorem storeAt_walk (settings : Settings) {between : Nat → List Call}
    (htimely : ∀ i, ∀ call ∈ between i, call.Timely) {t : ResourceType} (ht : Catalog.standard.Has t)
    (q : ListQuery) (counts : Nat → Option Nat) {pages : List (List Resource)} :
    let setup : Setup := ⟨.standard, settings⟩
    Follows (pageAt setup between t.code q counts) 0 none pages →
      (pages.flatten.map Resource.id).Pairwise (· < ·) ∧
      (∀ i shown, pages[i]? = some shown → ∀ s ∈ shown,
        Resource.get setup (storeAt setup between i) t.code s.id = .ok { s with latest := [] } ∧
        Resource.Meets setup (storeAt setup between i) t q s.id) ∧
      ∀ id, (∀ i < pages.length, Resource.Meets setup (storeAt setup between i) t q id) →
        (pages.flatten.map Resource.id).count id = 1 := by
  intro setup hp
  have hc : setup.catalog.Sound := Catalog.standard_sound
  have hafter := pagesAfter hc Catalog.standard_apart htimely ht q counts
  have hstart : Follows (pageAt setup between t.code q counts) 0
    ((none : Option String).map (Resource.tokenAfter t.code q.wanted)) pages := hp
  have hasc := (hafter.ascending hstart).1
  refine ⟨hasc, fun i shown hi s hs => ?_, fun id hid => ?_⟩
  · have hshown := hafter.shown hstart i hi s hs
    rwa [Nat.zero_add] at hshown
  · have hnodup : (pages.flatten.map Resource.id).Nodup := by
      apply hasc.imp
      rintro a b hlt rfl
      exact String.lt_irrefl a hlt
    rw [hnodup.count, if_pos]
    refine hafter.covers hstart (fun i hi => ?_) (fun a ha => absurd ha (by simp))
    rw [Nat.zero_add]
    exact hid i hi

/-- Creates two wide groups, and once a page is read another one between them; that which the page showed is
deleted. -/
def widening : Nat → List Call
  | 0 => [.create ⟨0, 0⟩ ⟨some "a", 0⟩ "g" ⟨.ofList [("name", .string "Alps")], .ofList [("area", "wide")]⟩ "u",
      .create ⟨1, 0⟩ ⟨some "c", 0⟩ "g" ⟨.ofList [("name", .string "Tatra")], .ofList [("area", "wide")]⟩ "u"]
  | 1 => [.create ⟨2, 0⟩ ⟨some "b", 0⟩ "g" ⟨.ofList [("name", .string "Harz")], .ofList [("area", "wide")]⟩ "u",
      .delete "g" "a"]
  | _ => []

theorem timely_widening : ∀ i, ∀ call ∈ widening i, call.Timely := by
  intro i
  rcases i with _ | _ | n
  · simp only [widening, List.forall_mem_cons, List.not_mem_nil, false_implies, implies_true, and_true]
    exact ⟨⟨by decide, by decide, by decide⟩, by decide, by decide, by decide⟩
  · simp only [widening, List.forall_mem_cons, List.not_mem_nil, false_implies, implies_true, and_true]
    exact ⟨⟨by decide, by decide, by decide⟩, trivial⟩
  · exact List.forall_mem_nil _

theorem widening_settled {i : Nat} (hi : 1 < i) : widening i = [] := by
  rcases i with _ | _ | n
  · exact absurd hi (by decide)
  · exact absurd hi (by decide)
  · rfl

theorem storeAt_walk_widening :
    let setup : Setup := ⟨.standard, {}⟩
    let q : ListQuery := { tags := .ofList [("area", "wide")] }
    (∀ i, ∀ call ∈ widening i, call.Timely) ∧ Catalog.standard.Has Catalog.group ∧
      ∃ pages, Follows (pageAt setup widening "g" q fun _ => some 1) 0 none pages ∧
        (∀ i, Resource.Meets setup (storeAt setup widening i) Catalog.group q "c") ∧
        (pages.flatten.map Resource.id).count "c" = 1 := by
  intro setup q
  have ht : Catalog.standard.Has Catalog.group := rfl
  have hc : setup.catalog.Sound := Catalog.standard_sound
  have hafter := fun counts => pagesAfter hc Catalog.standard_apart timely_widening ht q counts
  have hmeets : ∀ i, Resource.Meets setup (storeAt setup widening i) Catalog.group q "c" := by
    have hlisted : ∀ i < 2, ((pageAt setup widening "g" q (fun _ => some 9) i none).toOption.any
        fun page => (page.1.map Resource.id).contains "c") = true := by
      decide +kernel
    have hearly : ∀ i < 2, Resource.Meets setup (storeAt setup widening i) Catalog.group q "c" := by
      intro i hi
      have hin := hlisted i hi
      cases hpage : pageAt setup widening "g" q (fun _ => some 9) i none with
      | error err =>
        rw [hpage] at hin
        cases hin
      | ok page =>
        rw [hpage] at hin
        obtain ⟨s, hs, hid⟩ := List.mem_map.mp (List.contains_iff_mem.mp hin)
        exact hid ▸ ((hafter _ i none page.1 page.2 hpage).shown s hs).2
    intro i
    rcases Nat.lt_or_ge i 2 with hi | hi
    · exact hearly i hi
    · rw [storeAt_settled (fun _ => widening_settled) (Nat.le_of_lt hi)]
      exact hearly 1 Nat.one_lt_two
  obtain ⟨pages, hpages⟩ := pageAt_ends hc Catalog.standard_apart timely_widening ht q (fun _ => some 1)
    (fun _ => ⟨by decide, by decide, fun _ hf => absurd hf List.not_mem_nil,
      fun hlatest => absurd hlatest Bool.false_ne_true, fun hlatest => absurd hlatest Bool.false_ne_true⟩)
    fun _ => widening_settled
  exact ⟨timely_widening, ht, pages, hpages, hmeets,
    (storeAt_walk {} timely_widening ht q _ hpages).2.2 "c" fun i _ => hmeets i⟩

end Call

end TagStore
