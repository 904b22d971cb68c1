import TagStore.Proofs.Simulation

namespace TagStore

/-- Whether a page shows as many of some rows as a limit allows, and tells whether there are more. -/
structure Page.Shows (rows : List (ItemKey × Row)) (limit : Nat) (page : Page) : Prop where
  items : page.items.map some = (rows.take limit).map fun row => row.2.item?
  exhausted : page.last = none ↔ rows.length ≤ limit
  position : ∀ start, page.last = some start → (rows.take limit).getLast?.map Prod.fst = some start.key

namespace Database
variable {d : Database} {r : Read} {limit : Nat} {rows : List (ItemKey × Row)}

/-- All rows that a read asks for, in order: what its statement matches without a limit. -/
def matched (d : Database) (r : Read) : List (ItemKey × Row) :=
  (statement { r with limit := none }).matching d.rows.entries

theorem matching_eq_matched (d : Database) (r : Read) : (statement r).matching d.rows.entries = d.matched r := by
  obtain ⟨range, limit, start⟩ := r
  cases range <;> rfl

/-- Where stems have no null character, these are the rows that the read is about. -/
theorem matched_eq_found (d : Database) (hr : r.range.NoNull) :
    d.matched r = (d.found r).map fun x => (x.1.key, x.2) :=
  matching_statement d.rows.sorted (r := { r with limit := none }) hr

/-- Every row that is matched has a place to go on after it. -/
theorem position_of_matched {row : ItemKey × Row} (hrow : row ∈ d.matched r) :
    ∃ start, position r.range row = .ok start ∧ start.key = row.1 := by
  obtain ⟨range, limit, start⟩ := r
  cases range with
  | partition partition stem ascending => exact ⟨_, rfl, rfl⟩
  | partitions partitions => exact ⟨_, rfl, rfl⟩
  | index index hash stem ascending =>
    have hclauses := (List.mem_filter.mp (List.mem_mergeSort.mp hrow)).2
    have hstem : Clause.holds row (.begins index.columns.2 stem) = true := by
      apply List.all_eq_true.mp hclauses
      simp [statement]
    obtain ⟨cell, hcell, _⟩ := (Option.any_eq_true _ _).mp hstem
    exact ⟨⟨row.1.partition, row.1.sort, some ⟨hash, cell⟩⟩, by simp only [position, hcell], rfl⟩

theorem signed_of_le {n : Nat} (h : Nat.pow 2 63 ≤ n) (h' : n < Nat.pow 2 64) : signed n < 0 := by
  have hpow : Nat.pow 2 64 = Nat.pow 2 63 * 2 := rfl
  have hmod : (n : Int) % (Nat.pow 2 64 : Nat) = n := Int.emod_eq_of_lt (by omega) (by omega)
  rw [signed, Int.bmod_def, hmod, if_neg (by omega)]
  omega

theorem limit_statement (hlimit : r.limit = some limit) : (statement r).limit = signed (limit + 1) := by
  cases h : r.range <;> simp only [statement, h, hlimit, fetchLimit]

/-- Up to the greatest limit but one, a row more than a page may have is asked for, or all rows are. -/
theorem run_cases (d : Database) (hlimit : r.limit = some limit) (hword : limit + 1 < Nat.pow 2 64) :
    (statement r).run d.rows.entries = (d.matched r).take (limit + 1) ∨
      (statement r).run d.rows.entries = d.matched r := by
  rw [Statement.run, matching_eq_matched, limit_statement hlimit]
  rcases Nat.lt_or_ge (limit + 1) (Nat.pow 2 63) with hsmall | hlarge
  · have hfetch : signed (limit + 1) = (limit + 1 : Nat) := signed_of_lt hsmall
    rw [hfetch, if_neg (by omega)]
    exact .inl rfl
  · have hfetch : signed (limit + 1) < 0 := signed_of_le hlarge hword
    rw [if_pos hfetch]
    exact .inr rfl

/-- A page that shows some rows shows all of them, or those before the one that was asked for beyond it. -/
theorem shows_of_run {rows' : List (ItemKey × Row)} {p : Page} (h : p.Shows rows' limit)
    (hrows : rows' = rows.take (limit + 1) ∨ rows' = rows) : p.Shows rows limit := by
  rcases hrows with rfl | rfl
  · have htake : (rows.take (limit + 1)).take limit = rows.take limit := by
      rw [List.take_take, Nat.min_eq_left (Nat.le_succ limit)]
    obtain ⟨hitems, hexhausted, hposition⟩ := h
    rw [htake] at hitems hposition
    refine ⟨hitems, hexhausted.trans ?_, hposition⟩
    rw [List.length_take]
    omega
  · exact h

section
variable (hlimit : r.limit = some limit) (hpos : 0 < limit)
  (hplaced : ∀ row ∈ rows, ∃ start, position r.range row = .ok start ∧ start.key = row.1)
include hlimit hpos hplaced

/-- The position of a page is that of its last row, if there are more. -/
theorem page_eq_bind : ∃ last : Option StartKey,
    page r rows = ((rows.take limit).mapM fun row => item row.2).map (fun items => ⟨items, last⟩) ∧
      (last = none ↔ rows.length ≤ limit) ∧
      ∀ start, last = some start → (rows.take limit).getLast?.map Prod.fst = some start.key := by
  by_cases hmore : (rows.take limit).length < rows.length
  · have hlast : (rows.take limit).getLast? ≠ none := by
      rw [List.length_take] at hmore
      rw [Ne, List.getLast?_eq_none_iff, List.take_eq_nil_iff, ← List.length_eq_zero_iff]
      omega
    obtain ⟨row, hrow⟩ := Option.ne_none_iff_exists'.mp hlast
    obtain ⟨start, hstart, hkey⟩ := hplaced row (List.mem_of_mem_take (List.mem_of_getLast? hrow))
    refine ⟨some start, ?_, ?_, ?_⟩
    · have hposition : (some row).mapM (position r.range) = .ok (some start) := by
        change some <$> position r.range row = _
        rw [hstart]
        rfl
      simp only [page, hlimit, Option.getD_some, if_pos hmore, hrow, hposition]
      cases (rows.take limit).mapM fun row => item row.2 <;> rfl
    · rw [List.length_take] at hmore
      simp only [reduceCtorEq, false_iff]
      omega
    · intro start' hstart'
      cases hstart'
      rw [hrow, hkey]
      rfl
  · refine ⟨none, ?_, ?_, fun start hstart => ?_⟩
    · simp only [page, hlimit, Option.getD_some, if_neg hmore]
      cases (rows.take limit).mapM fun row => item row.2 <;> rfl
    · rw [List.length_take] at hmore
      simp only [true_iff]
      omega
    · cases hstart

theorem page_shows {p : Page} (h : page r rows = .ok p) : p.Shows rows limit := by
  obtain ⟨last, heq, hexhausted, hposition⟩ := page_eq_bind hlimit hpos hplaced
  rw [heq] at h
  cases hitems : (rows.take limit).mapM fun row => item row.2 with
  | error e =>
    rw [hitems] at h
    cases h
  | ok items =>
    rw [hitems] at h
    cases h
    exact ⟨Outcome.map_eq_of_mapM (fun row i hi => (item_eq_ok_iff.mp hi).symm) hitems, hexhausted, hposition⟩

theorem page_of_readable (hreadable : ∀ row ∈ rows.take limit, row.2.item? ≠ none) :
    ∃ p, page r rows = .ok p := by
  obtain ⟨last, heq, _⟩ := page_eq_bind hlimit hpos hplaced
  have hitems : (rows.take limit).mapM (fun row => item row.2) =
      .ok ((rows.take limit).map fun row => row.2.item?.getD .empty) := by
    apply Outcome.mapM_eq_ok
    intro row hrow
    obtain ⟨i, hi⟩ := Option.ne_none_iff_exists'.mp (hreadable row hrow)
    rw [item_eq_ok_iff, hi, Option.getD_some]
  rw [hitems] at heq
  exact ⟨_, heq⟩

end

/-- No partitions hold no rows, and no statement is made for them. -/
theorem read_none (hrange : r.range = .partitions []) (hzero : r.limit ≠ some 0) :
    d.matched r = [] ∧ d.read r = .ok .empty := by
  constructor
  · rw [matched, hrange, matching_partitions d.rows.sorted]
    simp
  · simp only [Database.read, Read.checkLimit, if_neg hzero, hrange, if_true, bind, Except.bind, pure, Except.pure]

theorem read_eq_page (hrange : r.range ≠ .partitions []) (hzero : r.limit ≠ some 0) : d.read r =
    if maxParameters < (statement r).parameters then .error .database
    else page r ((statement r).run d.rows.entries) := by
  simp only [Database.read, Read.checkLimit, if_neg hzero, if_neg hrange, select, bind, Except.bind, pure,
    Except.pure]
  by_cases hlong : maxParameters < (statement r).parameters
  · rw [if_pos hlong, if_pos hlong]
  · rw [if_neg hlong, if_neg hlong]

/-- A page never hides rows, up to the greatest limit but one: it shows as many of the rows that the read
asks for as it may, and says that there are no more only if there are none. -/
theorem read_shows_matched (d : Database) {r : Read} {limit : Nat} (hlimit : r.limit = some limit)
    (hpos : 0 < limit) (hword : limit + 1 < Nat.pow 2 64) :
    (∀ p, d.read r = .ok p → p.Shows (d.matched r) limit) ∧
      ((statement r).parameters ≤ maxParameters →
        (∀ row ∈ (d.matched r).take limit, row.2.item? ≠ none) → ∃ p, d.read r = .ok p) ∧
      (r.range.NoNull → d.matched r = (d.found r).map fun x => (x.1.key, x.2)) := by
  have hzero : r.limit ≠ some 0 := by
    rw [hlimit]
    simpa using Nat.pos_iff_ne_zero.mp hpos
  have hrun := run_cases d hlimit hword
  have hplaced : ∀ row ∈ (statement r).run d.rows.entries,
      ∃ start, position r.range row = .ok start ∧ start.key = row.1 := by
    intro row hrow
    rcases hrun with htake | hall
    · exact position_of_matched (List.mem_of_mem_take (htake ▸ hrow))
    · exact position_of_matched (hall ▸ hrow)
  by_cases hrange : r.range = .partitions []
  · obtain ⟨hnone, hempty⟩ := read_none (d := d) hrange hzero
    rw [hempty, hnone]
    refine ⟨fun p hp => ?_, fun _ _ => ⟨_, rfl⟩, fun hr => hnone ▸ d.matched_eq_found hr⟩
    cases hp
    exact ⟨by simp [Page.empty], by simp [Page.empty], nofun⟩
  · rw [read_eq_page hrange hzero]
    refine ⟨fun p hp => ?_, fun hparameters hreadable => ?_, d.matched_eq_found⟩
    · split at hp
      · cases hp
      · exact shows_of_run (page_shows hlimit hpos hplaced hp) hrun
    · rw [if_neg (Nat.not_lt.mpr hparameters)]
      apply page_of_readable hlimit hpos hplaced
      rcases hrun with htake | hall
      · rwa [htake, List.take_take, Nat.min_eq_left (Nat.le_succ limit)]
      · rwa [hall]

/-- One of two rows, and the way to the other. -/
theorem read_shows_matched_one_of_two :
    let first : Item := .ofTexts [("pk", "a"), ("sk", "x")]
    let second : Item := .ofTexts [("pk", "a"), ("sk", "y")]
    let d : Database := ⟨.ofList [(⟨"a", "x"⟩, .of first), (⟨"a", "y"⟩, .of second)], false⟩
    let r : Read := ⟨.partition "a" "" true, some 1, none⟩
    ∃ p, d.read r = .ok p ∧ p.items = [first] ∧ p.last.map StartKey.key = some ⟨"a", "x"⟩ := by
  intro first second d r
  obtain ⟨hshows, hok, hfound⟩ := read_shows_matched d (r := r) rfl Nat.one_pos (by decide)
  have hmatched : d.matched r = [(⟨"a", "x"⟩, .of first), (⟨"a", "y"⟩, .of second)] := by
    rw [hfound (show Text.NoNull "" by decide)]
    decide +kernel
  have hitem : (Row.of first).item? = some first :=
    Row.item?_of (Item.read?_compact_of_texts (Item.ofTexts_texts _))
  have hreadable : ∀ row ∈ (d.matched r).take 1, row.2.item? ≠ none := by
    simp [hmatched, hitem]
  obtain ⟨p, hp⟩ := hok (by decide) hreadable
  obtain ⟨hitems, hexhausted, hposition⟩ := hshows p hp
  rw [hmatched] at hitems hexhausted hposition
  have hlast : p.last ≠ none := by simp [hexhausted]
  obtain ⟨start, hstart⟩ := Option.ne_none_iff_exists'.mp hlast
  refine ⟨p, hp, ?_, ?_⟩
  · have hone : p.items.map some = [some first] := by simpa [hitem] using hitems
    obtain ⟨item, hp, hfirst⟩ := List.map_eq_singleton_iff.mp hone
    rw [hp, Option.some.inj hfirst]
  · have hkey : some ⟨"a", "x"⟩ = some start.key := hposition start hstart
    rw [hstart, hkey]
    rfl

/-- At the greatest limit the number of rows that is asked for comes round to zero: every page is empty,
and says that there are no more. -/
theorem read_greatest (d : Database) {r : Read} (hlimit : r.limit = some (Nat.pow 2 64 - 1)) {p : Page}
    (h : d.read r = .ok p) : p = .empty := by
  have hzero : r.limit ≠ some 0 := by
    rw [hlimit]
    decide
  by_cases hrange : r.range = .partitions []
  · rw [(read_none hrange hzero).2] at h
    exact (Except.ok.inj h).symm
  · have hrun : (statement r).run d.rows.entries = [] := by
      have hfetch : signed ((Nat.pow 2 64 - 1 : Nat) + 1) = 0 := by decide
      rw [Statement.run, limit_statement hlimit, hfetch]
      rfl
    rw [read_eq_page hrange hzero, hrun] at h
    split at h
    · cases h
    · simpa [page, Page.empty, bind, Except.bind, pure, Except.pure] using h.symm

/-- A row that is there, and a page without it. -/
theorem read_greatest_hides :
    let d : Database := ⟨.ofList [(⟨"a", "x"⟩, .of (.ofTexts [("pk", "a"), ("sk", "x")]))], false⟩
    let r : Read := ⟨.partition "a" "" true, some (Nat.pow 2 64 - 1), none⟩
    (d.matched r).length = 1 ∧ d.read r = .ok .empty := by
  intro d r
  constructor
  · rw [matched_eq_found d (r := r) (show Text.NoNull "" by decide), List.length_map]
    decide +kernel
  · have hok : (d.read r).isOk = true := by decide +kernel
    obtain ⟨p, hp⟩ := Outcome.isOk_iff.mp hok
    rw [hp, read_greatest d rfl hp]

end Database

end TagStore
