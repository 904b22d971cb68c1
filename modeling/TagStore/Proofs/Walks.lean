import TagStore.Proofs.MemoryPages
import TagStore.Proofs.Outcome
import TagStore.Proofs.Transactions
import TagStore.Tag.Basic

namespace TagStore

namespace Memory.Keyed
variable {m : Memory} (hm : m.Keyed)
include hm

/-- No two keys hold the same item. -/
theorem key_eq {k k' : ItemKey} {item : Item} (h : (k, item) ∈ m.items.entries)
    (h' : (k', item) ∈ m.items.entries) : k = k' := by
  have hk := hm k item (SortedMap.mem_entries_iff.mp h)
  have hk' := hm k' item (SortedMap.mem_entries_iff.mp h')
  exact Except.ok.inj (hk.symm.trans hk')

/-- An item has one place in an index. -/
theorem place_eq {index : Index} {hash stem : String} {p q : Selection.Place} {item : Item}
    (hp : (p, item) ∈ (Selection.indexed places index hash stem m.items.entries).entries)
    (hq : (q, item) ∈ (Selection.indexed places index hash stem m.items.entries).entries) : p = q := by
  obtain ⟨range, key⟩ := p
  obtain ⟨range', key'⟩ := q
  obtain ⟨hp, hplace, _⟩ := (Selection.mem_indexed m.items.sorted).mp hp
  obtain ⟨hq, hplace', _⟩ := (Selection.mem_indexed m.items.sorted).mp hq
  obtain rfl : key = key' := hm.key_eq hp hq
  have hrange := hplace.symm.trans hplace'
  simp only [Option.some.injEq, Prod.mk.injEq, true_and] at hrange
  rw [hrange]

/-- A read finds no item twice. -/
theorem nodup_rows (r : Read) : ((m.rows r).map Prod.snd).Nodup := by
  obtain ⟨range, limit, start⟩ := r
  rw [rows]
  cases range with
  | partition partition stem ascending =>
    have ho := (Selection.ordered_partition m.items.sorted partition
      (fun r => r.1.partition = partition && Text.beginsWith r.1.sort stem)
      (by simp +contextual)).directed ascending
    rw [Selection.select_partition, List.map_map]
    apply (ho.filter _).nodup_map
    intro x hx y hy hxy
    have hx := (List.mem_filter.mp (Selection.mem_directed.mp (List.mem_filter.mp hx).1)).1
    have hy := (List.mem_filter.mp (Selection.mem_directed.mp (List.mem_filter.mp hy).1)).1
    have hsame : x.2 = y.2 := hxy
    exact congrArg ItemKey.sort (hm.key_eq hx (hsame ▸ hy))
  | index index hash stem ascending =>
    have ho := (Selection.ordered_entries
      (Selection.indexed places index hash stem m.items.entries).sorted).directed ascending
    rw [Selection.select_index, List.map_map]
    apply (ho.filter _).nodup_map
    intro x hx y hy hxy
    have hx := Selection.mem_directed.mp (List.mem_filter.mp hx).1
    have hy := Selection.mem_directed.mp (List.mem_filter.mp hy).1
    have hsame : x.2 = y.2 := hxy
    exact hm.place_eq hx (hsame ▸ hy)
  | partitions partitions =>
    have ho := Selection.ordered_entries m.items.sorted
    rw [Selection.select_partitions, List.map_map]
    apply ((ho.filter _).filter _).nodup_map
    intro x hx y hy hxy
    have hx := (List.mem_filter.mp (List.mem_filter.mp hx).1).1
    have hy := (List.mem_filter.mp (List.mem_filter.mp hy).1).1
    have hsame : x.2 = y.2 := hxy
    exact hm.key_eq hx (hsame ▸ hy)

end Memory.Keyed

namespace Walk

/-- The pages that a walk comes by, one after the other, and the walk from there. -/
inductive Passes {σ : Type} [Store σ] (s : σ) : Walk → List (List Item) → Walk → Prop where
  | stay (w : Walk) : Passes s w [] w
  | page {w w' w'' : Walk} {items : List Item} {pages : List (List Item)}
    (h : w.next s = .ok (some items, w')) (hrest : Passes s w' pages w'') :
    Passes s w (items :: pages) w''

/-- Whether a walk comes by these pages and no others. -/
def Ends {σ : Type} [Store σ] (s : σ) (w : Walk) (pages : List (List Item)) : Prop :=
  ∃ w', Passes s w pages w' ∧ w'.next s = .ok (none, w')

/-- Whether a walk ends and comes by some items, each time by as many of them as a page may have until
there are no more. -/
structure Covers {σ : Type} [Store σ] (s : σ) (w : Walk) (size : Nat) (items : List Item) : Prop where
  ends : ∃ pages, w.Ends s pages
  whole : ∀ pages, w.Ends s pages → pages.flatten = items
  rest : w.rest s = .ok items
  pages : ∀ pages w', w.Passes s pages w' → (∀ page ∈ pages, page.length ≤ size) ∧
    (w'.next s = .ok (none, w') ∨
      (∀ page ∈ pages, page.length = size) ∧ (pages ≠ [] → w'.position.isSome = true))

/-- A walk that has reached the end stays there. -/
theorem Passes.eq_of_exhausted {σ : Type} [Store σ] {s : σ} {w w' : Walk} {pages : List (List Item)}
    (h : Passes s w pages w') (hw : w.exhausted = true) : w' = w := by
  cases h with
  | stay w => rfl
  | page hnext _ =>
    rw [next, hw] at hnext
    cases hnext

section
variable {m : Memory} {size : Nat} (hsize : 0 < size)
include hsize

theorem next_eq_some {w w' : Walk} (hlimit : w.read.limit = some size) {items : List Item}
    (h : w.next m = .ok (some items, w')) :
    items = (m.ahead w).take size ∧ m.ahead w' = (m.ahead w).drop size ∧
      w'.exhausted = decide ((m.ahead w).length ≤ size) ∧ w'.position.isNone = w'.exhausted ∧
      w'.read = { w.read with start := w'.position } := by
  have hw : w.exhausted = false := by
    cases hw : w.exhausted with
    | false => rfl
    | true =>
      rw [next, hw] at h
      cases h
  obtain ⟨u, hnext, hu⟩ := m.next_limited hw hlimit hsize
  rw [h, Except.ok.injEq, Prod.mk.injEq, Option.some.injEq] at hnext
  obtain ⟨rfl, rfl⟩ := hnext
  exact ⟨rfl, hu⟩

namespace Passes

/-- A walk goes on with the same read from where it stands. -/
theorem read_eq {w w' : Walk} {pages : List (List Item)} (h : Passes m w pages w')
    (hlimit : w.read.limit = some size) : w'.read = { w.read with start := w'.position } := by
  induction h with
  | stay w => rfl
  | page hnext _ ih =>
    obtain ⟨_, _, _, _, hread⟩ := next_eq_some hsize hlimit hnext
    rw [ih (by rw [hread]; exact hlimit), hread]

/-- What a walk has come by and what is still to come are what was to come. -/
theorem flatten_append {w w' : Walk} {pages : List (List Item)} (h : Passes m w pages w')
    (hlimit : w.read.limit = some size) : pages.flatten ++ m.ahead w' = m.ahead w := by
  induction h with
  | stay w => rfl
  | page hnext _ ih =>
    obtain ⟨hitems, hahead, _, _, hread⟩ := next_eq_some hsize hlimit hnext
    rw [List.flatten_cons, List.append_assoc, ih (by rw [hread]; exact hlimit), hahead, hitems,
      List.take_append_drop]

theorem length_le {w w' : Walk} {pages : List (List Item)} (h : Passes m w pages w')
    (hlimit : w.read.limit = some size) : ∀ page ∈ pages, page.length ≤ size := by
  induction h with
  | stay w => exact nofun
  | page hnext _ ih =>
    obtain ⟨hitems, _, _, _, hread⟩ := next_eq_some hsize hlimit hnext
    rw [List.forall_mem_cons]
    refine ⟨?_, ih (by rw [hread]; exact hlimit)⟩
    rw [hitems]
    exact List.length_take_le _ _

/-- A walk that has not reached the end has come by full pages only, and stands at a position. -/
theorem full {w w' : Walk} {pages : List (List Item)} (h : Passes m w pages w')
    (hlimit : w.read.limit = some size) (hw : w'.exhausted = false) :
    (∀ page ∈ pages, page.length = size) ∧ (pages ≠ [] → w'.position.isSome = true) := by
  induction h with
  | stay w => exact ⟨nofun, fun h => absurd rfl h⟩
  | @page w u w' items pages hnext hrest ih =>
    obtain ⟨hitems, hahead, hend, hposition, hread⟩ := next_eq_some hsize hlimit hnext
    have hu : u.exhausted = false := by
      cases hu : u.exhausted with
      | false => rfl
      | true =>
        rw [hrest.eq_of_exhausted hu, hu] at hw
        cases hw
    rw [hu] at hend hposition
    have hmore := of_decide_eq_false hend.symm
    obtain ⟨hpages, hsome⟩ := ih (by rw [hread]; exact hlimit) hw
    refine ⟨List.forall_mem_cons.mpr ⟨?_, hpages⟩, fun _ => ?_⟩
    · rw [hitems, List.length_take]
      omega
    · cases hrest with
      | stay u => exact Option.isNone_eq_false_iff.mp hposition
      | page hnext' hrest' => exact hsome (List.cons_ne_nil _ _)

/-- A walk goes on as long as it stands at a position. -/
theorem more_of_position {w w' : Walk} {pages : List (List Item)} (h : Passes m w pages w')
    (hlimit : w.read.limit = some size) (hw : w.exhausted = false) {position : StartKey}
    (hposition : w'.position = some position) : w'.exhausted = false := by
  induction h with
  | stay w => exact hw
  | @page w u w' items pages hnext hrest ih =>
    obtain ⟨_, _, _, hnone, hread⟩ := next_eq_some hsize hlimit hnext
    cases hu : u.exhausted with
    | false => exact ih (by rw [hread]; exact hlimit) hu hposition
    | true =>
      rw [hrest.eq_of_exhausted hu] at hposition
      rw [hposition, hu] at hnone
      cases hnone

end Passes

/-- A walk ends, for each page leaves less to come. -/
theorem exists_ends (m : Memory) {w : Walk} (hlimit : w.read.limit = some size) :
    ∃ pages, w.Ends m pages := by
  -- By induction on how much is still to come: a page that is not the last one is full.
  generalize hn : (m.ahead w).length = n
  induction n using Nat.strongRecOn generalizing w with
  | ind n ih =>
    cases hw : w.exhausted with
    | true => exact ⟨[], w, .stay w, by rw [next, hw]; rfl⟩
    | false =>
      obtain ⟨u, hnext, hahead, hend, _, hread⟩ := m.next_limited hw hlimit hsize
      cases hu : u.exhausted with
      | true => exact ⟨_, u, .page hnext (.stay u), by rw [next, hu]; rfl⟩
      | false =>
        rw [hu] at hend
        have hmore := of_decide_eq_false hend.symm
        have hless : (m.ahead u).length < n := by
          rw [hahead, List.length_drop]
          omega
        obtain ⟨pages, w', hpages, hlast⟩ := ih _ hless (by rw [hread]; exact hlimit) rfl
        exact ⟨_, w', .page hnext hpages, hlast⟩

theorem collect_eq (m : Memory) {w : Walk} (hlimit : w.read.limit = some size) {pages : Nat}
    (hpages : (m.ahead w).length < pages) : w.collect m pages = .ok (m.ahead w) := by
  induction pages generalizing w with
  | zero => omega
  | succ pages ih =>
    cases hw : w.exhausted with
    | true =>
      rw [collect, next, hw, Memory.ahead, hw]
      rfl
    | false =>
      obtain ⟨u, hnext, hahead, hend, _, hread⟩ := m.next_limited hw hlimit hsize
      have hrest : u.collect m pages = .ok (m.ahead u) := by
        cases hu : u.exhausted with
        | true =>
          rw [Memory.ahead, hu]
          cases pages with
          | zero => rfl
          | succ pages =>
            rw [collect, next, hu]
            rfl
        | false =>
          rw [hu] at hend
          have hmore := of_decide_eq_false hend.symm
          apply ih (by rw [hread]; exact hlimit)
          rw [hahead, List.length_drop]
          omega
      rw [collect, hnext]
      simp only [bind, Except.bind, hrest, pure, Except.pure]
      rw [hahead, List.take_append_drop]

/-- A walk with a limit covers what is to come. -/
theorem covers (m : Memory) {w : Walk} (hlimit : w.read.limit = some size) :
    w.Covers m size (m.ahead w) where
  ends := exists_ends hsize m hlimit
  whole := by
    intro pages hends
    obtain ⟨w', hpages, hlast⟩ := hends
    have hw' : w'.exhausted = true := by
      cases hw' : w'.exhausted with
      | true => rfl
      | false =>
        obtain ⟨_, hnext, _⟩ := m.next_limited hw' (by rw [hpages.read_eq hsize hlimit]; exact hlimit) hsize
        rw [hnext] at hlast
        cases hlast
    rw [← hpages.flatten_append hsize hlimit, Memory.ahead, hw']
    exact (List.append_nil _).symm
  rest := by
    apply collect_eq hsize m hlimit
    apply Nat.lt_succ_of_le
    rw [Memory.ahead]
    split
    · exact Nat.zero_le _
    · rw [List.length_map]
      exact m.length_rows_le _
  pages := by
    intro pages w' hpages
    refine ⟨hpages.length_le hsize hlimit, ?_⟩
    cases hw' : w'.exhausted with
    | true => exact .inl (by rw [next, hw']; rfl)
    | false => exact .inr (hpages.full hsize hlimit hw')

end

end Walk

/-- A walk through pages of any size ends and comes by what the same read finds at once, without an item
missing or found twice. Where it stands after a page, another walk may go on with pages of another size. -/
theorem Memory.Reached.walk_covers {m : Memory} (hm : m.Reached) (r : Read) {size : Nat}
    (hsize : 0 < size) : ∃ items,
      Store.read m { r with limit := none } = .ok ⟨items, none⟩ ∧ items.Nodup ∧
      (Walk.ofRead { r with limit := some size }).Covers m size items ∧
      ∀ pages w position, (Walk.ofRead { r with limit := some size }).Passes m pages w →
        w.position = some position → ∀ size', 0 < size' → ∃ others, items = pages.flatten ++ others ∧
          (Walk.ofRead { r with limit := some size', start := some position }).Covers m size' others := by
  refine ⟨(m.rows r).map Prod.snd, m.read_unlimited rfl, hm.keyed.nodup_rows r,
    Walk.covers hsize m rfl, ?_⟩
  intro pages w position hpages hposition size' hsize'
  refine ⟨m.ahead (Walk.ofRead { r with limit := some size', start := some position }), ?_,
    Walk.covers hsize' m rfl⟩
  have hw := hpages.more_of_position hsize rfl rfl hposition
  have hread := hpages.read_eq hsize rfl
  have hahead := hpages.flatten_append hsize rfl
  rw [hposition] at hread
  rw [Memory.ahead, hw, hread] at hahead
  exact hahead.symm

/-- Both tags of a resource, the last one first and each on a page of its own. -/
theorem Memory.Reached.walk_covers_two_tags :
    let m := (Memory.empty.transact [.put (Tag.item (Key.resource "r" "a") "x" "1") none,
      .put (Tag.item (Key.resource "r" "a") "y" "2") none]).2
    let r : Read := { range := .partition (Key.resource "r" "a") "tk:" false }
    m.Reached ∧ ∃ items, Store.read m r = .ok ⟨items, none⟩ ∧
      items.map (·.text? Attribute.tagName) = [some "y", some "x"] ∧
      (Walk.ofRead { r with limit := some 1 }).Covers m 1 items := by
  intro m r
  have hm : m.Reached := .transact _ .empty
  obtain ⟨items, hread, _, hcovers, _⟩ := hm.walk_covers r Nat.one_pos
  refine ⟨hm, items, hread, ?_, hcovers⟩
  have hnames : (Store.read m r).toOption.map (fun page => page.items.map (·.text? Attribute.tagName)) =
      some [some "y", some "x"] := by decide +kernel
  change Store.read m r = .ok ⟨items, none⟩ at hread
  rw [hread] at hnames
  exact Option.some.inj hnames

end TagStore
