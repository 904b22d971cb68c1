import TagStore.Proofs.ProperItems
import TagStore.Proofs.SuccessiveWrites
import TagStore.Store.Backend

namespace TagStore

/-- Whether a table has the rows of some proper items, each under its key. The texts of the rows may read
back to other items, or not at all. -/
structure Database.Keeps (c : Catalog) (d : Database) (items : SortedMap ItemKey Item) : Prop where
  rows : d.rows = items.map Row.of
  keyed : ∀ key item, items.find? key = some item → item.key = .ok key
  proper : ∀ key item, items.find? key = some item → item.Proper c

theorem Database.keeps_empty (c : Catalog) : Database.empty.Keeps c .empty := ⟨rfl, nofun, nofun⟩

/-- A table that refuses a batch stays as it is. -/
theorem Database.eq_of_transact_error {d d' : Database} {ops : List WriteOp} {e : StoreError}
    (h : d.transact ops = (.error e, d')) : d' = d := by
  simp only [transact] at h
  split at h
  · exact (Prod.mk.inj h).2.symm
  · cases h

/-- However often a batch is tried, the table takes it once, or stays as it is. -/
theorem Commit.run_database (d : Database) (ops : List WriteOp) (more : Nat) :
    (∃ e, run ops more (Backend.database d) = (.error e, .database d)) ∨
      ∃ d', d.transact ops = (.ok (), d') ∧ run ops more (Backend.database d) = (.ok (), .database d') := by
  have htransact : Store.transact (Backend.database d) ops =
      ((d.transact ops).1, .database (d.transact ops).2) := rfl
  cases hd : d.transact ops with
  | mk answer d' =>
    rw [hd] at htransact
    cases answer with
    | ok _ =>
      refine .inr ⟨d', rfl, ?_⟩
      cases more <;> rw [run, htransact]
    | error e =>
      obtain rfl := Database.eq_of_transact_error hd
      left
      induction more with
      | zero =>
        rw [run, htransact]
        cases e <;> exact ⟨_, rfl⟩
      | succ more ih =>
        rw [run, htransact]
        cases e with
        | cancelled reasons => exact ih
        | _ => exact ⟨_, rfl⟩

namespace Database.Keeps
variable {c : Catalog} {d : Database} {items : SortedMap ItemKey Item} (h : d.Keeps c items)
  {b : Batch} (hb : b.All (WriteOp.Proper c))
include h hb

/-- A batch of proper items leaves the rows of the items that it comes to. -/
theorem transact {d' : Database} (ht : d.transact b.ops = (.ok (), d')) :
    ∃ items', d'.Keeps c items' ∧ items'.find? = b.effect items := by
  obtain ⟨_, es, hes, rows, hrows, rfl⟩ := Database.of_transact_ok ht
  have hkeyed : b.Keyed := fun e he => (hb.of_mem he).1
  obtain ⟨hapart, hops⟩ := WriteOp.keyed_spec hes
  obtain rfl := hkeyed.eq_entries hapart hops
  rw [h.rows, Simulates.applyAll_eq items (Database.applyAll_eq_ok hrows).1, Except.ok.injEq] at hrows
  have heffect := hkeyed.find?_applyAll items
  have hleft : ∀ key item, b.effect items key = some item → item.key = .ok key ∧ item.Proper c := by
    intro key item hf
    rw [Batch.effect] at hf
    cases hop : b.find? key with
    | none =>
      rw [hop] at hf
      exact ⟨h.keyed key item hf, h.proper key item hf⟩
    | some op =>
      rw [hop] at hf
      obtain ⟨hkey, hproper⟩ := hb key op hop
      refine ⟨?_, hproper item hf⟩
      cases op with
      | put item' condition =>
        cases hf
        exact hkey
      | delete key' condition => cases hf
  exact ⟨_, ⟨hrows.symm, fun key item hf => (hleft key item (heffect ▸ hf)).1,
    fun key item hf => (hleft key item (heffect ▸ hf)).2⟩, heffect⟩

/-- A batch is committed as a whole, or leaves the table as it is. -/
theorem batch (attempts : Nat) :
    (∃ e, Commit.batch attempts b.ops (Backend.database d) = (.error e, .database d)) ∨
      ∃ d' items', Commit.batch attempts b.ops (Backend.database d) = (.ok (), .database d') ∧
        d'.Keeps c items' ∧ items'.find? = b.effect items := by
  rw [Commit.batch]
  split
  next hempty =>
    have hnone := Batch.find?_of_ops_eq_nil (List.isEmpty_iff.mp hempty)
    exact .inr ⟨d, items, rfl, h, funext fun key => by rw [Batch.effect, hnone]⟩
  next =>
    rcases Commit.run_database d b.ops (attempts - 1) with hfailed | ⟨d', ht, hdone⟩
    · exact .inl hfailed
    · obtain ⟨items', hrest⟩ := h.transact hb ht
      exact .inr ⟨d', items', hdone, hrest⟩

/-- A planned batch fails and leaves the table as it is, or is committed and then answered for. -/
theorem carryOut {α : Type} (attempts : Nat) (answer : Backend → Except Error α) :
    (∃ e, Resource.carryOut attempts (Backend.database d) answer (.ok b.ops) = (.error e, .database d)) ∨
      ∃ d' items', Resource.carryOut attempts (Backend.database d) answer (.ok b.ops) =
        (answer (.database d'), .database d') ∧ d'.Keeps c items' ∧ items'.find? = b.effect items := by
  rcases h.batch hb attempts with ⟨e, hfailed⟩ | ⟨d', items', hdone, hrest⟩
  · exact .inl ⟨e, by rw [Resource.carryOut, hfailed]⟩
  · exact .inr ⟨d', items', by rw [Resource.carryOut, hdone], hrest⟩

omit hb in
/-- Whatever is planned, the table goes on to keep proper items. -/
theorem planned {α : Type} (attempts : Nat) (answer : Backend → Except Error α)
    {plan : Except Error (List WriteOp)}
    (hplan : ∀ ops, plan = .ok ops → ∃ b, ops = Batch.ops b ∧ b.All (WriteOp.Proper c)) :
    ∃ d' items', (Resource.carryOut attempts (Backend.database d) answer plan).2 = .database d' ∧
      d'.Keeps c items' := by
  cases plan with
  | error e => exact ⟨d, items, rfl, h⟩
  | ok ops =>
    obtain ⟨b, rfl, hb⟩ := hplan ops rfl
    rcases h.carryOut hb attempts answer with ⟨e, hfailed⟩ | ⟨d', items', hdone, hkeeps, _⟩
    · exact ⟨d, items, by rw [hfailed], h⟩
    · exact ⟨d', items', by rw [hdone], hkeeps⟩

end Database.Keeps

/-- Whether the tag that stands for a value of a resource's field is among some items. -/
def Resource.TaggedIn (items : SortedMap ItemKey Item) (t : ResourceType) (field value id : String) : Prop :=
  items.find? (Tag.key (Key.resource t.code id) (Key.reserved field)) =
    some (Tag.item (Key.resource t.code id) (Key.reserved field) value)

namespace Resource
variable {setup : Setup} (hc : setup.catalog.Checked) {d : Database} {items : SortedMap ItemKey Item}
  (h : d.Keeps setup.catalog items)
include hc h

/-- Creating a resource fails and leaves the table as it is, or leaves one with tags for the searchable
fields that were given, and shows what can be read of the resource there. -/
theorem create_keeps (now : Instant) (ids : Ids) (code : String) (new : NewResource) (user : String) :
    let done := create setup now ids (Backend.database d) code new user
    ((∃ e, done.1 = .error e) ∧ done.2.2 = .database d) ∨
      ∃ d' items' t, done.1 = get setup (Backend.database d') code ids.take.1 ∧ done.2.2 = .database d' ∧
        d'.Keeps setup.catalog items' ∧ setup.catalog.types.find? code = some t ∧
        ∀ field ∈ t.searchable, Key.reserved field ≠ Key.latestTag → ∀ value,
          searchText? new.fields field = some value → TaggedIn items' t field value ids.take.1 := by
  intro done
  obtain ⟨hanswer, hstore⟩ := create_eq_carryOut setup now ids (Backend.database d) code new user
  rw [show done.1 = _ from hanswer, show done.2.2 = _ from hstore]
  cases hplan : createPlan setup now ids.take.1 (Backend.database d) code new user with
  | error e => exact .inl ⟨⟨e, rfl⟩, rfl⟩
  | ok ops =>
    obtain ⟨b, t, fields, rfl, hb, ht, hfields, hindexes⟩ := createPlan_proper hc hplan
    rcases h.carryOut hb setup.settings.attempts (fun s => get setup s code ids.take.1) with
      ⟨e, hfailed⟩ | ⟨d', items', hdone, hkeeps, heffect⟩
    · exact .inl ⟨⟨e, by rw [hfailed]⟩, by rw [hfailed]⟩
    · rw [hdone]
      refine .inr ⟨d', items', t, rfl, rfl, hkeeps, ht, fun field hf hname value hvalue => ?_⟩
      obtain ⟨json, hgiven, hjson⟩ := Option.bind_eq_some_iff.mp hvalue
      have hstored : searchText? fields field = some value :=
        Option.bind_eq_some_iff.mpr ⟨json, find?_newFields hfields hgiven, hjson⟩
      have hindex := hindexes items field hf hname (by rw [hstored]; rfl)
      rwa [Indexes, hstored, Option.map_some, ← heffect] at hindex

theorem update_keeps (now : Instant) (code id : String) (change : ResourceUpdate) (user : String) :
    ∃ d' items', (update setup now (Backend.database d) code id change user).2 = .database d' ∧
      d'.Keeps setup.catalog items' := by
  rw [update_eq_carryOut]
  exact h.planned _ _ fun ops hops => updatePlan_proper hc hops

theorem delete_keeps (code id : String) :
    ∃ d' items', (delete setup (Backend.database d) code id).2 = .database d' ∧
      d'.Keeps setup.catalog items' := by
  rw [delete_eq_carryOut]
  exact h.planned _ _ fun ops hops => deletePlan_proper hc hops

end Resource

end TagStore
