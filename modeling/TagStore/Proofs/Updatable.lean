import TagStore.Proofs.Runs

namespace TagStore

namespace Batch

theorem size_placeAll_le (b : Batch) (es : List (ItemKey × WriteOp)) :
    (b.placeAll es).size ≤ b.size + es.length := by
  induction es generalizing b with
  | nil => exact Nat.le_refl _
  | cons e es ih =>
    have hrest := ih (b.place e.1 e.2)
    have hfirst := b.size_place_le e.1 e.2
    rw [List.length_cons]
    exact Nat.le_trans hrest (by omega)

end Batch

namespace Holds
variable {setup : Setup} (hc : setup.catalog.Sound) {m : Memory} {r : Registry}
  (h : Holds setup.catalog m r) {t : ResourceType} (ht : setup.catalog.Has t) {id : String} {e : Entry}
  (he : r.entries t.code id = some e)
include hc h ht he

/-- Without faults to come, an update that keeps to the rules succeeds if it changes few enough tags. -/
theorem update_ok (hfaults : m.faults = []) {now : Instant} (hnow : Rfc3339.Readable now)
    {change : ResourceUpdate} (hfields : ∀ name ∈ change.fields.keys, Checks.fieldName name = .ok ())
    (htags : ∀ name ∈ change.tags.keys, Checks.tagName name = .ok ())
    (hfixed : Resource.checkFixed e.fields change.fields t.fixedFields = .ok ())
    (hsize : (Resource.tagChange t e change).puts.size + (Resource.tagChange t e change).deletes.length <
      maxBatch) (user : String) :
    (Resource.update setup now m t.code id change user).2.faults = [] ∧
      Holds setup.catalog (Resource.update setup now m t.code id change user).2
        (r.setEntry t.code id (some (e.updated change now user))) := by
  obtain ⟨hapart, hsound⟩ := h.sound.entry ht he
  have hupdated : (e.updated change now user).Sound r t :=
    Resource.updated_sound hsound hfields htags hfixed rfl rfl
  obtain ⟨item, hi⟩ := Registry.canonical_of_sound hupdated id
  have htype : Resource.findType setup t.code = .ok t := Resource.findType_eq_ok_iff.mpr ht
  have hplan : Resource.planUpdate m t now id change user =
      .ok (Resource.revision t id item (Resource.tagChange t e change)).ops := by
    have haudit : Resource.Audit.attributes ⟨e.audit.createdAt, e.audit.createdBy, some (now, user)⟩ =
        (e.updated change now user).audit.attributes := by
      simp only [Entry.updated, Resource.Audit.attributes, Resource.storedTime, Rfc3339.write_toMillis]
    have hitem : Resource.canonicalItem t id (Resource.mergeFields e.fields change.fields)
        ⟨e.audit.createdAt, e.audit.createdBy, some (now, user)⟩ = .ok item :=
      (Resource.canonicalItem_congr haudit).trans hi
    have hput := Batch.put_eq .empty (Resource.key_canonical hi) (some .present)
    rw [Resource.planUpdate, Checks.each_eq_ok_iff.mpr hfields, Checks.each_eq_ok_iff.mpr htags,
      h.load_some hc ht he]
    simp only [Entry.resource, Outcome.mapError_ok, hfixed, hitem, hput, TagChange.extend_eq, bind, Except.bind,
      pure, Except.pure]
    rfl
  have hupdate : Resource.update setup now m t.code id change user = Resource.commit setup m t.code id
      (Resource.revision t id item (Resource.tagChange t e change)).ops := by
    rw [Resource.update, htype]
    simp only [hplan, bind, Except.bind]
  have hlength : (Resource.revision t id item (Resource.tagChange t e change)).size ≤ maxBatch := by
    refine Nat.le_trans (Batch.size_placeAll_le _ _) ?_
    have hfirst : (Batch.empty.place ⟨Key.resource t.code id, Key.resource t.code id⟩
        (.put item (some .present))).size = 1 := rfl
    have hputs : (Resource.tagChange t e change).puts.entries.length =
        (Resource.tagChange t e change).puts.size := rfl
    rw [hfirst, List.length_append, Tag.puts, Tag.removals, List.length_map, List.length_map, hputs]
    omega
  have hallowed : ∀ key op, (Resource.revision t id item (Resource.tagChange t e change)).find? key =
      some op → op.allowed (m.items.find? key) = true := by
    intro key op hop
    rcases Batch.of_find?_placeAll hop with hold | hin
    · rcases Batch.of_find?_place hold with ⟨rfl, rfl⟩ | hnone
      · obtain ⟨stored, hstored⟩ := Registry.canonical_of_sound hsound id
        rw [h.mirrors.canonical t id ht hapart, Registry.canonical?_eq_some_iff.mpr ⟨e, he, hstored⟩]
        rfl
      · cases hnone
    · have hfree : op.condition = none := by
        rcases List.mem_append.mp hin with hin | hin
        · obtain ⟨tag, _, htag⟩ := List.mem_map.mp hin
          rw [← (Prod.mk.inj htag).2]
          rfl
        · obtain ⟨name, _, hname⟩ := List.mem_map.mp hin
          rw [← (Prod.mk.inj hname).2]
          rfl
      rw [WriteOp.allowed, hfree]
  obtain ⟨m', hcommit, _, hfaults'⟩ := Commit.batch_ok setup.settings.attempts
    (Resource.keyed_revision hi (Resource.tagChange t e change)) hlength hfaults hallowed
  have hdone : Resource.update setup now m t.code id change user = (Resource.get setup m' t.code id, m') := by
    rw [hupdate, Resource.commit, hcommit]
  rw [hdone]
  refine ⟨hfaults', ?_⟩
  rcases Resource.update_cases hc h hnow t.code id change user with ⟨⟨err, herr⟩, hitems⟩ |
    ⟨t', e', ht', hcode, he', _, _, hholds⟩
  · -- had nothing changed, the resource would have been read
    rw [hdone] at herr hitems
    rw [Resource.get_some (h.of_items_eq hitems) hc ht he] at herr
    cases herr
  · obtain rfl := ht'.eq_of_code ht hcode
    obtain rfl := Option.some.inj (he.symm.trans he')
    rwa [hdone] at hholds

end Holds

namespace Resource

/-- Fields that stay as they are need no change of their tags. -/
theorem foldl_addReserved_same (fields : Item) (names : List String) (change : TagChange) :
    names.foldl (addReserved fields fields) change = change := by
  induction names with
  | nil => rfl
  | cons name names ih =>
    rw [List.foldl_cons, addReserved, if_pos rfl, ih]

theorem checkFixed_empty (existing : Item) (names : List String) :
    checkFixed existing .empty names = .ok () := by
  induction names with
  | nil => rfl
  | cons name names ih => exact ih

/-- The update that sets one tag. -/
def tagging (name value : String) : ResourceUpdate := ⟨.empty, SortedMap.empty.insert name (some value)⟩

theorem tagChange_tagging_le (t : ResourceType) (e : Entry) (name value : String) :
    (tagChange t e (tagging name value)).puts.size + (tagChange t e (tagging name value)).deletes.length ≤ 1 := by
  have hchange : tagChange t e (tagging name value) = TagChange.add e.tags .none (name, some value) :=
    foldl_addReserved_same e.fields t.searchable _
  rw [hchange, TagChange.add]
  split
  · exact Nat.zero_le 1
  · exact Nat.le_refl 1

end Resource

/-- The names of as many tags as there are numbers. -/
def Tag.tally (i : Nat) : String := String.ofList (List.replicate (i + 1) 'x')

theorem Tag.tally_inj {i j : Nat} (h : tally i = tally j) : i = j := by
  have hlength := congrArg (fun s => s.toList.length) h
  simpa [tally] using hlength

theorem Tag.tagName_tally (i : Nat) : Checks.tagName (tally i) = .ok () := by
  have hmem : ∀ c ∈ (tally i).toList, c = 'x' := by
    intro c hc
    rw [tally, String.toList_ofList] at hc
    exact List.eq_of_mem_replicate hc
  have hne : (tally i).isEmpty = false := by
    rw [Bool.eq_false_iff, ne_eq, String.isEmpty_iff, ← String.toList_inj]
    simp [tally]
  have hplain : Key.hasDelimiter (tally i) = false :=
    Key.hasDelimiter_eq_false_iff.mpr fun hd => absurd (hmem _ hd) (by decide)
  have huser : Key.isReserved (tally i) = false := by
    rw [Bool.eq_false_iff, ne_eq, Key.isReserved_iff]
    rintro ⟨field, hfield⟩
    exact absurd (hmem '_' (by rw [hfield, Key.reserved, String.toList_append]; exact List.mem_cons_self))
      (by decide)
  simp [Checks.tagName, Checks.tagDelimiter, hne, hplain, huser, bind, Except.bind, pure, Except.pure]

namespace Call

/-- Creates a group and sets some tags of it, one after the other. -/
def tagging (n : Nat) : List Call :=
  .create ⟨0, 0⟩ ⟨some "a", 0⟩ "g" ⟨.ofList [("name", .string "Alps")], .empty⟩ "u" ::
    (List.range n).map fun i => .update ⟨1, 0⟩ "g" "a" (Resource.tagging (Tag.tally i) "yes") "u"

theorem timely_tagging (n : Nat) : ∀ call ∈ tagging n, call.Timely := by
  intro call hcall
  rcases List.mem_cons.mp hcall with rfl | hcall
  · exact ⟨by decide, by decide, by decide⟩
  · obtain ⟨i, _, rfl⟩ := List.mem_map.mp hcall
    exact ⟨by decide, by decide, by decide⟩

/-- All the tags are there in the end, whatever their number. -/
theorem runAll_tagging (n : Nat) : ∃ r e,
    Holds .standard (runAll ⟨.standard, {}⟩ (tagging n)) r ∧ (runAll ⟨.standard, {}⟩ (tagging n)).faults = [] ∧
      (∀ code id d, r.entries code id = some d → code = "g" ∧ id = "a") ∧ r.entries "g" "a" = some e ∧
      ∀ i < n, e.tags.find? (Tag.tally i) = some "yes" := by
  have hc : (Setup.mk .standard {}).catalog.Sound := Catalog.standard_sound
  have ht : Catalog.standard.Has Catalog.group := rfl
  induction n with
  | zero =>
    have hcreated : (Resource.create ⟨.standard, {}⟩ ⟨0, 0⟩ ⟨some "a", 0⟩ Memory.empty "g"
        ⟨.ofList [("name", .string "Alps")], .empty⟩ "u").1.isOk = true := by decide +kernel
    have hfaults : (runAll ⟨.standard, {}⟩ (tagging 0)).faults = [] := by decide +kernel
    have hnow : Rfc3339.Readable ⟨0, 0⟩ := ⟨by decide, by decide, by decide⟩
    rcases Resource.create_cases hc (.empty _) hnow ⟨some "a", 0⟩ (Catalog.standard_apart "g" "a")
      ⟨.ofList [("name", .string "Alps")], .empty⟩ "u" with ⟨⟨err, herr⟩, _⟩ |
      ⟨t, fields, ht', hcode, _, _, _, hholds⟩
    · rw [herr] at hcreated
      cases hcreated
    · obtain rfl := ht'.eq_of_code ht hcode
      refine ⟨_, _, hholds, hfaults, fun code id d hd => ?_, Registry.entries_enlist _ _ _ _, nofun⟩
      have hset : (Registry.empty.setEntry Catalog.group.code "a" _).entries code id = some d := hd
      by_cases hself : code = Catalog.group.code ∧ id = "a"
      · exact hself
      · rw [Registry.entries_setEntry_of_ne _ _ _ _ hself] at hset
        cases hset
  | succ n ih =>
    obtain ⟨r, e, h, hfaults, honly, he, htags⟩ := ih
    have hrun : runAll ⟨.standard, {}⟩ (tagging (n + 1)) =
        run ⟨.standard, {}⟩ (runAll ⟨.standard, {}⟩ (tagging n))
          (.update ⟨1, 0⟩ "g" "a" (Resource.tagging (Tag.tally n) "yes") "u") := by
      rw [runAll, tagging, List.range_succ, List.map_append, ← List.cons_append, List.foldl_append]
      rfl
    rw [hrun]
    have hnames : ∀ name ∈ (Resource.tagging (Tag.tally n) "yes").tags.keys, Checks.tagName name = .ok () := by
      intro name hname
      obtain rfl : name = Tag.tally n := List.mem_singleton.mp hname
      exact Tag.tagName_tally n
    have hfields : ∀ name ∈ (Resource.tagging (Tag.tally n) "yes").fields.keys, Checks.fieldName name = .ok () :=
      nofun
    have hnow : Rfc3339.Readable ⟨1, 0⟩ := ⟨by decide, by decide, by decide⟩
    obtain ⟨hfaults', hholds⟩ := h.update_ok hc ht he hfaults hnow hfields hnames
      (Resource.checkFixed_empty _ _) (Nat.lt_of_le_of_lt (Resource.tagChange_tagging_le _ _ _ _) (by decide)) "u"
    refine ⟨_, _, hholds, hfaults', fun code id d hd => ?_, Registry.entries_setEntry_self _ _ _ _,
        fun i hi => ?_⟩
    · by_cases hself : code = Catalog.group.code ∧ id = "a"
      · exact hself
      · rw [Registry.entries_setEntry_of_ne _ _ _ _ hself] at hd
        exact honly code id d hd
    · have hgranted : (e.tags.granting (SortedMap.empty.insert (Tag.tally n) (some "yes"))).find? (Tag.tally i) =
          some "yes" := by
        rw [Tags.find?_granting, SortedMap.find?_insert]
        by_cases hname : Tag.tally i = Tag.tally n
        · rw [if_pos hname]
          rfl
        · rw [if_neg hname]
          exact htags i (Nat.lt_of_le_of_ne (Nat.le_of_lt_succ hi) fun he => hname (he ▸ rfl))
      exact hgranted

end Call

end TagStore
