import TagStore.Proofs.Agreement
import TagStore.Proofs.ListWalks
import TagStore.Proofs.OrderingTexts

namespace TagStore

namespace Rfc3339

/-- A sound instant is a reading that there is, where a clock shows a year of four digits. -/
theorem Readable.of_sound {i : Instant} (hi : i.Sound) (hlow : 0 ≤ i.clock.date.year)
    (hhigh : i.clock.date.year ≤ 9999) : Readable i := by
  have hyear : i.clock.date.year = (Date.ofDays (i.seconds / Instant.secondsPerDay)).year := rfl
  have hfirst : Instant.earliest ≤ i.seconds := by
    refine Int.not_lt.mp fun hlt => ?_
    have hday : i.seconds / Instant.secondsPerDay ≤ Date.toDays ⟨Instant.firstYear, 1, 1⟩ := by
      simp only [Instant.earliest, Instant.secondsPerDay] at hlt ⊢
      omega
    have hle := Date.year_ofDays_le hday
    have hfirst : (Date.ofDays (Date.toDays ⟨Instant.firstYear, 1, 1⟩)).year = -262143 := by decide
    omega
  have hlast : i.seconds ≤ Instant.latest := by
    refine Int.not_lt.mp fun hlt => ?_
    have hday : Date.toDays ⟨Instant.lastYear, 12, 31⟩ ≤ i.seconds / Instant.secondsPerDay := by
      simp only [Instant.latest, Instant.secondsPerDay] at hlt ⊢
      omega
    have hle := Date.year_ofDays_le hday
    have hlast : (Date.ofDays (Date.toDays ⟨Instant.lastYear, 12, 31⟩)).year = 262142 := by decide
    omega
  refine ⟨?_, hlow, hhigh⟩
  have hnanos := hi.nanos_lt
  have hleap := hi.leap
  rw [Instant.ofReading?, if_neg (by omega)]
  split
  · rfl
  · rw [if_pos ⟨hnanos, hleap (by omega)⟩]

/-- What was read and can be read back once it is written is written alike from then on. -/
theorem write_of_read {text : String} {i j : Instant} (hi : read text = .ok i) (hj : read (write 3 i) = .ok j) :
    write 3 j = write 3 i := by
  obtain ⟨hlow, hhigh⟩ := year_of_read_write (by omega) hj
  have hreadable := Readable.of_sound (denoted_of_read hi).sound hlow hhigh
  obtain rfl := Except.ok.inj (hj.symm.trans (read_write_millis hreadable))
  exact write_toMillis i

end Rfc3339

/-- One update for two in turn: where both change a field or a tag, the second counts. -/
def ResourceUpdate.followedBy (first second : ResourceUpdate) : ResourceUpdate :=
  ⟨first.fields.insertAll second.fields.entries, first.tags.insertAll second.tags.entries⟩

theorem Resource.mergeFields_followedBy (fields : Item) (first second : ResourceUpdate) :
    mergeFields fields (first.followedBy second).fields =
      mergeFields (mergeFields fields first.fields) second.fields := by
  apply SortedMap.ext_find?
  intro name
  rw [find?_mergeFields, find?_mergeFields, find?_mergeFields, ResourceUpdate.followedBy,
    SortedMap.find?_insertAll_entries]
  cases second.fields.find? name <;> rfl

theorem Tags.granting_followedBy (tags : Tags) (first second : ResourceUpdate) :
    tags.granting (first.followedBy second).tags = (tags.granting first.tags).granting second.tags := by
  apply SortedMap.ext_find?
  intro name
  rw [find?_granting, find?_granting, find?_granting, ResourceUpdate.followedBy,
    SortedMap.find?_insertAll_entries]
  cases second.tags.find? name <;> rfl

@[simp] theorem ResourceUpdate.followedBy_self (u : ResourceUpdate) : u.followedBy u = u := by
  have hself : ∀ {β : Type} (m : SortedMap String β), m.insertAll m.entries = m := fun m => by
    apply SortedMap.ext_find?
    intro name
    rw [SortedMap.find?_insertAll_entries]
    cases m.find? name <;> rfl
  rw [followedBy, hself, hself]

/-- Whether the same is stored for two entries. -/
structure Entry.Alike (e e' : Entry) : Prop where
  fields : e'.fields = e.fields
  tags : e'.tags = e.tags
  attributes : e'.audit.attributes = e.audit.attributes

/-- It makes no difference which of two such entries a registry has. -/
theorem Registry.agreeAt_alike (c : Catalog) (r : Registry) (code id : String) {e e' : Entry}
    (h : e.Alike e') (key : ItemKey) :
    AgreeAt c (r.setEntry code id (some e)) (r.setEntry code id (some e')) key := by
  have hoff : ∀ {code' id'}, ¬ (code' = code ∧ id' = id) →
      (r.setEntry code id (some e')).entries code' id' = (r.setEntry code id (some e)).entries code' id' :=
    fun hne => (r.entries_setEntry_of_ne _ _ _ hne).trans (r.entries_setEntry_of_ne _ _ _ hne).symm
  refine ⟨fun t' id' _ _ _ => ?_, fun t' id' name _ _ => ?_, fun _ _ _ _ _ _ => rfl⟩
  · by_cases hself : t'.code = code ∧ id' = id
    · obtain ⟨rfl, rfl⟩ := hself
      simp only [canonical?, entries_setEntry_self, Option.bind_some, h.fields,
        Resource.canonicalItem_congr h.attributes]
    · exact canonical?_congr (hoff hself)
  · by_cases hself : t'.code = code ∧ id' = id
    · obtain ⟨rfl, rfl⟩ := hself
      simp only [tag?, isNewest, Entry.allTags, entries_setEntry_self, Option.any_some, Option.bind_some,
        pointers_setEntry, h.fields, h.tags]
    · exact tag?_congr (hoff hself) rfl name

namespace Resource

/-- What a resource is read as does not tell when it was updated. -/
theorem updated_alike {t : ResourceType} {id : String} {e : Entry} {before between : Resource}
    (hbefore : e.ReadAs t id before) (first second : ResourceUpdate) (now : Instant) (user : String)
    (hbetween : (before.entry.updated first now user).ReadAs t id between) :
    (between.entry.updated second now user).Alike
      (before.entry.updated (first.followedBy second) now user) := by
  have hfields : between.fields = mergeFields before.fields first.fields := hbetween.fields
  have htags : between.tags = before.tags.granting first.tags := hbetween.tags
  have hcreated : storedTime between.createdAt = storedTime before.createdAt :=
    Rfc3339.write_of_read hbefore.createdAt hbetween.createdAt
  have hby : between.createdBy = before.createdBy := hbetween.createdBy
  refine ⟨?_, ?_, ?_⟩
  · simp only [Entry.updated, entry, mergeFields_followedBy, hfields]
  · simp only [Entry.updated, entry, Tags.granting_followedBy, htags]
  · simp only [Entry.updated, entry, Audit.attributes, hcreated, hby]

section
variable {setup : Setup} (hc : setup.catalog.Sound) {m m₁ m₂ : Memory} {r : Registry}
  (h : Stands setup.catalog m r) {now : Instant} {code id user : String}
include hc h

/-- An update that is answered with a resource leaves the store of what was read, updated. -/
theorem update_stands {change : ResourceUpdate} {after : Resource}
    (hupdate : update setup now m code id change user = (.ok after, m₁)) :
    ∃ (t : ResourceType) (e : Entry) (before : Resource), setup.catalog.Has t ∧ t.code = code ∧
      e.ReadAs t id before ∧ get setup m code id = .ok before ∧
      Stands setup.catalog m₁ (r.setEntry code id (some (before.entry.updated change now user))) := by
  rcases update_revises hc h now code id change user with ⟨⟨err, herror⟩, _⟩ |
    ⟨t, e, before, ht, rfl, _, hread, hget, _, _, h'⟩
  · rw [hupdate] at herror
    cases herror
  · rw [hupdate] at h'
    exact ⟨t, e, before, ht, rfl, hread, hget, h'⟩

/-- Two updates in turn leave what one does that merges them, as far as that is stored. -/
theorem update_update {first second : ResourceUpdate} {a b : Resource}
    (hfirst : update setup now m code id first user = (.ok a, m₁))
    (hsecond : update setup now m₁ code id second user = (.ok b, m₂)) :
    ∃ before e, get setup m code id = .ok before ∧
      e.Alike (before.entry.updated (first.followedBy second) now user) ∧
      Stands setup.catalog m₂ (r.setEntry code id (some e)) := by
  obtain ⟨t, e, before, ht, rfl, hread, hget, h₁⟩ := update_stands hc h hfirst
  rcases update_revises hc h₁ now t.code id second user with ⟨⟨err, herror⟩, _⟩ |
    ⟨t', e₁, between, ht', hcode, he₁, hread₁, _, _, _, h₂⟩
  · rw [hsecond] at herror
    cases herror
  · obtain rfl := ht'.eq_of_code ht hcode
    rw [Registry.entries_setEntry_self, Option.some.injEq] at he₁
    subst he₁
    rw [hsecond, Registry.setEntry_setEntry] at h₂
    exact ⟨before, _, hget, updated_alike hread first second now user hread₁, h₂⟩

/-- Updates by one user at one time come to the same as the update that merges them. -/
theorem items_followedBy {m' : Memory} {first second : ResourceUpdate} {a b d : Resource}
    (hfirst : update setup now m code id first user = (.ok a, m₁))
    (hsecond : update setup now m₁ code id second user = (.ok b, m₂))
    (hmerged : update setup now m code id (first.followedBy second) user = (.ok d, m')) :
    m'.items = m₂.items := by
  obtain ⟨before, e, hget, halike, h₂⟩ := update_update hc h hfirst hsecond
  obtain ⟨_, _, before', _, _, _, hget', h'⟩ := update_stands hc h hmerged
  obtain rfl := Except.ok.inj (hget.symm.trans hget')
  exact h₂.items_eq_of_agreeAt h' (Registry.agreeAt_alike _ r code id halike)

end

end Resource

/-- After any calls, two updates of a resource by one user at one time store what the update does that merges
them. To make an update twice is to make it once. -/
theorem Call.runAll_updates_merge (settings : Settings) (calls : List Call) (now : Instant)
    (code id user : String) :
    let setup : Setup := ⟨.standard, settings⟩
    let m := runAll setup calls
    let update := fun (m : Memory) (change : ResourceUpdate) => Resource.update setup now m code id change user
    (∀ (first second : ResourceUpdate) {a b d : Resource} {m₁ m₂ m' : Memory},
      update m first = (.ok a, m₁) → update m₁ second = (.ok b, m₂) →
      update m (first.followedBy second) = (.ok d, m') → m'.items = m₂.items) ∧
    ∀ (change : ResourceUpdate) {a b : Resource} {m₁ m₂ : Memory},
      update m change = (.ok a, m₁) → update m₁ change = (.ok b, m₂) → m₂.items = m₁.items := by
  intro setup m update
  have hc : setup.catalog.Sound := Catalog.standard_sound
  obtain ⟨r, h⟩ := @runAll_stands setup hc Catalog.standard_apart calls
  refine ⟨fun first second a b d m₁ m₂ m' hfirst hsecond hmerged => ?_, fun change a b m₁ m₂ hfirst hsecond => ?_⟩
  · exact Resource.items_followedBy hc h hfirst hsecond hmerged
  · have hmerged : update m (change.followedBy change) = (.ok a, m₁) := by
      rw [ResourceUpdate.followedBy_self]
      exact hfirst
    exact (Resource.items_followedBy hc h hfirst hsecond hmerged).symm

/-- The polygon `c` gets a name, a note and a tag and then loses them again, or just stays as it is. -/
theorem Call.runAll_updates_merge_polygon :
    let setup : Setup := ⟨.standard, {}⟩
    let m := runAll setup toState
    let first : ResourceUpdate := ⟨.ofList [("name", .string "Peak"), ("note", .string "steep")],
      .ofList [("area", none), ("snow", some "deep")]⟩
    let second : ResourceUpdate := ⟨.ofList [("name", .string "Pass"), ("note", .null)],
      .ofList [("area", some "wide"), ("snow", none)]⟩
    let update := fun (m : Memory) (change : ResourceUpdate) =>
      Resource.update setup ⟨4, 5000001⟩ m "p" "c" change "w"
    ∃ a b d e m₁ m₂ m₃ m', update m first = (.ok a, m₁) ∧ update m₁ second = (.ok b, m₂) ∧
      update m₁ first = (.ok e, m₃) ∧ update m (first.followedBy second) = (.ok d, m') ∧
      m'.items = m₂.items ∧ m₃.items = m₁.items := by
  intro setup m first second update
  have hok : ((update m first).1.isOk && (update (update m first).2 second).1.isOk &&
      (update (update m first).2 first).1.isOk && (update m (first.followedBy second)).1.isOk) = true := by
    decide +kernel
  simp only [Bool.and_eq_true] at hok
  obtain ⟨⟨⟨ha, hb⟩, he⟩, hd⟩ := hok
  obtain ⟨a, hfirst⟩ := Outcome.eq_of_isOk_fst ha
  obtain ⟨b, hsecond⟩ := Outcome.eq_of_isOk_fst hb
  obtain ⟨e, hagain⟩ := Outcome.eq_of_isOk_fst he
  obtain ⟨d, hmerged⟩ := Outcome.eq_of_isOk_fst hd
  obtain ⟨hmerge, htwice⟩ := runAll_updates_merge {} toState ⟨4, 5000001⟩ "p" "c" "w"
  exact ⟨a, b, d, e, _, _, _, _, hfirst, hsecond, hagain, hmerged,
    hmerge first second hfirst hsecond hmerged, htwice first hfirst hagain⟩

end TagStore
