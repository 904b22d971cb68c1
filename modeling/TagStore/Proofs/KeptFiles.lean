import TagStore.CommandLine.Run
import TagStore.Proofs.KeptTables

namespace TagStore

theorem SortedMap.insert_eq_self {α β : Type} [Ord α] [Std.TransOrd α] [Std.LawfulEqOrd α] [DecidableEq α]
    {m : SortedMap α β} {k : α} {v : β} (h : m.find? k = some v) : m.insert k v = m := by
  apply ext_find?
  intro k'
  rw [find?_insert]
  split
  next hk => rw [hk, h]
  next => rfl

theorem Database.eq_empty_of_create {table : String} {d : Database} (h : create table = .ok d) : d = empty := by
  obtain ⟨_, _, h⟩ := Outcome.bind_eq_ok_iff.mp h
  dsimp only at h
  split at h
  · cases h
  · exact (Except.ok.inj h).symm

/-- No table has the name of one of its own indexes. -/
theorem Database.clash_self (name : String) : clash name name = false := by
  have hlonger : ∀ stem : String, 0 < stem.length → name ≠ name ++ stem := by
    intro stem hstem heq
    have hlength := congrArg String.length heq
    rw [String.length_append] at hlength
    omega
  simp only [clash, indexNames, List.map_cons, List.map_nil, Bool.or_self, List.contains_eq_mem,
    List.mem_cons, List.not_mem_nil, or_false, decide_eq_false_iff_not, not_or]
  exact ⟨hlonger _ (by decide), hlonger _ (by decide), hlonger _ (by decide)⟩

namespace Files

/-- The table of a file by its name in lower case; it is empty if it is not there. -/
def table (files : Files) (path name : String) : Database :=
  (((files.find? path).getD .empty).find? name).getD .empty

/-- Whether all tables of some files keep proper items. -/
def Kept (c : Catalog) (files : Files) : Prop :=
  ∀ path name, ∃ items, (files.table path name).Keeps c items

theorem kept_empty (c : Catalog) : Kept c .empty := fun _ _ => ⟨_, Database.keeps_empty c⟩

variable {c : Catalog} {files : Files} {location : Location} {name : String}

theorem openIn_eq_ok_iff {path : String} {d : Database} : files.openIn path name = .ok d ↔
    Database.create name = .ok .empty ∧
      ((files.find? path).getD .empty).keys.any (Database.clash name.toLower) = false ∧
      d = files.table path name.toLower := by
  rw [openIn, Outcome.bind_eq_ok_iff]
  constructor
  · rintro ⟨fresh, hfresh, h⟩
    obtain rfl := Database.eq_empty_of_create hfresh
    dsimp only at h
    split at h
    · cases h
    next hclash => exact ⟨hfresh, Bool.eq_false_iff.mpr hclash, (Except.ok.inj h).symm⟩
  · rintro ⟨hfresh, hclash, rfl⟩
    refine ⟨_, hfresh, ?_⟩
    dsimp only
    rw [if_neg (Bool.eq_false_iff.mp hclash)]
    rfl

theorem openTable_eq_ok_iff {place path : String} (hpath : Address.read place = .ok (some path)) {b : Backend} :
    files.openTable (.file place) name = .ok b ↔
      TableName.check name = .ok () ∧ ∃ d, files.openIn path name = .ok d ∧ b = .database d := by
  rw [openTable, Outcome.bind_eq_ok_iff]
  simp only [Outcome.mapError_eq_ok_iff, hpath]
  constructor
  · rintro ⟨_, hname, h⟩
    obtain ⟨_, ⟨⟩, h⟩ := Outcome.bind_eq_ok_iff.mp h
    obtain ⟨d, hd, h⟩ := Outcome.bind_eq_ok_iff.mp h
    exact ⟨hname, d, hd, (Except.ok.inj h).symm⟩
  · rintro ⟨hname, d, hd, rfl⟩
    exact ⟨_, hname, Outcome.bind_eq_ok_iff.mpr ⟨_, rfl, Outcome.bind_eq_ok_iff.mpr ⟨d, hd, rfl⟩⟩⟩

/-- A table that is opened keeps proper items where all tables do. -/
theorem openTable_keeps (h : files.Kept c) {b : Backend} (hopen : files.openTable location name = .ok b) :
    location = .memory ∨ ∃ d items, b = .database d ∧ d.Keeps c items := by
  have hfresh : ∀ {d}, Database.create name = .ok d → ∃ items, d.Keeps c items := by
    intro d hd
    exact Database.eq_empty_of_create hd ▸ ⟨_, Database.keeps_empty c⟩
  obtain ⟨_, _, hrest⟩ := Outcome.bind_eq_ok_iff.mp hopen
  cases location with
  | memory => exact .inl rfl
  | transient =>
    obtain ⟨d, hd, hrest⟩ := Outcome.bind_eq_ok_iff.mp hrest
    cases hrest
    obtain ⟨items, hkeeps⟩ := hfresh hd
    exact .inr ⟨d, items, rfl, hkeeps⟩
  | file place =>
    obtain ⟨path, hpath, hrest⟩ := Outcome.bind_eq_ok_iff.mp hrest
    cases path with
    | none =>
      obtain ⟨d, hd, hrest⟩ := Outcome.bind_eq_ok_iff.mp hrest
      cases hrest
      obtain ⟨items, hkeeps⟩ := hfresh hd
      exact .inr ⟨d, items, rfl, hkeeps⟩
    | some path =>
      obtain ⟨_, d, hd, rfl⟩ := (openTable_eq_ok_iff hpath).mp hopen
      obtain ⟨_, _, rfl⟩ := openIn_eq_ok_iff.mp hd
      obtain ⟨items, hkeeps⟩ := h path name.toLower
      exact .inr ⟨_, items, rfl, hkeeps⟩

theorem keep_file {place path : String} (hpath : Address.read place = .ok (some path)) (d : Database) :
    files.keep (.file place) name (.database d) =
      files.insert path (((files.find? path).getD .empty).insert name.toLower d) := by
  rw [keep, hpath]

theorem kept_keep (h : files.Kept c) {d : Database} {items : SortedMap ItemKey Item} (hd : d.Keeps c items) :
    (files.keep location name (.database d)).Kept c := by
  unfold keep
  split
  next place d' hb =>
    cases hb
    split
    next path _ =>
      intro path' name'
      rw [table, SortedMap.find?_insert]
      split
      · rw [Option.getD_some, SortedMap.find?_insert]
        split
        · exact ⟨items, hd⟩
        · exact h path name'
      · exact h path' name'
    next => exact h
  next => exact h

/-- What is kept of a table in a file is found when it is opened again. -/
theorem openTable_keep {place path : String} (hpath : Address.read place = .ok (some path)) {b : Backend}
    (hopen : files.openTable (.file place) name = .ok b) (d : Database) :
    (files.keep (.file place) name (.database d)).openTable (.file place) name = .ok (.database d) := by
  obtain ⟨hname, old, hold, _⟩ := (openTable_eq_ok_iff hpath).mp hopen
  obtain ⟨hcreate, hclash, _⟩ := openIn_eq_ok_iff.mp hold
  refine (openTable_eq_ok_iff hpath).mpr ⟨hname, d, ?_, rfl⟩
  rw [keep_file hpath]
  refine openIn_eq_ok_iff.mpr ⟨hcreate, ?_, ?_⟩
  · rw [SortedMap.find?_insert_self, Option.getD_some, List.any_eq_false]
    intro other hother
    obtain ⟨d', hd'⟩ := SortedMap.mem_keys_iff.mp hother
    rw [SortedMap.find?_insert] at hd'
    split at hd'
    next heq => rw [heq, Database.clash_self]; simp
    next => exact List.any_eq_false.mp hclash other (SortedMap.mem_keys_iff.mpr ⟨d', hd'⟩)
  · rw [table, SortedMap.find?_insert_self, Option.getD_some, SortedMap.find?_insert_self]
    rfl

/-- To keep a table once more changes nothing. -/
theorem keep_keep {place path : String} (hpath : Address.read place = .ok (some path)) (d : Database) :
    (files.keep (.file place) name (.database d)).keep (.file place) name (.database d) =
      files.keep (.file place) name (.database d) := by
  rw [keep_file hpath, keep_file hpath, SortedMap.find?_insert_self, Option.getD_some,
    SortedMap.insert_eq_self (SortedMap.find?_insert_self _ _ _),
    SortedMap.insert_eq_self (SortedMap.find?_insert_self _ _ _)]

end Files

namespace CommandLine

/-- A command leaves a table that keeps proper items. -/
theorem carryOut_keeps {setup : Setup} (hc : setup.catalog.Checked) {d : Database}
    {items : SortedMap ItemKey Item} (h : d.Keeps setup.catalog items) (now : Instant) (ids : Ids)
    (command : Command) : ∃ d' items',
      (carryOut setup now ids (Backend.database d) command).2.2 = .database d' ∧
        d'.Keeps setup.catalog items' := by
  cases command with
  | create type fields tags user =>
    simp only [carryOut, create]
    split
    · exact ⟨d, items, rfl, h⟩
    next code new _ =>
      rcases Resource.create_keeps hc h now ids code new user with
        ⟨_, hstays⟩ | ⟨d', items', _, _, hleft, hkeeps, _⟩
      · exact ⟨d, items, hstays, h⟩
      · exact ⟨d', items', hleft, hkeeps⟩
  | update type id fields removedFields tags removedTags user =>
    simp only [carryOut, update]
    split
    · exact ⟨d, items, rfl, h⟩
    next code change _ => exact Resource.update_keeps hc h now code id change user
  | delete type id =>
    simp only [carryOut, delete]
    split
    · exact ⟨d, items, rfl, h⟩
    next code _ => exact Resource.delete_keeps hc h code id
  | types => exact ⟨d, items, rfl, h⟩
  | get type id => exact ⟨d, items, rfl, h⟩
  | list type tags fields latestOnly withLatest count token => exact ⟨d, items, rfl, h⟩
  | latest type parentId => exact ⟨d, items, rfl, h⟩

theorem openStore_eq_ok_iff {files : Files} {i : Invocation} {location : Location} {b : Backend} :
    openStore files i = .ok (location, b) ↔
      Location.read i.store = .ok location ∧ files.openTable location i.table = .ok b := by
  rw [openStore, Outcome.bind_eq_ok_iff]
  constructor
  · rintro ⟨location', hread, h⟩
    obtain ⟨b', hopen, h⟩ := Outcome.bind_eq_ok_iff.mp h
    cases h
    simp only [within, Outcome.mapError_eq_ok_iff] at hread hopen
    exact ⟨hread, hopen⟩
  · rintro ⟨hread, hopen⟩
    refine ⟨location, by simp only [within, Outcome.mapError_eq_ok_iff, hread], ?_⟩
    rw [hopen]
    rfl

/-- What a command goes by. -/
def Invocation.setup (i : Invocation) : Setup := { settings := { tableName := i.table, attempts := i.attempts } }

/-- What is printed of a command's answer, and what it leaves: the store is kept. -/
def World.after (w : World) (location : Location) (table : String) (answer : Answer Json) :
    Except Failure String × World :=
  (answer.1.map fun j => j.pretty 0 ++ "\n",
    { w with files := w.files.keep location table answer.2.2, ids := answer.2.1 })

theorem run_eq {w : World} {i : Invocation} {location : Location} {b : Backend}
    (hopen : openStore w.files i = .ok (location, b)) :
    run w i = w.after location i.table (carryOut i.setup w.now w.ids b i.command) := by
  rw [run, hopen]
  rfl

/-- What prints an answer has opened a store. -/
theorem exists_openStore {w w' : World} {i : Invocation} {text : String} (h : run w i = (.ok text, w')) :
    ∃ location b, openStore w.files i = .ok (location, b) := by
  cases hopen : openStore w.files i with
  | error e =>
    rw [run, hopen] at h
    cases h
  | ok opened => exact ⟨opened.1, opened.2, rfl⟩

theorem run_kept {w : World} (h : w.files.Kept .standard) (i : Invocation) :
    (run w i).2.files.Kept .standard := by
  cases hopen : openStore w.files i with
  | error e =>
    rw [run, hopen]
    exact h
  | ok opened =>
    obtain ⟨location, b⟩ := opened
    rw [run_eq hopen, World.after]
    obtain ⟨_, htable⟩ := openStore_eq_ok_iff.mp hopen
    rcases Files.openTable_keeps h htable with rfl | ⟨d, items, rfl, hkeeps⟩
    · exact h
    · have hc : i.setup.catalog.Checked := Catalog.standard_sound.toChecked
      obtain ⟨d', items', hleft, hkeeps'⟩ := carryOut_keeps hc hkeeps w.now w.ids i.command
      rw [hleft]
      exact Files.kept_keep h hkeeps'

end CommandLine

/-- The files that come of none by running commands, at any times and with any ids for what they create. -/
inductive Files.Reached : Files → Prop where
  | empty : Reached .empty
  | run {w : CommandLine.World} (h : Reached w.files) (i : CommandLine.Invocation) :
    Reached (CommandLine.run w i).2.files

theorem Files.Reached.kept {files : Files} (h : files.Reached) : files.Kept .standard := by
  induction h with
  | empty => exact kept_empty _
  | run _ i ih => exact CommandLine.run_kept ih i

end TagStore
