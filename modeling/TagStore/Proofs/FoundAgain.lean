import TagStore.Proofs.KeptFiles
import TagStore.Proofs.TableListings

namespace TagStore

namespace Catalog

/-- A type that is found by a name or a code stands in the catalog. -/
theorem Checked.has_of_resolve {c : Catalog} (hc : c.Checked) {name : String} {t : ResourceType}
    (h : c.resolve name = .ok t) : c.Has t := by
  unfold resolve at h
  split at h
  next found hfound =>
    cases h
    exact hc.has hfound
  next =>
    split at h
    next found hfound =>
      cases h
      obtain ⟨code, hcode⟩ := SortedMap.mem_values_iff.mp (List.mem_of_find?_eq_some hfound)
      exact hc.has hcode
    next => cases h

/-- The names of searchable fields of the standard types stand before the first equals sign. -/
theorem standard_searchable {t : ResourceType} (ht : standard.Has t) :
    ∀ name ∈ t.searchable, name.toList ≠ [] ∧ '=' ∉ name.toList := by
  rcases (standard_types ht).1 with rfl | rfl | rfl | rfl <;> decide

theorem standard_noNull {t : ResourceType} (ht : standard.Has t) : Text.NoNull (Key.stem t.code) := by
  rcases (standard_types ht).1 with rfl | rfl | rfl | rfl <;> decide

end Catalog

namespace CommandLine

theorem typeCode_eq_ok_iff {setup : Setup} {name code : String} :
    typeCode setup name = .ok code ↔ ∃ t, setup.catalog.resolve name = .ok t ∧ code = t.code := by
  rw [typeCode, Outcome.bind_eq_ok_iff]
  simp only [refused, plainly, Outcome.mapError_eq_ok_iff, pure, Except.pure, Except.ok.injEq,
    eq_comm (a := code)]

theorem assignment_append {name : String} (hempty : name.toList ≠ []) (hname : '=' ∉ name.toList)
    (value : String) : assignment (name ++ "=" ++ value) = .ok (name, value) := by
  have htext : (name ++ "=" ++ value).toList = name.toList ++ '=' :: value.toList := by
    simp [String.toList_append]
  obtain ⟨c, cs, hcs⟩ := List.exists_cons_of_ne_nil hempty
  rw [assignment, htext, Text.splitFirst_append hname, hcs]
  simp only [← hcs, String.ofList_toList]

/-- The last of several values for a name counts. -/
theorem find?_fields {before after : List String} {text name value : String} {found : List (String × Json)}
    (h : fields (before ++ text :: after) = .ok found) (htext : assignment text = .ok (name, value))
    (hlast : ∀ other ∈ after, ∀ value', assignment other ≠ .ok (name, value')) :
    (SortedMap.ofList found).find? name = some (fieldValue value) := by
  rw [fields, List.mapM_append, Outcome.bind_eq_ok_iff] at h
  obtain ⟨front, _, h⟩ := h
  obtain ⟨rest, hrest, h⟩ := Outcome.bind_eq_ok_iff.mp h
  cases h
  obtain ⟨given, back, hgiven, hback, rfl⟩ := Outcome.mapM_cons_eq_ok_iff.mp hrest
  rw [htext] at hgiven
  obtain rfl := Except.ok.inj hgiven
  have hothers : ∀ e ∈ back, e.1 ≠ name := by
    rintro e he rfl
    obtain ⟨other, hother, hread⟩ := Outcome.mem_of_mapM hback he
    obtain ⟨assigned, hassigned, hread⟩ := Outcome.bind_eq_ok_iff.mp hread
    obtain rfl := Except.ok.inj hread
    exact hlast other hother assigned.2 hassigned
  rw [SortedMap.ofList_eq_insertAll, SortedMap.insertAll, List.foldl_append, List.foldl_cons]
  exact (SortedMap.find?_insertAll_of_ne _ hothers).trans (SortedMap.find?_insert_self _ _ _)

section
variable {setup : Setup} {now : Instant} {ids : Ids} {b : Backend} {type user : String}
  {texts tagTexts : List String}

theorem create_eq {t : ResourceType} {found : List (String × Json)} {tags : Tags}
    (ht : setup.catalog.resolve type = .ok t) (hfound : fields texts = .ok found)
    (htags : Tag.readPairs tagTexts = .ok tags) :
    let done := Resource.create setup now ids b t.code ⟨.ofList found, tags⟩ user
    create setup now ids b type texts tagTexts user =
      ((within ("Failed to create " ++ type) done.1).map Resource.json, done.2) := by
  intro done
  have htype : typeCode setup type = .ok t.code := typeCode_eq_ok_iff.mpr ⟨t, ht, rfl⟩
  simp only [create, htype, hfound, htags, refused, plainly, Outcome.mapError_ok, bind, Except.bind, pure,
    Except.pure]
  rfl

/-- A command that creates a resource prints what creating it answers. -/
theorem create_eq_ok {json : Json} (h : (create setup now ids b type texts tagTexts user).1 = .ok json) :
    ∃ t found tags r, setup.catalog.resolve type = .ok t ∧ fields texts = .ok found ∧
      (Resource.create setup now ids b t.code ⟨.ofList found, tags⟩ user).1 = .ok r ∧ json = r.json ∧
      (create setup now ids b type texts tagTexts user).2 =
        (Resource.create setup now ids b t.code ⟨.ofList found, tags⟩ user).2 := by
  have hrequest : ∃ t found tags, setup.catalog.resolve type = .ok t ∧ fields texts = .ok found ∧
      Tag.readPairs tagTexts = .ok tags := by
    rw [create] at h
    dsimp only at h
    split at h
    · cases h
    next code new hrequest =>
      obtain ⟨_, hcode, hrequest⟩ := Outcome.bind_eq_ok_iff.mp hrequest
      obtain ⟨found, hfound, hrequest⟩ := Outcome.bind_eq_ok_iff.mp hrequest
      obtain ⟨tags, htags, _⟩ := Outcome.bind_eq_ok_iff.mp hrequest
      obtain ⟨t, ht, _⟩ := typeCode_eq_ok_iff.mp hcode
      simp only [refused, plainly, Outcome.mapError_eq_ok_iff] at htags
      exact ⟨t, found, tags, ht, hfound, htags⟩
  obtain ⟨t, found, tags, ht, hfound, htags⟩ := hrequest
  rw [create_eq ht hfound htags] at h ⊢
  cases hcreate : (Resource.create setup now ids b t.code ⟨.ofList found, tags⟩ user).1 with
  | error e =>
    rw [hcreate] at h
    cases h
  | ok r =>
    rw [hcreate] at h
    exact ⟨t, found, tags, r, ht, hfound, hcreate, (Except.ok.inj h).symm, rfl⟩

end

/-- The invocation on the same store that lists the resources of a type by the value of a field. -/
def Invocation.listing (i : Invocation) (type text : String) (token : Option String) : Invocation :=
  { i with command := .list type [] [text] false false ({} : Settings).pageSize token }

/-- The pages of resources that commands print one after the other, from a token on to the last page,
each with the token of the page before. None of them changes anything. -/
inductive Prints (w : World) (command : Option String → Invocation) :
    Option String → List (List Resource) → Prop where
  | last {token : Option String} {items : List Resource}
    (h : run w (command token) = (.ok ((ResourcePage.mk items none).json.pretty 0 ++ "\n"), w)) :
    Prints w command token [items]
  | more {token : Option String} {next : String} {items : List Resource} {pages : List (List Resource)}
    (h : run w (command token) = (.ok ((ResourcePage.mk items (some next)).json.pretty 0 ++ "\n"), w))
    (hrest : Prints w command (some next) pages) : Prints w command token (items :: pages)

section
variable {w w' : World} (hw : w.files.Kept .standard) {i : Invocation} {place path : String}
  (hplace : Location.read i.store = .ok (.file place)) (hpath : Address.read place = .ok (some path))
  {type : String} {t : ResourceType} (ht : Catalog.standard.resolve type = .ok t)
include hw hplace hpath ht

/-- What is left when a resource was created in a table that is kept in a file. -/
theorem run_create {texts tags : List String} {user text : String}
    (hrun : run w { i with command := .create type texts tags user } = (.ok text, w')) :
    ∃ found d items r, fields texts = .ok found ∧ text = r.json.pretty 0 ++ "\n" ∧
      openStore w'.files i = .ok (.file place, .database d) ∧
      w'.files.keep (.file place) i.table (.database d) = w'.files ∧ d.Keeps .standard items ∧
      Resource.get {} (Backend.database d) t.code r.id = .ok r ∧
      ∀ field ∈ t.searchable, ∀ value, Resource.searchText? (.ofList found) field = some value →
        Resource.TaggedIn items t field value r.id := by
  have hc : i.setup.catalog.Checked := Catalog.standard_sound.toChecked
  have hhas := hc.has_of_resolve ht
  obtain ⟨location, b, hopen⟩ := exists_openStore hrun
  rw [run_eq hopen] at hrun
  obtain ⟨hanswer, hleft⟩ := Prod.mk.inj hrun
  obtain ⟨hread, htable⟩ := openStore_eq_ok_iff.mp hopen
  obtain rfl := Except.ok.inj (hread.symm.trans hplace)
  rcases Files.openTable_keeps hw htable with hmemory | ⟨before, old, rfl, hkeeps⟩
  · cases hmemory
  obtain ⟨json, hdone, rfl⟩ := Outcome.map_eq_ok_iff.mp hanswer
  obtain ⟨t', found, allTags, r, ht', hfound, hcreate, rfl, hstore⟩ := create_eq_ok hdone
  obtain rfl := Except.ok.inj (ht'.symm.trans ht)
  rcases Resource.create_keeps hc hkeeps w.now w.ids t'.code ⟨.ofList found, allTags⟩ user with
    ⟨⟨e, hfailed⟩, _⟩ | ⟨d, items, t, hget, hd, hkeeps', hcode, htagged⟩
  · cases hfailed.symm.trans hcreate
  · obtain rfl := Option.some.inj (hcode.symm.trans hhas)
    have hget : Resource.get i.setup (Backend.database d) t.code w.ids.take.1 = .ok r := hget.symm.trans hcreate
    have hid : r.id = w.ids.take.1 := Resource.id_of_get hkeeps' hhas hget
    have hfiles : w'.files = w.files.keep (.file place) i.table (.database d) := by
      rw [← hleft]
      exact congrArg (w.files.keep (.file place) i.table) ((congrArg Prod.snd hstore).trans hd)
    refine ⟨found, d, items, r, hfound, rfl, openStore_eq_ok_iff.mpr ⟨hplace, ?_⟩, ?_, hkeeps', hid ▸ hget,
      fun field hf value hvalue => ?_⟩
    · rw [hfiles]
      exact Files.openTable_keep hpath htable d
    · rw [hfiles]
      exact Files.keep_keep hpath d
    · exact hid ▸ htagged field hf (Catalog.standard_sound.unflagged t hhas field hf) value hvalue

end

/-- What the resources of a type are listed by when the value of one field is given. -/
def fieldQuery (name value : String) (token : Option String) : ListQuery :=
  { tags := .ofList [], fields := .ofList [(name, value)], count := some ({} : Settings).pageSize, token }

section
variable {w : World} {i : Invocation} {place type : String} {d : Database} {t : ResourceType}
  (hopen : openStore w.files i = .ok (.file place, .database d))
  (hkeep : w.files.keep (.file place) i.table (.database d) = w.files)
  (ht : Catalog.standard.resolve type = .ok t) {name : String} (hname : name ∈ t.searchable) (value : String)
include hopen hkeep ht hname

theorem run_listing {token : Option String} {page : ResourcePage}
    (hlist : Resource.list i.setup (Backend.database d) t.code (fieldQuery name value token) = .ok page) :
    run w (i.listing type (name ++ "=" ++ value) token) = (.ok (page.json.pretty 0 ++ "\n"), w) := by
  have hopen' : openStore w.files (i.listing type (name ++ "=" ++ value) token) =
      .ok (.file place, .database d) := hopen
  obtain ⟨hempty, hequals⟩ := Catalog.standard_searchable
    (Catalog.standard_sound.toChecked.has_of_resolve ht) name hname
  have hanswer : list i.setup (Backend.database d) type [] [name ++ "=" ++ value] false false
      ({} : Settings).pageSize token = .ok page.json := by
    refine Outcome.bind_eq_ok_iff.mpr ⟨t.code, typeCode_eq_ok_iff.mpr ⟨t, ht, rfl⟩,
      Outcome.bind_eq_ok_iff.mpr ⟨.ofList [], rfl, Outcome.bind_eq_ok_iff.mpr ⟨[(name, value)], ?_, ?_⟩⟩⟩
    · rw [List.mapM_cons, assignment_append hempty hequals]
      rfl
    · exact Outcome.bind_eq_ok_iff.mpr ⟨page, Outcome.mapError_eq_ok_iff.mpr hlist, rfl⟩
  have hdone : carryOut i.setup w.now w.ids (Backend.database d)
      (i.listing type (name ++ "=" ++ value) token).command = (.ok page.json, w.ids, .database d) :=
    congrArg (·, w.ids, Backend.database d) hanswer
  rw [run_eq hopen']
  refine (congrArg (w.after (.file place) i.table) hdone).trans ?_
  rw [World.after, hkeep]
  rfl

variable {items : SortedMap ItemKey Item} (h : d.Keeps .standard items)
include h

/-- For a page of ids of known resources the listing prints those that are shown. -/
theorem run_listing_page {token next : Option String} {ids : List String}
    (hids : Tag.idPage (Memory.readBack items) t.code (.ofList [(Key.reserved name, value)])
      ({} : Settings).pageSize token = .ok (ids, next))
    (hnodup : ids.Nodup) (hfew : ids.length < Database.maxParameters)
    (hknown : ∀ id ∈ ids, Resource.Known {} (Backend.database d) t id) :
    run w (i.listing type (name ++ "=" ++ value) token) =
      (.ok ((ResourcePage.mk (ids.filterMap (Resource.shown? {} (Backend.database d) t.code)) next).json.pretty 0 ++
        "\n"), w) := by
  have hhas := Catalog.standard_sound.toChecked.has_of_resolve ht
  have hfits : (fieldQuery name value token).Fits i.setup t := by
    refine ⟨show ({} : Settings).pageSize ≠ 0 by decide, nofun, fun field hfield => ?_, nofun, nofun⟩
    have hfield : field = name := List.mem_singleton.mp hfield
    exact hfield ▸ hname
  have hcount : ({} : Settings).pageSize + 1 < Nat.pow 2 63 := by decide
  exact run_listing hopen hkeep ht hname value (h.list_eq (q := fieldQuery name value token) hhas
    (Catalog.standard_noNull hhas) hfits rfl hcount rfl hids hnodup hfew hknown)

/-- Where a search deals out pages of known resources, the listing prints those that are shown. -/
theorem prints_of_follows {n : Nat} {token : Option String} {pages : List (List String)}
    (hpages : Follows (fun _ => Tag.idPage (Memory.readBack items) t.code (.ofList [(Key.reserved name, value)])
      ({} : Settings).pageSize) n token pages)
    (hnodup : ∀ page ∈ pages, page.Nodup) (hfew : ∀ page ∈ pages, page.length < Database.maxParameters)
    (hknown : ∀ page ∈ pages, ∀ id ∈ page, Resource.Known {} (Backend.database d) t id) :
    Prints w (i.listing type (name ++ "=" ++ value)) token
      (pages.map fun page => page.filterMap (Resource.shown? {} (Backend.database d) t.code)) := by
  induction hpages with
  | last hids =>
    simp only [List.forall_mem_singleton] at hnodup hfew hknown
    exact .last (run_listing_page hopen hkeep ht hname value h hids hnodup hfew hknown)
  | more hids _ ih =>
    rw [List.forall_mem_cons] at hnodup hfew hknown
    exact .more (run_listing_page hopen hkeep ht hname value h hids hnodup.1 hfew.1 hknown.1)
      (ih hnodup.2 hfew.2 hknown.2)

/-- Where all resources that are tagged with a value are known, the listing by it comes to an end and has
printed those of them that are shown. -/
theorem prints_listing
    (hknown : ∀ id, Resource.TaggedIn items t name value id → Resource.Known {} (Backend.database d) t id) :
    ∃ pages, Prints w (i.listing type (name ++ "=" ++ value)) none pages ∧
      ∀ r, r ∈ pages.flatten ↔ ∃ id, Resource.get {} (Backend.database d) t.code id = .ok r ∧
        Resource.TaggedIn items t name value id := by
  have hc : Catalog.standard.Checked := Catalog.standard_sound.toChecked
  have hhas := hc.has_of_resolve ht
  have hplain : ∀ tag ∈ (SortedMap.ofList [(Key.reserved name, value)]).entries,
      Key.hasDelimiter tag.1 = false := by
    intro tag htag
    have htag : tag = (Key.reserved name, value) := List.mem_singleton.mp htag
    rw [htag, Key.hasDelimiter_reserved]
    exact hc.hasDelimiter_searchable hhas hname
  have hcode : Key.hasDelimiter t.code = false := hc.hasDelimiter_code hhas
  have hne : (SortedMap.ofList [(Key.reserved name, value)]).entries ≠ [] := List.cons_ne_nil _ _
  obtain ⟨ids, hasc, hids, _⟩ := Tag.searchAll_eq h.keyed_readBack h.only_readBack hcode hne hplain none
  have hcarries : ∀ id, id ∈ ids ↔ Resource.TaggedIn items t name value id := by
    intro id
    rw [hids, Resource.TaggedIn, ← h.carries_iff]
    exact and_iff_right nofun
  have hcount : ∀ _ : Nat, 0 < ({} : Settings).pageSize := fun _ => by decide
  have hdeals := Tag.idPage_deals h.keyed_readBack h.only_readBack hcode hne hplain hcount
  obtain ⟨pages, hpages⟩ := hdeals.follows hcount 0 ⟨hasc, hids⟩
  have hflatten := hdeals.flatten_eq ⟨hasc, hids⟩ hpages
  have hlength := hdeals.length_le (fun _ => Nat.le_refl _) ⟨hasc, hids⟩ hpages
  refine ⟨_, prints_of_follows hopen hkeep ht hname value h hpages (fun page hpage => ?_) (fun page hpage => ?_)
    fun page hpage id hid => ?_, fun r => ?_⟩
  · have hsub := List.sublist_flatten_of_mem hpage
    rw [hflatten] at hsub
    refine (hasc.sublist hsub).imp ?_
    rintro a b hlt rfl
    exact String.lt_irrefl a hlt
  · exact Nat.lt_of_le_of_lt (hlength page hpage) (by decide)
  · exact hknown id ((hcarries id).mp (hflatten ▸ List.mem_flatten_of_mem hpage hid))
  · rw [← List.filterMap_flatten, hflatten, List.mem_filterMap]
    simp only [Resource.shown?, Outcome.toOption_eq_some_iff, hcarries, and_comm]

end

/-- Whether a store holds the tag that stands for a value of a resource's field. -/
def Tagged (b : Backend) (t : ResourceType) (name value id : String) : Prop :=
  Store.get b (Tag.key (Key.resource t.code id) (Key.reserved name)) =
    .ok (some (Tag.item (Key.resource t.code id) (Key.reserved name) value))

/-- After a resource was created in a table that is kept in a file, following the listing by one of the
searchable fields that were given, with the argument it was given by, comes to an end, where all resources
that are tagged with the argument's value are known. The resource is among those that are listed just where
its field is tagged with the text of the argument. -/
theorem run_lists_created {w w' : World} (hw : w.files.Reached) {i : Invocation} {place path : String}
    (hplace : Location.read i.store = .ok (.file place)) (hpath : Address.read place = .ok (some path))
    {type : String} {t : ResourceType} (ht : Catalog.standard.resolve type = .ok t)
    {name value tagged : String} (hname : name ∈ t.searchable)
    (htagged : Resource.scalarText? (fieldValue value) = some tagged)
    {before after tags : List String} {user text : String}
    (hlast : ∀ other ∈ after, ∀ value', assignment other ≠ .ok (name, value'))
    (hrun : run w { i with command := .create type (before ++ (name ++ "=" ++ value) :: after) tags user } =
      (.ok text, w'))
    (hknown : ∀ location b, openStore w'.files i = .ok (location, b) →
      ∀ id, Tagged b t name value id → Resource.Known {} b t id) :
    ∃ r pages, text = r.json.pretty 0 ++ "\n" ∧
      Prints w' (i.listing type (name ++ "=" ++ value)) none pages ∧
      (tagged = value → r ∈ pages.flatten) ∧ (tagged ≠ value → ∀ s ∈ pages.flatten, s.id ≠ r.id) := by
  have hhas := Catalog.standard_sound.toChecked.has_of_resolve ht
  obtain ⟨hempty, hequals⟩ := Catalog.standard_searchable hhas name hname
  obtain ⟨found, d, items, r, hfound, htext, hopen, hkeep, hkeeps, hget, hindexed⟩ :=
    run_create hw.kept hplace hpath ht hrun
  have hjson := find?_fields hfound (assignment_append hempty hequals value) hlast
  have htag := hindexed name hname tagged (Option.bind_eq_some_iff.mpr ⟨_, hjson, htagged⟩)
  obtain ⟨pages, hprints, hpages⟩ := prints_listing hopen hkeep ht hname value hkeeps fun id hid =>
    hknown _ _ hopen id (hkeeps.get_tag hid)
  refine ⟨r, pages, htext, hprints, ?_, ?_⟩
  · rintro rfl
    exact (hpages r).mpr ⟨r.id, hget, htag⟩
  · intro hne s hs hid
    obtain ⟨id, hs, hstag⟩ := (hpages s).mp hs
    have hsid := Resource.id_of_get hkeeps hhas hs
    rw [← hsid, hid, Resource.TaggedIn, htag, Option.some.injEq] at hstag
    have hvalue := congrArg (Item.text? · Attribute.tagValue) hstag
    rw [Tag.text?_item_tagValue, Tag.text?_item_tagValue, Option.some.injEq] at hvalue
    exact hne hvalue

/-- A store in a file. -/
def inFile : Invocation := ⟨"sqlite:a", "arcade", 2, .types⟩

/-- A world in which nothing is stored. -/
def emptyWorld : World := ⟨.empty, ⟨some "a", 0⟩, ⟨0, 0⟩⟩

def alps : NewResource := ⟨.ofList [("name", .string "Alps")], .ofList []⟩

/-- What creating a group in a new table comes to. -/
def newGroup : Except Error Resource × Ids × Backend :=
  Resource.create inFile.setup emptyWorld.now emptyWorld.ids (Backend.database .empty) Catalog.group.code alps "cli"

/-- The table that creating the group leaves. -/
def newTable : Database :=
  match newGroup.2.2 with
  | .database d => d
  | .memory _ => .empty

theorem newTable_keys : newTable.rows.keys = [⟨"g:a", "g:a"⟩, ⟨"g:a", "tk:___name"⟩] := by decide +kernel

theorem newTable_reads : ∀ row ∈ newTable.rows.values, row.item?.isSome = true := by
  have hall : (newTable.rows.values.all fun row => row.item?.isSome) = true := by decide +kernel
  exact List.all_eq_true.mp hall

/-- The group is there, and its table keeps proper items. -/
theorem newGroup_kept : newGroup.2.2 = .database newTable ∧
    newGroup.1 = Resource.get {} (Backend.database newTable) Catalog.group.code "a" ∧
    newGroup.1.isOk = true ∧ ∃ items, newTable.Keeps .standard items := by
  have hc : inFile.setup.catalog.Checked := Catalog.standard_sound.toChecked
  rcases Resource.create_keeps hc (Database.keeps_empty .standard) emptyWorld.now
    emptyWorld.ids Catalog.group.code alps "cli" with
    ⟨_, hstays⟩ | ⟨d, items, _, hget, hleft, hkeeps, _⟩
  · have hstays : newGroup.2.2 = .database .empty := hstays
    have hkeys := newTable_keys
    rw [newTable, hstays] at hkeys
    cases hkeys
  · have hleft : newGroup.2.2 = .database d := hleft
    have hget : newGroup.1 = Resource.get {} (Backend.database d) Catalog.group.code "a" := hget
    obtain rfl : newTable = d := by rw [newTable, hleft]
    have hgroup : ({} : Setup).catalog.Has Catalog.group := rfl
    refine ⟨hleft, hget, ?_, items, hkeeps⟩
    rw [hget, hkeeps.get_decoded hgroup newTable_reads]
    decide +kernel

theorem newTable_known {name value id : String} (h : Tagged (.database newTable) Catalog.group name value id) :
    Resource.Known {} (Backend.database newTable) Catalog.group id := by
  have hkey := Database.mem_keys_of_get h
  have hid : Key.resource Catalog.group.code id = Key.resource Catalog.group.code "a" := by
    rw [newTable_keys, List.mem_cons, List.mem_singleton] at hkey
    rcases hkey with hkey | hkey <;> exact congrArg ItemKey.partition hkey
  obtain rfl := Key.resource_right_inj.mp hid
  obtain ⟨_, hget, hok, _⟩ := newGroup_kept
  intro e he
  rw [hget, he] at hok
  cases hok

theorem read_inFile : Location.read inFile.store = .ok (.file "a") := by decide

theorem address_inFile : Address.read "a" = .ok (some "a") := by
  have hpath : (Address.read "a").toOption = some (some "a") := by decide +kernel
  exact Outcome.toOption_eq_some_iff.mp hpath

theorem openTable_inFile :
    emptyWorld.files.openTable (.file "a") inFile.table = .ok (.database .empty) := by
  have hcreate : (Database.create inFile.table).isOk = true := by decide +kernel
  obtain ⟨d, hd⟩ := Outcome.isOk_iff.mp hcreate
  refine (Files.openTable_eq_ok_iff address_inFile).mpr
    ⟨by decide, .empty, Files.openIn_eq_ok_iff.mpr ⟨?_, rfl, rfl⟩, rfl⟩
  exact Database.eq_empty_of_create hd ▸ hd

/-- The world after the group was created. -/
def withGroup : World :=
  ⟨emptyWorld.files.keep (.file "a") inFile.table (.database newTable), newGroup.2.1, emptyWorld.now⟩

theorem openStore_withGroup : openStore withGroup.files inFile = .ok (.file "a", .database newTable) :=
  openStore_eq_ok_iff.mpr ⟨by decide, Files.openTable_keep address_inFile openTable_inFile newTable⟩

/-- Whatever spelling of its name is given, it is the same group that is created. -/
theorem run_newGroup {text : String} (htext : fields [text] = .ok [("name", .string "Alps")]) :
    run emptyWorld { inFile with command := .create "group" [text] [] "cli" } =
      (((within ("Failed to create " ++ "group") newGroup.1).map Resource.json).map fun j => j.pretty 0 ++ "\n",
        withGroup) := by
  have hopen : openStore emptyWorld.files { inFile with command := .create "group" [text] [] "cli" } =
      .ok (.file "a", .database .empty) := openStore_eq_ok_iff.mpr ⟨read_inFile, openTable_inFile⟩
  have hgroup : Catalog.standard.resolve "group" = .ok Catalog.group := rfl
  have hcreate : carryOut inFile.setup emptyWorld.now emptyWorld.ids (Backend.database .empty)
      (.create "group" [text] [] "cli") =
        ((within ("Failed to create " ++ "group") newGroup.1).map Resource.json, newGroup.2) :=
    create_eq hgroup htext (show Tag.readPairs [] = .ok (.ofList []) from rfl)
  refine (run_eq hopen).trans ((congrArg (World.after _ _ _) hcreate).trans ?_)
  rw [World.after, newGroup_kept.1]
  rfl

theorem run_lists_created_alps :
    ∃ text r pages,
      run emptyWorld { inFile with command := .create "group" ["name=Alps"] [] "cli" } = (.ok text, withGroup) ∧
      text = r.json.pretty 0 ++ "\n" ∧ Prints withGroup (inFile.listing "group" "name=Alps") none pages ∧
      r ∈ pages.flatten := by
  have htext : fields ["name=Alps"] = .ok [("name", .string "Alps")] := rfl
  obtain ⟨group, hgroup⟩ := Outcome.isOk_iff.mp newGroup_kept.2.2.1
  have hrun := run_newGroup htext
  rw [hgroup] at hrun
  have hknown : ∀ location b, openStore withGroup.files inFile = .ok (location, b) →
      ∀ id, Tagged b Catalog.group "name" "Alps" id → Resource.Known {} b Catalog.group id := by
    intro location b hopen id htagged
    obtain ⟨rfl, rfl⟩ := Prod.mk.inj (Except.ok.inj (openStore_withGroup.symm.trans hopen))
    exact newTable_known htagged
  have hname : "name" ∈ Catalog.group.searchable := by decide
  have htagged : Resource.scalarText? (fieldValue "Alps") = some "Alps" := by decide +kernel
  have hlast : ∀ other ∈ [], ∀ value', assignment other ≠ .ok ("name", value') := nofun
  have hgroup : Catalog.standard.resolve "group" = .ok Catalog.group := rfl
  obtain ⟨r, pages, htext, hprints, hlisted, _⟩ :=
    run_lists_created .empty read_inFile address_inFile hgroup hname htagged hlast
      (show run emptyWorld
        { inFile with command := .create "group" ([] ++ ("name" ++ "=" ++ "Alps") :: []) [] "cli" } = _ from hrun)
      hknown
  exact ⟨_, r, pages, hrun, htext, hprints, hlisted rfl⟩

/-- A name in quotes is stored without them, and then not listed by the name in quotes. -/
theorem run_lists_created_quoted :
    ∃ text,
      run emptyWorld { inFile with command := .create "group" ["name=\"Alps\""] [] "cli" } = (.ok text, withGroup) ∧
      fieldValue "\"Alps\"" = .string "Alps" ∧
      Prints withGroup (inFile.listing "group" "name=\"Alps\"") none [[]] := by
  have hvalue : fieldValue "\"Alps\"" = .string "Alps" := by
    have hread : (fieldValue "\"Alps\"").string? = some "Alps" := by decide +kernel
    generalize fieldValue "\"Alps\"" = json at hread
    cases json <;> cases hread
    rfl
  have htext : fields ["name=\"Alps\""] = .ok [("name", .string "Alps")] := by
    rw [← hvalue]
    rfl
  obtain ⟨_, _, hok, items, hkeeps⟩ := newGroup_kept
  obtain ⟨group, hgroup⟩ := Outcome.isOk_iff.mp hok
  have hrun := run_newGroup htext
  rw [hgroup] at hrun
  have hids : Tag.idPage (Memory.readBack items) Catalog.group.code (.ofList [(Key.reserved "name", "\"Alps\"")])
      ({} : Settings).pageSize none = .ok ([], none) := by
    rw [hkeeps.readBack_eq newTable_reads]
    exact Outcome.toOption_eq_some_iff.mp (by decide +kernel)
  exact ⟨_, hrun, hvalue, prints_of_follows openStore_withGroup (Files.keep_keep address_inFile newTable)
    (t := Catalog.group) rfl (by decide) _ hkeeps (n := 0) (.last hids) (by simp) (by simp [Database.maxParameters])
    (by simp)⟩

end CommandLine

end TagStore
