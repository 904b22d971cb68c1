import TagStore.Proofs.Effects
import TagStore.Proofs.Runs

namespace TagStore

/-- A store, and the answers that it gave to batches. -/
structure Journal (σ : Type) where
  store : σ
  answers : List (Except StoreError Unit)

namespace Journal
variable {σ : Type}

/-- How many batches were committed. -/
def commits (j : Journal σ) : Nat := j.answers.countP Except.isOk

variable [Store σ]

instance : Store (Journal σ) where
  name j := Store.name j.store
  get j := Store.get j.store
  read j := Store.read j.store
  transact j ops :=
    let (answer, s) := Store.transact j.store ops
    (answer, ⟨s, j.answers ++ [answer]⟩)
  size j := Store.size j.store

section
variable (j : Journal σ) (setup : Setup)

theorem collect_eq (pages : Nat) (w : Walk) : w.collect j pages = w.collect j.store pages := by
  induction pages generalizing w with
  | zero => rfl
  | succ pages ih =>
    have hnext : w.next j = w.next j.store := rfl
    simp only [Walk.collect, hnext, ih]

theorem search_eq (b : Batch) (gone : String) (pages : Nat) (w : Walk) :
    Version.search j b gone pages w = Version.search j.store b gone pages w := by
  induction pages generalizing w with
  | zero => rfl
  | succ pages ih =>
    have hnext : w.next j = w.next j.store := rfl
    simp only [Version.search, hnext, ih]

theorem load_eq (t : ResourceType) (id : String) :
    Resource.load j t id = Resource.load j.store t id := by
  have hitems : Listing.items j t.code id = Listing.items j.store t.code id := collect_eq j _ _
  simp only [Resource.load, hitems]

theorem get_eq (code id : String) : Resource.get setup j code id = Resource.get setup j.store code id := by
  simp only [Resource.get, load_eq]

theorem gather_eq (code : String) (count : Nat) (tag : String × String) (reads : Nat) (ids : List String)
    (start : Option StartKey) :
    Tag.gather j code count tag reads ids start = Tag.gather j.store code count tag reads ids start := by
  induction reads generalizing ids start with
  | zero => rfl
  | succ reads ih =>
    have hread : ∀ r, Store.read j r = Store.read j.store r := fun _ => rfl
    simp only [Tag.gather, hread, ih]

theorem checkChildless_eq (t : ResourceType) (id : String) (links : List (ResourceType × String)) :
    Resource.checkChildless j t id links = Resource.checkChildless j.store t id links := by
  induction links with
  | nil => rfl
  | cons link links ih =>
    have hsearch : Tag.search j link.1.code 1 (Key.reserved link.2, id) none =
        Tag.search j.store link.1.code 1 (Key.reserved link.2, id) none := by
      simp only [Tag.search, gather_eq]
      rfl
    simp only [Resource.checkChildless, hsearch, ih]

theorem createPlan_eq (now : Instant) (id code : String) (new : NewResource) (user : String) :
    Resource.createPlan setup now id j code new user =
      Resource.createPlan setup now id j.store code new user := by
  have hplan : ∀ t fields, Resource.planCreate j t now id fields new.tags user =
    Resource.planCreate j.store t now id fields new.tags user := fun _ _ => rfl
  simp only [Resource.createPlan, Resource.newFields, get_eq, hplan]

theorem updatePlan_eq (now : Instant) (code id : String) (change : ResourceUpdate) (user : String) :
    Resource.updatePlan setup now j code id change user =
      Resource.updatePlan setup now j.store code id change user := by
  simp only [Resource.updatePlan, Resource.planUpdate, load_eq]

theorem deletePlan_eq (code id : String) :
    Resource.deletePlan setup j code id = Resource.deletePlan setup j.store code id := by
  have hsize : Store.size j = Store.size j.store := rfl
  have hfind : ∀ key, Pointer.find? j key = Pointer.find? j.store key := fun _ => rfl
  simp only [Resource.deletePlan, Resource.planDelete, load_eq, checkChildless_eq, Version.removeChild,
    search_eq, hsize, hfind]

omit setup in
theorem transact_eq (ops : List WriteOp) {answer : Except StoreError Unit} {s : σ}
    (h : Store.transact j.store ops = (answer, s)) :
    Store.transact j ops = (answer, ⟨s, j.answers ++ [answer]⟩) := by
  change (let (answer, s) := Store.transact j.store ops; (answer, (⟨s, j.answers ++ [answer]⟩ : Journal σ))) = _
  rw [h]

end

/-- A batch is committed in a journal as it is in its store, and the journal shows it once if it is. -/
theorem run_eq (ops : List WriteOp) (more : Nat) (j : Journal σ) :
    let done := Commit.run ops more j.store
    (Commit.run ops more j).1 = done.1 ∧ (Commit.run ops more j).2.store = done.2 ∧
      (Commit.run ops more j).2.commits = j.commits + if done.1.isOk then 1 else 0 := by
  induction more generalizing j with
  | zero =>
    rw [Commit.run, Commit.run]
    rcases h : Store.transact j.store ops with ⟨answer, s⟩
    rw [transact_eq j ops h]
    cases answer with
    | ok _ => simp [commits, Except.isOk, Except.toBool]
    | error e => cases e <;> simp [commits, Except.isOk, Except.toBool]
  | succ more ih =>
    rw [Commit.run, Commit.run]
    rcases h : Store.transact j.store ops with ⟨answer, s⟩
    rw [transact_eq j ops h]
    cases answer with
    | ok _ => simp [commits, Except.isOk, Except.toBool]
    | error e =>
      cases e with
      | cancelled reasons =>
        -- The batch is tried again, with an answer in the journal that is no commit.
        obtain ⟨hanswer, hstore, hcommits⟩ := ih ⟨s, j.answers ++ [.error (.cancelled reasons)]⟩
        refine ⟨hanswer, hstore, hcommits.trans ?_⟩
        simp [commits, Except.isOk, Except.toBool]
      | _ => simp [commits, Except.isOk, Except.toBool]

end Journal

/-- Whether a call changes no item and commits nothing, or commits one batch, as its answer tells. The same
call is made on the store and on a journal of it. -/
structure AllOrNothing {α : Type} (m : Memory) (plain : Except Error α × Memory)
    (recorded : Except Error α × Journal Memory) : Prop where
  answer : recorded.1 = plain.1
  store : recorded.2.store = plain.2
  failed : ∀ e, plain.1 = .error e → plain.2.items = m.items ∧ recorded.2.commits = 0
  done : ∀ a, plain.1 = .ok a → recorded.2.commits = 1

namespace Resource

/-- A plan that can be read back once it is committed is carried out as a whole or not at all. -/
theorem carryOut_allOrNothing {α : Type} (attempts : Nat) (m : Memory)
    {answer : Memory → Except Error α} {recorded : Journal Memory → Except Error α}
    (hanswer : ∀ j, recorded j = answer j.store) {plan : Except Error (List WriteOp)}
    (hplan : ∀ ops, plan = .ok ops → ∃ b, ops = Batch.ops b ∧ b.Keyed ∧ b.ops ≠ [] ∧
      ∀ m', m'.items.find? = b.effect m.items → ∃ a, answer m' = .ok a) :
    AllOrNothing m (carryOut attempts m answer plan)
      (carryOut attempts (⟨m, []⟩ : Journal Memory) recorded plan) := by
  cases plan with
  | error e => exact ⟨rfl, rfl, fun _ _ => ⟨rfl, rfl⟩, fun _ h => by cases h⟩
  | ok ops =>
    obtain ⟨b, rfl, hkeyed, hne, hread⟩ := hplan ops rfl
    have hrun : ∀ {σ : Type} [Store σ] (s : σ),
        Commit.batch attempts b.ops s = Commit.run b.ops (attempts - 1) s := by
      intro σ _ s
      rw [Commit.batch, if_neg (by simpa using hne), Commit.within]
    obtain ⟨hsame, hstore, hcommits⟩ := Journal.run_eq b.ops (attempts - 1) ⟨m, []⟩
    rw [carryOut, carryOut, hrun, hrun]
    rcases hj : Commit.run b.ops (attempts - 1) (⟨m, []⟩ : Journal Memory) with ⟨result, j⟩
    rw [hj] at hsame hstore hcommits
    rcases Commit.batch_cases attempts hkeyed m with ⟨err, m', hcommit, hitems⟩ |
      ⟨m', hcommit, _, heffect⟩
    · rw [hrun] at hcommit
      rw [hcommit] at hsame hstore hcommits ⊢
      obtain rfl := hsame
      exact ⟨rfl, hstore, fun _ _ => ⟨hitems, hcommits⟩, fun _ h => by cases h⟩
    · rw [hrun] at hcommit
      rw [hcommit] at hsame hstore hcommits ⊢
      obtain rfl := hsame
      obtain ⟨a, ha⟩ := hread m' heffect
      refine ⟨(hanswer j).trans (congrArg answer hstore), hstore, fun e he => ?_, fun _ _ => hcommits⟩
      change answer m' = .error e at he
      rw [ha] at he
      cases he

end Resource

/-- Whether a time can be read back once it is stored. -/
def Resource.ReadBack (i : Instant) : Prop := Rfc3339.read (Resource.storedTime i) = .ok i

theorem Resource.readBack_toMillis {now : Instant} (hnow : Rfc3339.Readable now) :
    ReadBack now.toMillis := by
  rw [ReadBack, storedTime, Rfc3339.write_toMillis]
  exact Rfc3339.read_write_millis hnow

theorem Resource.ReadBack.eq {a i : Instant} (h : ReadBack a)
    (hi : Rfc3339.read (Resource.storedTime a) = .ok i) : i = a :=
  Except.ok.inj (hi.symm.trans h)

namespace Resource
variable {setup : Setup} (hc : setup.catalog.Checked) {m : Memory}
  (hm : m.Keeps setup.catalog ReadBack)
include hc hm

omit hc in
/-- A resource is read back once the batch that stores it is committed. -/
theorem Storing.get {t : ResourceType} (ht : setup.catalog.Has t) {id : String} {fields : Item}
    {audit : Audit} {b : Batch} (h : Storing setup.catalog ReadBack t id fields audit b)
    (hcreated : ReadBack audit.createdAt) (hupdated : ∀ u ∈ audit.updated, ReadBack u.1) {m' : Memory}
    (heffect : m'.items.find? = b.effect m.items) : ∃ r, Resource.get setup m' t.code id = .ok r := by
  have hw := h.written hm heffect
  obtain ⟨r, hload⟩ := hw.stores.load hw.keeps.keyed hcreated hupdated
  refine ⟨r, ?_⟩
  rw [Resource.get, findType_eq_ok_iff.mpr ht]
  simp only [hload, bind, Except.bind, pure, Except.pure]

theorem create_allOrNothing {now : Instant} (hnow : Rfc3339.Readable now) {ids : Ids}
    (hid : ids.take.1 ≠ Key.latestMark) (code : String) (new : NewResource) (user : String) :
    let plain := create setup now ids m code new user
    let recorded := create setup now ids (⟨m, []⟩ : Journal Memory) code new user
    AllOrNothing m (plain.1, plain.2.2) (recorded.1, recorded.2.2) := by
  intro plain recorded
  obtain ⟨hanswer, hstore⟩ := create_eq_carryOut setup now ids m code new user
  obtain ⟨hanswer', hstore'⟩ := create_eq_carryOut setup now ids (⟨m, []⟩ : Journal Memory) code new user
  rw [hanswer, hstore, hanswer', hstore', Journal.createPlan_eq]
  apply carryOut_allOrNothing _ m fun j => Journal.get_eq j setup code ids.take.1
  intro ops hplan
  obtain ⟨t, fields, b, ht, rfl, _, rfl, hstoring, _⟩ :=
    createPlan_storing hc hm (readBack_toMillis hnow) hid hplan
  exact ⟨b, rfl, Serves.keyed hstoring.serves, hstoring.ops_ne_nil, fun m' heffect =>
    hstoring.get hm ht (readBack_toMillis hnow) nofun heffect⟩

theorem update_allOrNothing {now : Instant} (hnow : Rfc3339.Readable now) (code id : String)
    (change : ResourceUpdate) (user : String) :
    AllOrNothing m (update setup now m code id change user)
      (update setup now (⟨m, []⟩ : Journal Memory) code id change user) := by
  rw [update_eq_carryOut, update_eq_carryOut, Journal.updatePlan_eq]
  apply carryOut_allOrNothing _ m fun j => Journal.get_eq j setup code id
  intro ops hplan
  obtain ⟨t, existing, b, ht, rfl, rfl, _, _, hcreated, hstoring, _⟩ :=
    updatePlan_storing hc hm (fun a i ha hi => ha.eq hi ▸ ha) hplan
  refine ⟨b, rfl, Serves.keyed hstoring.serves, hstoring.ops_ne_nil, fun m' heffect =>
    hstoring.get hm ht hcreated (fun u hu => ?_) heffect⟩
  cases hu
  exact readBack_toMillis hnow

theorem delete_allOrNothing (code id : String) :
    AllOrNothing m (delete setup m code id) (delete setup (⟨m, []⟩ : Journal Memory) code id) := by
  rw [delete_eq_carryOut, delete_eq_carryOut, Journal.deletePlan_eq]
  apply carryOut_allOrNothing _ m fun _ => rfl
  intro ops hplan
  obtain ⟨t, b, ht, _, rfl, hthere, _, hserves, hgone⟩ := deletePlan_serves hc hm hplan
  refine ⟨b, rfl, Serves.keyed hserves, fun hnil => ?_, fun _ _ => ⟨(), rfl⟩⟩
  obtain ⟨fields, hf⟩ := Option.isSome_iff_exists.mp hthere
  obtain ⟨audit, _, hs⟩ := hm.fieldsOf?_eq_some hc ht hf
  obtain ⟨item, _, hstored⟩ := hs.stored
  rw [Batch.effect, Batch.find?_of_ops_eq_nil hnil] at hgone
  rw [hstored] at hgone
  cases hgone

end Resource

/-- Calls on a clock that can be read back leave nothing else in a store. -/
theorem Call.run_keeps {setup : Setup} (hc : setup.catalog.Checked) {m : Memory}
    (hm : m.Keeps setup.catalog Resource.ReadBack) {call : Call} (htimely : call.Timely)
    (hfresh : call.Fresh) : (call.run setup m).Keeps setup.catalog Resource.ReadBack := by
  have hunchanged : ∀ m' : Memory, m'.items = m.items → m'.Keeps setup.catalog Resource.ReadBack := by
    intro m' hitems key item hf
    exact hm key item (hitems ▸ hf)
  cases call with
  | create now ids code new user =>
    rcases Resource.create_written hc hm (Resource.readBack_toMillis htimely) hfresh code new user with
      ⟨_, hitems⟩ | ⟨_, _, _, _, _, hw, _⟩
    · exact hunchanged _ hitems
    · exact hw.keeps
  | update now code id change user =>
    rcases Resource.update_written hc hm (fun a i ha hi => ha.eq hi ▸ ha) now code id change user with
      ⟨_, hitems⟩ | ⟨_, _, _, _, _, _, hw, _⟩
    · exact hunchanged _ hitems
    · exact hw.keeps
  | delete code id =>
    rcases Resource.delete_gone hc hm code id with ⟨_, hitems⟩ | ⟨_, _, _, _, hkeeps, _⟩
    · exact hunchanged _ hitems
    · exact hkeeps
  | inject fault => exact hunchanged _ rfl

/-- After any calls, whatever faults are to come and however often a batch is tried: a call that fails
leaves the items as they are, and one that succeeds has committed one batch. -/
theorem Call.runAll_allOrNothing {c : Catalog} (hc : c.Registered) (before settings : Settings)
    {calls : List Call} (htimely : ∀ call ∈ calls, call.Timely) (hfresh : ∀ call ∈ calls, call.Fresh)
    (faults : List Fault) :
    let setup : Setup := ⟨c, settings⟩
    let m : Memory := { runAll ⟨c, before⟩ calls with faults }
    let journal : Journal Memory := ⟨m, []⟩
    (∀ now ids code new user, Rfc3339.Readable now → ids.take.1 ≠ Key.latestMark →
      let plain := Resource.create setup now ids m code new user
      let recorded := Resource.create setup now ids journal code new user
      AllOrNothing m (plain.1, plain.2.2) (recorded.1, recorded.2.2)) ∧
    (∀ now code id change user, Rfc3339.Readable now →
      AllOrNothing m (Resource.update setup now m code id change user)
        (Resource.update setup now journal code id change user)) ∧
    ∀ code id, AllOrNothing m (Resource.delete setup m code id) (Resource.delete setup journal code id) := by
  intro setup m journal
  have hm : m.Keeps c Resource.ReadBack := by
    have hrun : (runAll ⟨c, before⟩ calls).Keeps c Resource.ReadBack :=
      runAll_induction (fun m => m.Keeps c Resource.ReadBack) nofun fun m hm call hcall =>
        run_keeps hc.checked hm (htimely call hcall) (hfresh call hcall)
    exact fun key item hf => hrun key item hf
  have hchecked : setup.catalog.Checked := hc.checked
  refine ⟨fun now ids code new user hnow hid => ?_, fun now code id change user hnow => ?_,
    fun code id => ?_⟩
  · exact Resource.create_allOrNothing hchecked hm hnow hid code new user
  · exact Resource.update_allOrNothing hchecked hm hnow code id change user
  · exact Resource.delete_allOrNothing hchecked hm code id

/-- A region is created at the second attempt, and not where both are in conflict. -/
theorem Call.runAll_allOrNothing_conflicts :
    let calls : List Call := [.create ⟨0, 0⟩ ⟨some "a", 0⟩ "g" ⟨.ofList [("name", .string "Alps")], .empty⟩ "u"]
    let new : NewResource := ⟨.ofList [("groupId", .string "a")], .ofList [("area", "wide")]⟩
    (∀ call ∈ calls, call.Timely) ∧ (∀ call ∈ calls, call.Fresh) ∧ Rfc3339.Readable ⟨1, 0⟩ ∧
      (Resource.create ⟨.standard, {}⟩ ⟨1, 0⟩ ⟨some "b", 0⟩
        (⟨{ runAll ⟨.standard, {}⟩ calls with faults := [.conflict] }, []⟩ : Journal Memory)
        "r" new "u").2.2.commits = 1 ∧
      (Resource.create ⟨.standard, {}⟩ ⟨1, 0⟩ ⟨some "b", 0⟩
        { runAll ⟨.standard, {}⟩ calls with faults := [.conflict, .conflict] } "r" new "u").2.2.items =
          (runAll ⟨.standard, {}⟩ calls).items := by
  intro calls new
  have htimely : ∀ call ∈ calls, call.Timely := by
    simp only [calls, List.forall_mem_cons, List.not_mem_nil, false_implies, implies_true, and_true]
    exact ⟨by decide, by decide, by decide⟩
  have hfresh : ∀ call ∈ calls, call.Fresh := by
    simp [calls, Fresh, Ids.take, Key.latestMark]
  have hnow : Rfc3339.Readable ⟨1, 0⟩ := ⟨by decide, by decide, by decide⟩
  have hid : (⟨some "b", 0⟩ : Ids).take.1 ≠ Key.latestMark := by simp [Ids.take, Key.latestMark]
  have hfirst := (runAll_allOrNothing .standard {} {} htimely hfresh [.conflict]).1
  have hsecond := (runAll_allOrNothing .standard {} {} htimely hfresh [.conflict, .conflict]).1
  obtain ⟨_, _, _, hdone⟩ := hfirst ⟨1, 0⟩ ⟨some "b", 0⟩ "r" new "u" hnow hid
  obtain ⟨_, _, hfailed, _⟩ := hsecond ⟨1, 0⟩ ⟨some "b", 0⟩ "r" new "u" hnow hid
  dsimp only at hdone hfailed ⊢
  refine ⟨htimely, hfresh, hnow, ?_, ?_⟩
  · have hok : (Resource.create ⟨.standard, {}⟩ ⟨1, 0⟩ ⟨some "b", 0⟩
        { runAll ⟨.standard, {}⟩ calls with faults := [.conflict] } "r" new "u").1.isOk = true := by
      decide +kernel
    obtain ⟨r, hr⟩ := Outcome.isOk_iff.mp hok
    exact hdone r hr
  · have hfail : (Resource.create ⟨.standard, {}⟩ ⟨1, 0⟩ ⟨some "b", 0⟩
        { runAll ⟨.standard, {}⟩ calls with faults := [.conflict, .conflict] } "r" new "u").1.isOk =
          false := by
      decide +kernel
    obtain ⟨e, he⟩ := Outcome.isOk_eq_false_iff.mp hfail
    exact (hfailed e he).1

end TagStore
