import TagStore.Proofs.Deleting
import TagStore.Proofs.Updating

namespace TagStore

/-- What may be done to a store: calls that change resources, and faults for writes to come. -/
inductive Call where
  | create (now : Instant) (ids : Ids) (code : String) (new : NewResource) (user : String)
  | update (now : Instant) (code id : String) (change : ResourceUpdate) (user : String)
  | delete (code id : String)
  | inject (fault : Fault)

namespace Call

/-- The store that a call leaves, whatever it answers. -/
def run (setup : Setup) (m : Memory) : Call → Memory
  | create now ids code new user => (Resource.create setup now ids m code new user).2.2
  | update now code id change user => (Resource.update setup now m code id change user).2
  | delete code id => (Resource.delete setup m code id).2
  | inject fault => m.inject fault

/-- The store that calls in turn leave of an empty one. -/
def runAll (setup : Setup) (calls : List Call) : Memory := calls.foldl (run setup) .empty

/-- Whether the clock shows a year of four digits. -/
def Timely : Call → Prop
  | create now .. => Rfc3339.Readable now
  | update now .. => Rfc3339.Readable now
  | delete .. => True
  | inject _ => True

/-- Whether no resource is created under the id that pointers are found by. -/
def Fresh : Call → Prop
  | create _ ids .. => ids.take.1 ≠ Key.latestMark
  | update .. => True
  | delete .. => True
  | inject _ => True

/-- What a call keeps is kept by calls in turn. -/
theorem foldl_induction {setup : Setup} (P : Memory → Prop) {calls : List Call}
    (hstep : ∀ m, P m → ∀ call ∈ calls, P (call.run setup m)) {m : Memory} (h : P m) :
    P (calls.foldl (run setup) m) := by
  induction calls generalizing m with
  | nil => exact h
  | cons call calls ih =>
    exact ih (fun m h later hl => hstep m h later (List.mem_cons_of_mem _ hl))
      (hstep m h call List.mem_cons_self)

/-- What a call keeps and an empty store has is so after any calls. -/
theorem runAll_induction {setup : Setup} (P : Memory → Prop) (hempty : P .empty) {calls : List Call}
    (hstep : ∀ m, P m → ∀ call ∈ calls, P (call.run setup m)) : P (runAll setup calls) :=
  foldl_induction P hstep hempty

end Call

theorem Mirrors.empty (c : Catalog) : Mirrors c (SortedMap.find? SortedMap.empty) .empty :=
  ⟨fun _ _ _ _ => rfl, fun t id name _ => by rw [Registry.tag?_of_none rfl]; rfl,
    fun _ _ _ _ _ => rfl, nofun⟩

theorem Stands.empty (c : Catalog) : Stands c .empty .empty :=
  ⟨Registry.sound_empty c, Mirrors.empty c⟩

theorem Stands.of_items_eq {c : Catalog} {m m' : Memory} {r : Registry} (h : Stands c m r)
    (hitems : m'.items = m.items) : Stands c m' r :=
  ⟨h.sound, hitems ▸ h.mirrors⟩

theorem Holds.empty (c : Catalog) : Holds c .empty .empty :=
  ⟨.empty c, nofun⟩

theorem Holds.of_items_eq {c : Catalog} {m m' : Memory} {r : Registry} (h : Holds c m r)
    (hitems : m'.items = m.items) : Holds c m' r :=
  ⟨h.toStands.of_items_eq hitems, h.legible⟩

namespace Call
variable {setup : Setup} (hc : setup.catalog.Sound) (hapart : ∀ code id, setup.catalog.Apart code id)
include hc hapart

/-- A call leaves a store that stands for a sound registry, whatever the clock shows. -/
theorem run_stands {m : Memory} {r : Registry} (h : Stands setup.catalog m r) (call : Call) :
    ∃ r', Stands setup.catalog (call.run setup m) r' := by
  cases call with
  | create now ids code new user =>
    rcases Resource.create_enlists hc h now ids (hapart code ids.take.1) new user with
      ⟨_, hitems⟩ | ⟨_, _, _, _, _, _, _, h'⟩
    · exact ⟨r, h.of_items_eq hitems⟩
    · exact ⟨_, h'⟩
  | update now code id change user =>
    rcases Resource.update_revises hc h now code id change user with
      ⟨_, hitems⟩ | ⟨_, _, _, _, _, _, _, _, _, _, h'⟩
    · exact ⟨r, h.of_items_eq hitems⟩
    · exact ⟨_, h'⟩
  | delete code id =>
    rcases Resource.delete_delists hc h code id with ⟨_, hitems⟩ | ⟨_, _, r', _, _, _, _, _, _, h'⟩
    · exact ⟨r, h.of_items_eq hitems⟩
    · exact ⟨r', h'⟩
  | inject fault => exact ⟨r, h.of_items_eq rfl⟩

theorem runAll_stands (calls : List Call) : ∃ r, Stands setup.catalog (runAll setup calls) r := by
  apply runAll_induction (fun m => ∃ r, Stands setup.catalog m r) ⟨.empty, Stands.empty _⟩
  rintro m ⟨r, h⟩ call _
  exact run_stands hc hapart h call

/-- A call leaves a store that holds the resources of a sound registry. -/
theorem run_holds {m : Memory} {r : Registry} (h : Holds setup.catalog m r) {call : Call}
    (htimely : call.Timely) : ∃ r', Holds setup.catalog (call.run setup m) r' := by
  cases call with
  | create now ids code new user =>
    rcases Resource.create_cases hc h htimely ids (hapart code ids.take.1) new user with
      ⟨_, hitems⟩ | ⟨_, _, _, _, _, _, _, hholds⟩
    · exact ⟨r, h.of_items_eq hitems⟩
    · exact ⟨_, hholds⟩
  | update now code id change user =>
    rcases Resource.update_cases hc h htimely code id change user with
      ⟨_, hitems⟩ | ⟨_, _, _, _, _, _, _, hholds⟩
    · exact ⟨r, h.of_items_eq hitems⟩
    · exact ⟨_, hholds⟩
  | delete code id =>
    rcases Resource.delete_cases hc h code id with ⟨_, hitems⟩ | ⟨_, r', _, _, _, _, hholds⟩
    · exact ⟨r, h.of_items_eq hitems⟩
    · exact ⟨r', hholds⟩
  | inject fault => exact ⟨r, h.of_items_eq rfl⟩

/-- Whatever calls are made, some of which may fail, resources and items go on to mirror each other. -/
theorem runAll_holds {calls : List Call} (htimely : ∀ call ∈ calls, call.Timely) :
    ∃ r, Holds setup.catalog (runAll setup calls) r := by
  apply runAll_induction (fun m => ∃ r, Holds setup.catalog m r) ⟨.empty, Holds.empty _⟩
  intro m hm call hcall
  obtain ⟨r, h⟩ := hm
  exact run_holds hc hapart h (htimely call hcall)

end Call

end TagStore
