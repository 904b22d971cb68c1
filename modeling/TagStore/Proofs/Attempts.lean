import TagStore.Proofs.AtomicWrites
import TagStore.Proofs.Journals

namespace TagStore
variable {ops : List WriteOp}

open WriteOp (Valid)

/-- Whether an answer is that a batch was cancelled. -/
def Cancelled (answer : Except StoreError Unit) : Prop := ∃ reasons, answer = .error (.cancelled reasons)

namespace Memory
variable {m : Memory}

/-- A valid batch takes a fault from the queue, if there is one, and changes no item unless it is applied. -/
theorem transact_valid (h : Valid ops) : (m.transact ops).2.faults = m.faults.drop 1 ∧
    ((∃ e, (m.transact ops).1 = .error e ∧ (m.transact ops).2.items = m.items) ∨
      (m.transact ops).1 = .ok () ∧ m.faults = []) := by
  cases hfaults : m.faults with
  | cons fault faults =>
    obtain ⟨e, he⟩ := (m.atomic ops).faulted h fault faults hfaults
    rw [he]
    exact ⟨rfl, .inl ⟨e, rfl, rfl⟩⟩
  | nil =>
    refine ⟨m.faults_transact hfaults ops, ?_⟩
    rcases m.transact_settles ops with ⟨e, he, hitems⟩ | ⟨_, _, _, hok, _⟩
    · exact .inl ⟨e, he, hitems⟩
    · exact .inr ⟨hok, rfl⟩

theorem cancelled_of_conflict (h : Valid ops) {faults : List Fault} (hfaults : m.faults = .conflict :: faults) :
    Cancelled (m.transact ops).1 := by
  obtain ⟨es, hes, _⟩ := h.exists_entries
  refine ⟨es.map fun e => .conflict conflictMessage e.1, ?_⟩
  simp only [transact, hes, hfaults]

/-- Without faults to come, a valid batch is applied where no operation is refused, and only there. -/
theorem transact_ok_iff (h : Valid ops) (hfaults : m.faults = []) :
    (m.transact ops).1 = .ok () ↔ ∀ op ∈ ops, ¬ op.Refused m.items.find? := by
  constructor
  · intro hok op hop hrefused
    obtain ⟨reasons, hcancelled, _⟩ := (m.atomic ops).cancelled h hfaults ⟨op, hop, hrefused⟩
    rw [hcancelled] at hok
    cases hok
  · intro hfine
    obtain ⟨_, happlied, _⟩ := (m.atomic ops).applied h hfaults hfine
    rw [happlied]

end Memory

namespace Commit

/-- What comes of a batch that is tried at most some number of times, given the answers to all tries. Each
try takes a fault from the queue, if there is one, and all but the last were cancelled. The items are those
of before, or what the batch leaves where no fault is to come. -/
structure Tried (ops : List WriteOp) (attempts : Nat) (m : Memory) (answer : Except Error Unit) (m' : Memory)
    (tries : List (Except StoreError Unit)) : Prop where
  once : tries ≠ []
  within : tries.length ≤ attempts
  given : ∀ i a, tries[i]? = some a → a = ({ m with faults := m.faults.drop i }.transact ops).1
  retried : ∀ i a, i + 1 < tries.length → tries[i]? = some a → Cancelled a
  settled : ∀ a, tries.getLast? = some a → ¬ Cancelled a → answer = a.mapError Error.store
  exhausted : ∀ reasons, tries.getLast? = some (.error (.cancelled reasons)) →
    tries.length = attempts ∧ answer = .error (.cancelled reasons)
  faults : m'.faults = m.faults.drop tries.length
  failed : ∀ e, answer = .error e → m'.items = m.items
  done : answer = .ok () →
    { m with faults := [] }.transact ops = (.ok (), { items := m'.items, faults := [] })

/-- A try that is the last one. -/
theorem Tried.stop (hvalid : Valid ops) {m : Memory} {attempts : Nat} (hattempts : 0 < attempts)
    {answer : Except Error Unit}
    (hsettled : ¬ Cancelled (m.transact ops).1 → answer = (m.transact ops).1.mapError Error.store)
    (hexhausted : ∀ reasons, (m.transact ops).1 = .error (.cancelled reasons) →
      1 = attempts ∧ answer = .error (.cancelled reasons)) :
    Tried ops attempts m answer (m.transact ops).2 [(m.transact ops).1] := by
  obtain ⟨hfaults, hcases⟩ := Memory.transact_valid (m := m) hvalid
  have hok : answer = .ok () ↔ (m.transact ops).1 = .ok () := by
    by_cases hcancelled : Cancelled (m.transact ops).1
    · obtain ⟨reasons, hreasons⟩ := hcancelled
      rw [(hexhausted reasons hreasons).2, hreasons]
      exact ⟨nofun, nofun⟩
    · rw [hsettled hcancelled]
      exact Outcome.mapError_eq_ok_iff
  refine ⟨List.cons_ne_nil _ _, hattempts, fun i a ha => ?_, fun i a hi => by simp at hi, fun a ha => ?_,
    fun reasons ha => hexhausted reasons (Option.some.inj ha), hfaults, fun e he => ?_, fun hdone => ?_⟩
  · cases i with
    | zero => exact (Option.some.inj ha).symm
    | succ i => cases ha
  · obtain rfl := Option.some.inj ha
    exact hsettled
  · rcases hcases with ⟨_, _, hitems⟩ | ⟨hdone, _⟩
    · exact hitems
    · rw [hok.mpr hdone] at he
      cases he
  · rcases hcases with ⟨_, hfailed, _⟩ | ⟨hdone', hnone⟩
    · rw [hok.mp hdone] at hfailed
      cases hfailed
    · have hm : { m with faults := [] } = m := by rw [← hnone]
      have hleft : (m.transact ops).2.faults = [] := by rw [hfaults, hnone, List.drop_nil]
      rw [hm, ← hleft]
      exact Prod.ext hdone' rfl

/-- A try that was cancelled, before others. -/
theorem Tried.again (hvalid : Valid ops) {m m' : Memory} {attempts : Nat} {answer : Except Error Unit}
    {tries : List (Except StoreError Unit)} (hcancelled : Cancelled (m.transact ops).1)
    (h : Tried ops attempts (m.transact ops).2 answer m' tries) :
    Tried ops (attempts + 1) m answer m' ((m.transact ops).1 :: tries) := by
  obtain ⟨reasons, hreasons⟩ := hcancelled
  obtain ⟨hfaults, hcases⟩ := Memory.transact_valid (m := m) hvalid
  have hitems : (m.transact ops).2.items = m.items := by
    rcases hcases with ⟨_, _, hitems⟩ | ⟨hok, _⟩
    · exact hitems
    · rw [hreasons] at hok
      cases hok
  have hstate : ∀ faults, ({ (m.transact ops).2 with faults } : Memory) = { m with faults } := fun faults =>
    congrArg (fun items => ({ items, faults } : Memory)) hitems
  have hlast : ((m.transact ops).1 :: tries).getLast? = tries.getLast? := by
    obtain ⟨a, rest, rfl⟩ := List.exists_cons_of_ne_nil h.once
    rfl
  refine ⟨List.cons_ne_nil _ _, Nat.succ_le_succ h.within, fun i a ha => ?_, fun i a hi ha => ?_,
    fun a ha => h.settled a (hlast ▸ ha), fun reasons ha => ?_, ?_, fun e he => (h.failed e he).trans hitems,
    fun hdone => hstate [] ▸ h.done hdone⟩
  · cases i with
    | zero => exact (Option.some.inj ha).symm
    | succ i =>
      rw [h.given i a ha, hstate, hfaults, List.drop_drop, Nat.add_comm]
  · cases i with
    | zero => exact ⟨reasons, Option.some.inj ha ▸ hreasons⟩
    | succ i => exact h.retried i a (Nat.lt_of_succ_lt_succ hi) ha
  · obtain ⟨hlength, hanswer⟩ := h.exhausted reasons (hlast ▸ ha)
    exact ⟨congrArg Nat.succ hlength, hanswer⟩
  · rw [h.faults, hfaults, List.drop_drop, List.length_cons, Nat.add_comm]

section
variable {σ : Type} [Store σ] {s : σ}

theorem run_settled (more : Nat) (h : ¬ Cancelled (Store.transact s ops).1) :
    run ops more s = ((Store.transact s ops).1.mapError Error.store, (Store.transact s ops).2) := by
  rcases ht : Store.transact s ops with ⟨answer, s'⟩
  rw [ht] at h
  cases answer with
  | ok _ => cases more <;> simp only [run, ht] <;> rfl
  | error e =>
    cases e with
    | cancelled reasons => exact absurd ⟨reasons, rfl⟩ h
    | _ => cases more <;> simp only [run, ht] <;> rfl

theorem run_cancelled (more : Nat) (h : Cancelled (Store.transact s ops).1) :
    run ops (more + 1) s = run ops more (Store.transact s ops).2 := by
  obtain ⟨reasons, h⟩ := h
  rcases ht : Store.transact s ops with ⟨answer, s'⟩
  rw [ht] at h
  obtain rfl := h
  conv_lhs => rw [run, ht]

theorem run_exhausted {reasons : List Reason} (h : (Store.transact s ops).1 = .error (.cancelled reasons)) :
    run ops 0 s = (.error (.cancelled reasons), (Store.transact s ops).2) := by
  rcases ht : Store.transact s ops with ⟨answer, s'⟩
  rw [ht] at h
  obtain rfl := h
  simp only [run, ht]

end

/-- A journal shows what was tried. -/
theorem run_tried (hvalid : Valid ops) (more : Nat) (j : Journal Memory) :
    ∃ tries, (run ops more j).2.answers = j.answers ++ tries ∧
      Tried ops (more + 1) j.store (run ops more j).1 (run ops more j).2.store tries := by
  induction more generalizing j with
  | zero =>
    by_cases hcancelled : Cancelled (Store.transact j ops).1
    · obtain ⟨reasons, hreasons⟩ := hcancelled
      rw [run_exhausted hreasons]
      refine ⟨_, rfl, .stop hvalid Nat.one_pos (fun h => absurd ⟨reasons, hreasons⟩ h) fun other hother => ?_⟩
      cases hreasons.symm.trans hother
      exact ⟨rfl, rfl⟩
    · rw [run_settled 0 hcancelled]
      exact ⟨_, rfl, .stop hvalid Nat.one_pos (fun _ => rfl) fun reasons h => absurd ⟨reasons, h⟩ hcancelled⟩
  | succ more ih =>
    by_cases hcancelled : Cancelled (Store.transact j ops).1
    · obtain ⟨tries, hanswers, htried⟩ := ih (Store.transact j ops).2
      rw [run_cancelled more hcancelled]
      exact ⟨(j.store.transact ops).1 :: tries, hanswers.trans (List.append_assoc ..),
        htried.again hvalid hcancelled⟩
    · rw [run_settled (more + 1) hcancelled]
      exact ⟨_, rfl, .stop hvalid (Nat.succ_pos _) (fun _ => rfl) fun reasons h =>
        absurd ⟨reasons, h⟩ hcancelled⟩

namespace Tried
variable {m m' : Memory} {attempts k : Nat} {answer : Except Error Unit} {tries : List (Except StoreError Unit)}
  (hvalid : Valid ops) (h : Tried ops attempts m answer m' tries)
  (hfaults : m.faults = List.replicate k .conflict)
include hvalid h hfaults

/-- Conflicts that come first cancel a try each. -/
theorem cancelled_of_lt {i : Nat} {a : Except StoreError Unit} (hi : i < k) (ha : tries[i]? = some a) :
    Cancelled a := by
  obtain ⟨n, hn⟩ : ∃ n, k - i = n + 1 := ⟨k - i - 1, by omega⟩
  have hdrop : m.faults.drop i = .conflict :: List.replicate n .conflict := by
    rw [hfaults, List.drop_replicate, hn, List.replicate_succ]
  exact h.given i a ha ▸ Memory.cancelled_of_conflict hvalid hdrop

/-- After them the conditions decide. -/
theorem ok_iff_of_le {i : Nat} {a : Except StoreError Unit} (hi : k ≤ i) (ha : tries[i]? = some a) :
    a = .ok () ↔ ∀ op ∈ ops, ¬ op.Refused m.items.find? := by
  have hdrop : m.faults.drop i = [] := by
    rw [hfaults, List.drop_replicate, Nat.sub_eq_zero_of_le hi, List.replicate_zero]
  exact h.given i a ha ▸ Memory.transact_ok_iff (m := { m with faults := m.faults.drop i }) hvalid hdrop

theorem ok_iff : answer = .ok () ↔ k < attempts ∧ ∀ op ∈ ops, ¬ op.Refused m.items.find? := by
  have hpos : 0 < tries.length := List.length_pos_of_ne_nil h.once
  obtain ⟨a, hlast⟩ : ∃ a, tries.getLast? = some a := ⟨_, List.getLast?_eq_some_getLast h.once⟩
  have hindex : tries[tries.length - 1]? = some a := List.getLast?_eq_getElem?.symm.trans hlast
  constructor
  · intro hok
    have hnot : ¬ Cancelled a := by
      rintro ⟨reasons, rfl⟩
      rw [(h.exhausted reasons hlast).2] at hok
      cases hok
    have hk : k ≤ tries.length - 1 :=
      Nat.le_of_not_lt fun hlt => hnot (h.cancelled_of_lt hvalid hfaults hlt hindex)
    have ha : a = .ok () := Outcome.mapError_eq_ok_iff.mp ((h.settled a hlast hnot).symm.trans hok)
    have hwithin := h.within
    exact ⟨by omega, (h.ok_iff_of_le hvalid hfaults hk hindex).mp ha⟩
  · rintro ⟨hk, hfine⟩
    have hlength : k < tries.length := by
      refine Nat.lt_of_not_le fun hle => ?_
      obtain ⟨reasons, rfl⟩ := h.cancelled_of_lt hvalid hfaults (by omega) hindex
      have hall := (h.exhausted reasons hlast).1
      omega
    obtain ⟨b, hb⟩ : ∃ b, tries[k]? = some b := ⟨_, List.getElem?_eq_getElem hlength⟩
    have hok : b = .ok () := (h.ok_iff_of_le hvalid hfaults (Nat.le_refl k) hb).mpr hfine
    have hnot : ¬ Cancelled b := by
      rintro ⟨reasons, hreasons⟩
      rw [hok] at hreasons
      cases hreasons
    have hend : k = tries.length - 1 := by
      by_contra hne
      exact hnot (h.retried k b (by omega) hb)
    obtain rfl := Option.some.inj (hindex.symm.trans (hend ▸ hb))
    rw [h.settled _ hlast hnot, hok]
    rfl

end Tried

/-- A valid batch is tried until it is not cancelled, and no more often than it may be. It is applied once
where the answer says so, and not at all else. -/
theorem within_tried (hvalid : Valid ops) (n : Nat) (m : Memory) :
    let done := within n ops m
    let recorded := within n ops (⟨m, []⟩ : Journal Memory)
    recorded.1 = done.1 ∧ recorded.2.store = done.2 ∧
      Tried ops (max 1 n) m done.1 done.2 recorded.2.answers ∧
      ∀ k, m.faults = List.replicate k .conflict →
        (done.1 = .ok () ↔ k < max 1 n ∧ ∀ op ∈ ops, ¬ op.Refused m.items.find?) := by
  intro done recorded
  obtain ⟨hanswer, hstore, _⟩ := Journal.run_eq ops (n - 1) ⟨m, []⟩
  obtain ⟨tries, hanswers, htried⟩ := run_tried hvalid (n - 1) ⟨m, []⟩
  have hattempts : n - 1 + 1 = max 1 n := by omega
  rw [hanswer, hstore, hattempts] at htried
  obtain rfl : recorded.2.answers = tries := hanswers
  exact ⟨hanswer, hstore, htried, fun _ hfaults => htried.ok_iff hvalid hfaults⟩

/-- A new item is stored at the second try, and not where that is in conflict too. -/
theorem within_tried_conflicts :
    let ops : List WriteOp := [.put (.ofTexts [("pk", "a"), ("sk", "a")]) (some .absent)]
    let m : Memory := ⟨.empty, [.conflict]⟩
    let worse : Memory := ⟨.empty, [.conflict, .conflict]⟩
    Valid ops ∧ (within 2 ops m).1 = .ok () ∧ (within 2 ops (⟨m, []⟩ : Journal Memory)).2.answers.length = 2 ∧
      (within 2 ops worse).1 ≠ .ok () ∧ (within 2 ops worse).2.faults = [] := by
  intro ops m worse
  have hvalid : Valid ops := by decide +kernel
  have hfine : ∀ op ∈ ops, ¬ op.Refused m.items.find? := by
    rw [List.forall_mem_singleton]
    rintro ⟨_, _, _, hcondition, hfalse⟩
    cases hcondition
    cases hfalse
  obtain ⟨_, _, htried, hiff⟩ := within_tried hvalid 2 m
  obtain ⟨_, _, htried', hiff'⟩ := within_tried hvalid 2 worse
  have hdone := (hiff 1 rfl).mpr ⟨by decide, hfine⟩
  refine ⟨hvalid, hdone, ?_, fun hok => absurd ((hiff' 2 rfl).mp hok).1 (by decide), ?_⟩
  · decide +kernel
  · decide +kernel

end Commit

end TagStore
