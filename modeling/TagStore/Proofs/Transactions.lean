import TagStore.Proofs.BatchEntries
import TagStore.Store.Memory
import TagStore.Write.Commit

namespace TagStore

theorem Item.key_eq_ok_iff {item : Item} {key : ItemKey} : item.key = .ok key ↔
    item.text? Attribute.partition = some key.partition ∧
      item.text? Attribute.sort = some key.sort := by
  obtain ⟨partition, sort⟩ := key
  rw [Item.key]
  cases item.text? Attribute.partition with
  | none => simp
  | some p =>
    cases item.text? Attribute.sort with
    | none => simp
    | some s => simp

/-- What an operation leaves under its key. -/
def WriteOp.leaves : WriteOp → Option Item
  | .put item _ => some item
  | .delete _ _ => none

/-- Operations under their own keys, each of them once. -/
structure KeyedApart (es : List (ItemKey × WriteOp)) : Prop where
  keyed : ∀ e ∈ es, e.2.key = .ok e.1
  apart : (es.map Prod.fst).Nodup

theorem WriteOp.keyedApart_spec {seen : List ItemKey} {ops : List WriteOp}
    {es : List (ItemKey × WriteOp)} (h : keyedApart seen ops = .ok es) :
    KeyedApart es ∧ es.map Prod.snd = ops ∧ ∀ k ∈ es.map Prod.fst, k ∉ seen := by
  induction ops generalizing seen es with
  | nil =>
    cases h
    exact ⟨⟨by simp, List.nodup_nil⟩, rfl, by simp⟩
  | cons op ops ih =>
    rw [keyedApart] at h
    cases hk : op.key with
    | error e => simp [hk, bind, Except.bind] at h
    | ok key =>
      by_cases hs : key ∈ seen
      · simp [hk, hs, bind, Except.bind, throw, throwThe, MonadExceptOf.throw] at h
      cases hr : keyedApart (key :: seen) ops with
      | error e => simp [hk, hs, hr, bind, Except.bind] at h
      | ok rest =>
        simp only [hk, hs, hr, bind, Except.bind, pure, Except.pure, if_false,
          Except.ok.injEq] at h
        subst h
        obtain ⟨⟨hkeyed, hapart⟩, hsnd, hseen⟩ := ih hr
        refine ⟨⟨?_, ?_⟩, by simp [hsnd], ?_⟩
        · intro e he
          rcases List.mem_cons.mp he with rfl | he
          · exact hk
          · exact hkeyed e he
        · refine List.nodup_cons.mpr ⟨fun hm => ?_, hapart⟩
          exact hseen key hm List.mem_cons_self
        · intro k hm
          rcases List.mem_cons.mp hm with rfl | hm
          · exact hs
          · exact fun hin => hseen k hm (List.mem_cons_of_mem _ hin)

theorem WriteOp.keyed_spec {ops : List WriteOp} {es : List (ItemKey × WriteOp)}
    (h : keyed ops = .ok es) : KeyedApart es ∧ es.map Prod.snd = ops := by
  unfold keyed at h
  split at h
  · cases h
  · split at h
    · cases h
    · exact ⟨(keyedApart_spec h).1, (keyedApart_spec h).2.1⟩

/-- Operations tell the keys that they stand under. -/
theorem eq_of_keyed {es es' : List (ItemKey × WriteOp)} (h : ∀ e ∈ es, e.2.key = .ok e.1)
    (h' : ∀ e ∈ es', e.2.key = .ok e.1) (ho : es.map Prod.snd = es'.map Prod.snd) : es = es' := by
  induction es generalizing es' with
  | nil => exact (List.map_eq_nil_iff.mp ho.symm).symm
  | cons e es ih =>
    cases es' with
    | nil => cases ho
    | cons e' es' =>
      obtain ⟨hop, hops⟩ := List.cons.inj ho
      have hk := h e List.mem_cons_self
      rw [hop, h' e' List.mem_cons_self] at hk
      rw [ih (fun d hd => h d (List.mem_cons_of_mem _ hd))
        (fun d hd => h' d (List.mem_cons_of_mem _ hd)) hops,
        Prod.ext (Except.ok.inj hk.symm) hop]

namespace Memory

theorem find?_apply (items : SortedMap ItemKey Item) (e : ItemKey × WriteOp) (key : ItemKey) :
    (apply items e).find? key = if key = e.1 then e.2.leaves else items.find? key := by
  obtain ⟨k, op⟩ := e
  cases op with
  | put item c => exact SortedMap.find?_insert items k key item
  | delete k' c => exact SortedMap.find?_erase items k key

/-- What is stored under a key after some operations: what its own operation leaves, if there is one. -/
theorem find?_applyAll {es : List (ItemKey × WriteOp)} (h : KeyedApart es)
    (items : SortedMap ItemKey Item) (key : ItemKey) :
    (es.foldl apply items).find? key =
      match (es.find? fun e => e.1 = key).map Prod.snd with
      | some op => op.leaves
      | none => items.find? key := by
  induction es generalizing items with
  | nil => rfl
  | cons e es ih =>
    obtain ⟨hkeyed, hapart⟩ := h
    obtain ⟨hnot, hapart⟩ := List.nodup_cons.mp hapart
    rw [List.foldl_cons, ih ⟨fun d hd => hkeyed d (List.mem_cons_of_mem _ hd), hapart⟩, find?_apply]
    by_cases hk : e.1 = key
    · subst hk
      have hnone : es.find? (fun d => d.1 = e.1) = none := by
        apply List.find?_eq_none.mpr
        intro d hd hde
        exact hnot (of_decide_eq_true hde ▸ List.mem_map.mpr ⟨d, hd, rfl⟩)
      simp [hnone]
    · have hk' : key ≠ e.1 := fun h => hk h.symm
      simp [hk, hk']

/-- What may come of operations that are applied as a whole or not at all: either no item is changed,
or all of them were allowed and are applied. -/
def Settles {ε : Type} (m : Memory) (ops : List WriteOp) (r : Except ε Unit × Memory) : Prop :=
  (∃ e, r.1 = .error e ∧ r.2.items = m.items) ∨
    ∃ es, KeyedApart es ∧ es.map Prod.snd = ops ∧ r.1 = .ok () ∧
      (∀ e ∈ es, e.2.allowed (m.items.find? e.1) = true) ∧ r.2.items = es.foldl apply m.items

theorem transact_settles (m : Memory) (ops : List WriteOp) : m.Settles ops (m.transact ops) := by
  unfold transact
  split
  · exact .inl ⟨_, rfl, rfl⟩
  next es hes =>
    split
    · exact .inl ⟨_, rfl, rfl⟩
    · exact .inl ⟨_, rfl, rfl⟩
    · by_cases hfine : (es.map (reason m.items)).any Reason.isFailure
      · refine .inl ⟨.cancelled (es.map (reason m.items)), ?_⟩
        simp only [if_pos hfine, and_self]
      · obtain ⟨hkeyed, hops⟩ := WriteOp.keyed_spec hes
        refine .inr ⟨es, hkeyed, hops, by simp only [if_neg hfine], fun e he => ?_,
          by simp only [if_neg hfine]⟩
        cases ha : e.2.allowed (m.items.find? e.1) with
        | true => rfl
        | false =>
          refine absurd ?_ hfine
          apply List.any_eq_true.mpr
          refine ⟨_, List.mem_map.mpr ⟨e, he, rfl⟩, ?_⟩
          simp [reason, ha, Reason.conditionFailed, Reason.isFailure]

/-- Every item stands under the key that its own attributes spell. -/
def Keyed (m : Memory) : Prop :=
  ∀ key item, m.items.find? key = some item → item.key = .ok key

/-- What is found after a transaction was found before it or is left by one of its operations. -/
theorem of_find?_transact {m : Memory} {ops : List WriteOp} {key : ItemKey} {item : Item}
    (hf : (m.transact ops).2.items.find? key = some item) :
    m.items.find? key = some item ∨ ∃ op ∈ ops, op.key = .ok key ∧ op.leaves = some item := by
  rcases m.transact_settles ops with ⟨_, _, hi⟩ | ⟨es, hes, rfl, _, _, hi⟩
  · exact .inl (hi ▸ hf)
  rw [hi, find?_applyAll hes] at hf
  split at hf
  next op hop =>
    obtain ⟨e, he, rfl⟩ := Option.map_eq_some_iff.mp hop
    have hmem := List.mem_of_find?_eq_some he
    have hek : e.1 = key := by simpa using List.find?_some he
    exact .inr ⟨e.2, List.mem_map.mpr ⟨e, hmem, rfl⟩, hek ▸ hes.keyed e hmem, hf⟩
  next => exact .inl hf

theorem Keyed.transact {m : Memory} (h : m.Keyed) (ops : List WriteOp) : (m.transact ops).2.Keyed := by
  intro key item hf
  rcases of_find?_transact hf with hf | ⟨op, _, hkey, hleaves⟩
  · exact h key item hf
  · cases op with
    | put item' c =>
      cases hleaves
      exact hkey
    | delete k c => cases hleaves

/-- The contents that a store can come to, from none, by transactions and queued faults. -/
inductive Reached : Memory → Prop where
  | empty : Reached .empty
  | transact {m : Memory} (ops : List WriteOp) : Reached m → Reached (m.transact ops).2
  | inject {m : Memory} (fault : Fault) : Reached m → Reached (m.inject fault)

theorem Reached.keyed {m : Memory} (h : Reached m) : m.Keyed := by
  induction h with
  | empty => intro key item hf; cases hf
  | transact ops _ ih => exact ih.transact ops
  | inject fault _ ih => exact ih

end Memory

/-- However often a batch is tried, it is applied once or not at all. -/
theorem Commit.run_settles (ops : List WriteOp) (more : Nat) (m : Memory) :
    m.Settles ops (run ops more m) := by
  have hstep : ∀ m : Memory,
      (∃ e m', Store.transact m ops = (.error e, m') ∧ m'.items = m.items) ∨
        ∃ m', Store.transact m ops = (.ok (), m') ∧
          m.Settles ops ((.ok (), m') : Except Error Unit × Memory) := by
    intro m
    change (∃ e m', m.transact ops = (.error e, m') ∧ _) ∨ ∃ m', m.transact ops = (.ok (), m') ∧ _
    rcases m.transact_settles ops with ⟨e, he, hi⟩ | ⟨es, hes, hops, hok, hall, hi⟩
    · exact .inl ⟨e, _, Prod.ext he rfl, hi⟩
    · exact .inr ⟨_, Prod.ext hok rfl, .inr ⟨es, hes, hops, rfl, hall, hi⟩⟩
  induction more generalizing m with
  | zero =>
    rw [run]
    rcases hstep m with ⟨e, m', ht, hi⟩ | ⟨m', ht, hs⟩
    · rw [ht]
      cases e <;> exact .inl ⟨_, rfl, hi⟩
    · rw [ht]
      exact hs
  | succ more ih =>
    rw [run]
    rcases hstep m with ⟨e, m', ht, hi⟩ | ⟨m', ht, hs⟩
    · rw [ht]
      cases e with
      | cancelled reasons =>
        have hrest := ih m'
        unfold Memory.Settles at hrest ⊢
        rwa [hi] at hrest
      | _ => exact .inl ⟨_, rfl, hi⟩
    · rw [ht]
      exact hs

/-- The operations of a batch stand under their own keys. -/
def Batch.Keyed (b : Batch) : Prop := ∀ e ∈ b.entries, e.2.key = .ok e.1

/-- What is stored under a key once a batch is applied. -/
def Batch.effect (b : Batch) (items : SortedMap ItemKey Item) (key : ItemKey) : Option Item :=
  match b.find? key with
  | some op => op.leaves
  | none => items.find? key

theorem Batch.Keyed.eq_entries {b : Batch} (hb : b.Keyed) {es : List (ItemKey × WriteOp)} (hes : KeyedApart es)
    (hops : es.map Prod.snd = b.ops) : es = b.entries :=
  eq_of_keyed hes.keyed hb (hops.trans b.ops_eq)

theorem Batch.Keyed.find?_applyAll {b : Batch} (hb : b.Keyed) (items : SortedMap ItemKey Item) :
    (b.entries.foldl Memory.apply items).find? = b.effect items := by
  funext key
  rw [Memory.find?_applyAll ⟨hb, b.distinct⟩, effect, find?_eq_of_mem_iff fun _ => Iff.rfl]

/-- A batch is committed as a whole, where all its operations were allowed, or changes no item. -/
theorem Commit.batch_cases (attempts : Nat) {b : Batch} (hb : b.Keyed) (m : Memory) :
    (∃ e m', batch attempts b.ops m = (.error e, m') ∧ m'.items = m.items) ∨
      ∃ m', batch attempts b.ops m = (.ok (), m') ∧
        (∀ key op, b.find? key = some op → op.allowed (m.items.find? key) = true) ∧
        m'.items.find? = b.effect m.items := by
  unfold batch
  split
  next hempty =>
    have hnone := Batch.find?_of_ops_eq_nil (List.isEmpty_iff.mp hempty)
    exact .inr ⟨m, rfl, by simp [hnone], funext fun key => by rw [Batch.effect, hnone]⟩
  · rcases run_settles b.ops (attempts - 1) m with ⟨e, he, hi⟩ | ⟨es, hes, hops, hok, hall, hi⟩
    · exact .inl ⟨e, _, Prod.ext he rfl, hi⟩
    · obtain rfl := hb.eq_entries hes hops
      refine .inr ⟨_, Prod.ext hok rfl, fun key op hf => hall _ (Batch.mem_entries_of_find? hf), ?_⟩
      rw [within, hi, hb.find?_applyAll]

theorem Commit.effect_of_ok {attempts : Nat} {b : Batch} (hb : b.Keyed) {m m' : Memory}
    (h : batch attempts b.ops m = (.ok (), m')) :
    (∀ key op, b.find? key = some op → op.allowed (m.items.find? key) = true) ∧
      m'.items.find? = b.effect m.items := by
  rcases batch_cases attempts hb m with ⟨_, _, hfailed, _⟩ | ⟨m'', hdone, hallowed, heffect⟩
  · rw [h] at hfailed
    cases hfailed
  · rw [h] at hdone
    cases hdone
    exact ⟨hallowed, heffect⟩

theorem WriteOp.keyedApart_eq {es : List (ItemKey × WriteOp)} (h : KeyedApart es) {seen : List ItemKey}
    (hseen : ∀ k ∈ es.map Prod.fst, k ∉ seen) : keyedApart seen (es.map Prod.snd) = .ok es := by
  induction es generalizing seen with
  | nil => rfl
  | cons e es ih =>
    obtain ⟨hkeyed, hapart⟩ := h
    obtain ⟨hnot, hapart⟩ := List.nodup_cons.mp hapart
    have hrest : keyedApart (e.1 :: seen) (es.map Prod.snd) = .ok es := by
      refine ih ⟨fun d hd => hkeyed d (List.mem_cons_of_mem _ hd), hapart⟩ fun k hk => ?_
      rw [List.mem_cons, not_or]
      exact ⟨fun he => hnot (he ▸ hk), hseen k (List.mem_cons_of_mem _ hk)⟩
    rw [List.map_cons, keyedApart, hkeyed e List.mem_cons_self]
    simp only [bind, Except.bind, if_neg (hseen e.1 List.mem_cons_self), hrest, pure, Except.pure]

/-- A batch that is neither empty nor too large is valid. -/
theorem Batch.Keyed.keyed_ops {b : Batch} (hb : b.Keyed) (hempty : ¬ b.ops.isEmpty = true)
    (hsize : b.size ≤ maxBatch) : WriteOp.keyed b.ops = .ok b.entries := by
  have hlength : ¬ maxBatch < b.ops.length := Nat.not_lt.mpr hsize
  rw [WriteOp.keyed, if_neg hempty, if_neg hlength, b.ops_eq]
  exact WriteOp.keyedApart_eq ⟨hb, b.distinct⟩ fun k _ => by simp

/-- Without faults to come, a batch of a size that is allowed is committed if all its operations are. -/
theorem Commit.batch_ok (attempts : Nat) {b : Batch} (hb : b.Keyed) (hsize : b.size ≤ maxBatch)
    {m : Memory} (hfaults : m.faults = [])
    (hall : ∀ key op, b.find? key = some op → op.allowed (m.items.find? key) = true) :
    ∃ m', batch attempts b.ops m = (.ok (), m') ∧ m'.items.find? = b.effect m.items ∧ m'.faults = [] := by
  have hok : ∃ m', batch attempts b.ops m = (.ok (), m') ∧ m'.faults = [] := by
    unfold batch
    split
    · exact ⟨m, rfl, hfaults⟩
    next hempty =>
      have hkeyed := hb.keyed_ops hempty hsize
      have hfine : (b.entries.map (Memory.reason m.items)).any Reason.isFailure = false := by
        rw [List.any_eq_false]
        intro reason hreason
        obtain ⟨⟨key, op⟩, he, rfl⟩ := List.mem_map.mp hreason
        have hallowed := hall key op (b.find?_of_mem_entries he)
        simp [Memory.reason, hallowed, Reason.fine, Reason.isFailure]
      have htransact : Store.transact m b.ops =
          (.ok (), { m with items := b.entries.foldl Memory.apply m.items }) := by
        change m.transact b.ops = _
        simp only [Memory.transact, hkeyed, hfaults, hfine, Bool.false_eq_true, if_false]
      exact ⟨{ m with items := b.entries.foldl Memory.apply m.items },
        by rw [within, run, htransact], hfaults⟩
  obtain ⟨m', hm', hfaults'⟩ := hok
  exact ⟨m', hm', (effect_of_ok hb hm').2, hfaults'⟩

/-- A batch that is too large is refused, and tried once only. -/
theorem Commit.batch_tooLarge (attempts : Nat) {b : Batch} (hsize : maxBatch < b.size) (m : Memory) :
    batch attempts b.ops m = (.error (.store (.invalid (.batchTooLarge b.size))), m) := by
  have hne : b.ops.isEmpty = false := by
    cases hops : b.ops with
    | nil =>
      rw [Batch.size, hops] at hsize
      exact absurd hsize (Nat.not_lt_zero _)
    | cons op ops => rfl
  have hlength : maxBatch < b.ops.length := hsize
  have htransact : Store.transact m b.ops = (.error (.invalid (.batchTooLarge b.size)), m) := by
    change m.transact b.ops = _
    simp only [Memory.transact, WriteOp.keyed, hne, Bool.false_eq_true, if_false, if_pos hlength]
    rfl
  simp only [batch, hne, Bool.false_eq_true, if_false, within, run, htransact]

end TagStore
