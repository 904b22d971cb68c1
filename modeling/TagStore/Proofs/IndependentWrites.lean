import TagStore.Proofs.AtomicWrites

namespace TagStore

namespace KeyedApart
variable {es es' : List (ItemKey × WriteOp)}

theorem perm (h : KeyedApart es) (hp : es.Perm es') : KeyedApart es' :=
  ⟨fun e he => h.keyed e (hp.mem_iff.mpr he), (hp.map Prod.fst).nodup_iff.mp h.apart⟩

theorem append (h : KeyedApart es) (h' : KeyedApart es')
    (hapart : ∀ key ∈ es.map Prod.fst, key ∉ es'.map Prod.fst) : KeyedApart (es ++ es') := by
  refine ⟨fun e he => (List.mem_append.mp he).elim (h.keyed e) (h'.keyed e), ?_⟩
  rw [List.map_append]
  refine List.nodup_append.mpr ⟨h.apart, h'.apart, fun a ha b hb hab => ?_⟩
  exact hapart a ha (hab ▸ hb)

end KeyedApart

namespace WriteOp
variable {ops ops' : List WriteOp} {es : List (ItemKey × WriteOp)}

theorem Valid.perm (h : Valid ops) (hp : ops.Perm ops') : Valid ops' where
  nonempty hnil := h.nonempty (hnil ▸ hp).eq_nil
  small := hp.length_eq ▸ h.small
  keyed item condition hput := h.keyed item condition (hp.mem_iff.mpr hput)
  apart := (hp.pairwise_iff fun hab key hb ha => hab key ha hb).mp h.apart

/-- Operations that have keys can be told from their entries, and the entries from them. -/
theorem filterMap_snd (h : ∀ e ∈ es, e.2.key = .ok e.1) :
    ((es.map Prod.snd).filterMap fun op => op.key.toOption.map fun key => (key, op)) = es := by
  induction es with
  | nil => rfl
  | cons e es ih =>
    obtain ⟨he, hes⟩ := List.forall_mem_cons.mp h
    rw [List.map_cons, List.filterMap_cons, he, ih hes]
    rfl

/-- In another order a batch has the same entries. -/
theorem keyed_perm (hes : keyed ops = .ok es) (hp : ops.Perm ops') :
    ∃ es', keyed ops' = .ok es' ∧ es.Perm es' := by
  obtain ⟨hvalid, hkeyed, hops⟩ := keyed_eq_ok_iff.mp hes
  obtain ⟨es', hes', hkeyed', hops'⟩ := (hvalid.perm hp).exists_entries
  refine ⟨es', hes', ?_⟩
  rw [← filterMap_snd hkeyed.keyed, ← filterMap_snd hkeyed'.keyed, hops, hops']
  exact hp.filterMap _

/-- Whether no operation of one batch has a key that one of the other has. -/
def Apart (a b : List WriteOp) : Prop := ∀ x ∈ a, ∀ y ∈ b, ∀ key, x.key = .ok key → y.key ≠ .ok key

end WriteOp

open WriteOp (Valid)

/-- How the answers to a batch in two orders go together: they are of the same kind, and where the batch
is cancelled each operation has the same reason. -/
inductive Reordered (ops ops' : List WriteOp) : Except StoreError Unit → Except StoreError Unit → Prop where
  | committed : Reordered ops ops' (.ok ()) (.ok ())
  | cancelled {reasons reasons' : List Reason} (h : reasons.length = ops.length)
    (h' : reasons'.length = ops'.length) (hp : (ops.zip reasons).Perm (ops'.zip reasons')) :
    Reordered ops ops' (.error (.cancelled reasons)) (.error (.cancelled reasons'))
  | invalid {cause cause' : Invalid} :
    Reordered ops ops' (.error (.invalid cause)) (.error (.invalid cause'))

namespace Memory
variable {m : Memory} {es es' : List (ItemKey × WriteOp)}

/-- What a batch leaves of some items. -/
def settled (items : SortedMap ItemKey Item) (es : List (ItemKey × WriteOp)) : SortedMap ItemKey Item :=
  if (es.map (Reason.of items.find?)).any Reason.isFailure then items else es.foldl apply items

/-- How a batch is answered where no fault is to come. -/
def verdict (items : SortedMap ItemKey Item) (es : List (ItemKey × WriteOp)) : Except StoreError Unit :=
  if (es.map (Reason.of items.find?)).any Reason.isFailure then
    .error (.cancelled (es.map (Reason.of items.find?)))
  else .ok ()

theorem transact_eq_settled {ops : List WriteOp} (hfaults : m.faults = []) (hes : WriteOp.keyed ops = .ok es) :
    m.transact ops = (verdict m.items es, { m with items := settled m.items es }) := by
  rw [transact_of_keyed hes hfaults, verdict, settled]
  split <;> rfl

/-- Only the items under its own keys decide on a batch. -/
theorem reasons_congr {items items' : SortedMap ItemKey Item}
    (h : ∀ key ∈ es.map Prod.fst, items.find? key = items'.find? key) :
    es.map (Reason.of items.find?) = es.map (Reason.of items'.find?) := by
  apply List.map_congr_left
  intro e he
  rw [Reason.of, Reason.of, h e.1 (List.mem_map.mpr ⟨e, he, rfl⟩)]

theorem find?_settled_of_ne (items : SortedMap ItemKey Item) {key : ItemKey} (h : key ∉ es.map Prod.fst) :
    (settled items es).find? key = items.find? key := by
  rw [settled]
  split
  · rfl
  · exact SortedMap.find?_foldl_of_ne WriteOp.leaves find?_apply items h

/-- Operations that have keys of their own may be applied in any order. -/
theorem foldl_apply_perm (hes : KeyedApart es) (hp : es.Perm es') (items : SortedMap ItemKey Item) :
    es.foldl apply items = es'.foldl apply items := by
  apply SortedMap.ext_find?
  intro key
  by_cases hkey : key ∈ es.map Prod.fst
  · obtain ⟨⟨_, op⟩, he, rfl⟩ := List.mem_map.mp hkey
    rw [SortedMap.find?_foldl_of_mem WriteOp.leaves find?_apply items hes.apart he,
      SortedMap.find?_foldl_of_mem WriteOp.leaves find?_apply items (hes.perm hp).apart (hp.mem_iff.mp he)]
  · have hkey' : key ∉ es'.map Prod.fst := fun h => hkey ((hp.map Prod.fst).mem_iff.mpr h)
    rw [SortedMap.find?_foldl_of_ne WriteOp.leaves find?_apply items hkey,
      SortedMap.find?_foldl_of_ne WriteOp.leaves find?_apply items hkey']

/-- A batch is cancelled in any order or in none, each operation for its reason, and leaves the same. -/
theorem transact_perm (hfaults : m.faults = []) {ops ops' : List WriteOp} (hp : ops.Perm ops') :
    Reordered ops ops' (m.transact ops).1 (m.transact ops').1 ∧ (m.transact ops').2 = (m.transact ops).2 := by
  by_cases hvalid : Valid ops
  · obtain ⟨es, hes, hkeyed, rfl⟩ := hvalid.exists_entries
    obtain ⟨es', hes', hperm⟩ := WriteOp.keyed_perm hes hp
    obtain ⟨_, hkeyed', rfl⟩ := WriteOp.keyed_eq_ok_iff.mp hes'
    have hreasons := hperm.map (Reason.of m.items.find?)
    have hany : (es'.map (Reason.of m.items.find?)).any Reason.isFailure =
        (es.map (Reason.of m.items.find?)).any Reason.isFailure := hreasons.symm.any_eq
    rw [transact_eq_settled hfaults hes, transact_eq_settled hfaults hes', verdict, verdict, settled, settled,
      hany, foldl_apply_perm hkeyed hperm]
    refine ⟨?_, rfl⟩
    split
    · refine .cancelled (by simp) (by simp) ?_
      simpa only [List.zip_map'] using hperm.map fun e => (e.2, Reason.of m.items.find? e)
    · exact .committed
  · have hvalid' : ¬ Valid ops' := fun h => hvalid (h.perm hp.symm)
    obtain ⟨cause, hcause⟩ := (m.atomic ops).invalid hvalid
    obtain ⟨cause', hcause'⟩ := (m.atomic ops').invalid hvalid'
    rw [hcause, hcause']
    exact ⟨.invalid, rfl⟩

/-- A batch that shares no key with one before it is answered as if it came first. -/
theorem reasons_settled (hapart : ∀ key ∈ es'.map Prod.fst, key ∉ es.map Prod.fst)
    (items : SortedMap ItemKey Item) :
    es'.map (Reason.of (settled items es).find?) = es'.map (Reason.of items.find?) :=
  reasons_congr fun key hkey => find?_settled_of_ne items (hapart key hkey)

/-- Batches that share no key leave the same in either order. -/
theorem settled_comm (hes : KeyedApart es) (hes' : KeyedApart es')
    (hapart : ∀ key ∈ es.map Prod.fst, key ∉ es'.map Prod.fst) (items : SortedMap ItemKey Item) :
    settled (settled items es) es' = settled (settled items es') es := by
  have hapart' : ∀ key ∈ es'.map Prod.fst, key ∉ es.map Prod.fst := fun key h' h => hapart key h h'
  have hboth : es'.foldl apply (es.foldl apply items) = es.foldl apply (es'.foldl apply items) := by
    rw [← List.foldl_append, ← List.foldl_append]
    exact foldl_apply_perm (hes.append hes' hapart) List.perm_append_comm items
  have hsecond : settled (settled items es) es' =
      if (es'.map (Reason.of items.find?)).any Reason.isFailure then settled items es
      else es'.foldl apply (settled items es) := by
    rw [settled, reasons_settled hapart']
  have hfirst : settled (settled items es') es =
      if (es.map (Reason.of items.find?)).any Reason.isFailure then settled items es'
      else es.foldl apply (settled items es') := by
    rw [settled, reasons_settled hapart]
  rw [hsecond, hfirst]
  unfold settled
  split <;> split <;> first | rfl | exact hboth

/-- Whether two batches are answered in the same way, and leave the same, whichever comes first. -/
structure Exchange (m : Memory) (a b : List WriteOp) : Prop where
  first : ((m.transact b).2.transact a).1 = (m.transact a).1
  second : ((m.transact a).2.transact b).1 = (m.transact b).1
  left : ((m.transact b).2.transact a).2 = ((m.transact a).2.transact b).2

theorem transact_comm (hfaults : m.faults = []) {a b : List WriteOp} (ha : Valid a) (hb : Valid b)
    (hapart : WriteOp.Apart a b) : m.Exchange a b := by
  obtain ⟨es, hes, hkeyed, rfl⟩ := ha.exists_entries
  obtain ⟨es', hes', hkeyed', rfl⟩ := hb.exists_entries
  have hkeys : ∀ key ∈ es.map Prod.fst, key ∉ es'.map Prod.fst := by
    intro key hkey hkey'
    obtain ⟨e, he, rfl⟩ := List.mem_map.mp hkey
    obtain ⟨e', he', hsame⟩ := List.mem_map.mp hkey'
    exact hapart e.2 (List.mem_map.mpr ⟨e, he, rfl⟩) e'.2 (List.mem_map.mpr ⟨e', he', rfl⟩) e.1
      (hkeyed.keyed e he) (hsame ▸ hkeyed'.keyed e' he')
  have hfirst : verdict (settled m.items es') es = verdict m.items es := by
    rw [verdict, reasons_settled hkeys, verdict]
  have hsecond : verdict (settled m.items es) es' = verdict m.items es' := by
    rw [verdict, reasons_settled fun key h' h => hkeys key h h', verdict]
  have hrun : ∀ {ops : List WriteOp} {entries : List (ItemKey × WriteOp)} (items : SortedMap ItemKey Item),
      WriteOp.keyed ops = .ok entries → ({ m with items } : Memory).transact ops =
        (verdict items entries, { m with items := settled items entries }) :=
    fun items hentries => transact_eq_settled (m := { m with items }) hfaults hentries
  refine ⟨?_, ?_, ?_⟩
  · rw [hrun m.items hes', hrun m.items hes, hrun _ hes, hfirst]
  · rw [hrun m.items hes', hrun m.items hes, hrun _ hes', hsecond]
  · rw [hrun m.items hes', hrun m.items hes, hrun _ hes, hrun _ hes', settled_comm hkeyed hkeyed' hkeys]

end Memory

/-- Without faults to come, a batch may be given in any order, and of two batches that share no key either
may come first. -/
theorem Memory.transact_anyOrder {m : Memory} (hfaults : m.faults = []) :
    (∀ ops ops' : List WriteOp, ops.Perm ops' →
      Reordered ops ops' (m.transact ops).1 (m.transact ops').1 ∧
        (m.transact ops').2 = (m.transact ops).2) ∧
    ∀ a b : List WriteOp, Valid a → Valid b → WriteOp.Apart a b → m.Exchange a b :=
  ⟨fun _ _ hp => transact_perm hfaults hp, fun _ _ ha hb hapart => transact_comm hfaults ha hb hapart⟩

/-- A batch that replaces an item may be turned around, and so may one that is cancelled; where they share
no key either may come first. -/
theorem Memory.transact_anyOrder_replacing :
    let item (name : String) : Item := .ofTexts [("pk", name), ("sk", name)]
    let m : Memory := ⟨SortedMap.empty.insert ⟨"a", "a"⟩ (item "a"), []⟩
    let replace : List WriteOp := [.put (item "b") (some .absent), .delete ⟨"a", "a"⟩ (some .present)]
    let refused : List WriteOp := [.put (item "c") (some .absent), .delete ⟨"d", "d"⟩ (some .present)]
    m.faults = [] ∧ Valid replace ∧ Valid refused ∧ WriteOp.Apart replace refused ∧
      (m.transact replace).1 = .ok () ∧ (m.transact replace.reverse).2 = (m.transact replace).2 ∧
      Reordered refused refused.reverse (m.transact refused).1 (m.transact refused.reverse).1 ∧
      m.Exchange replace refused := by
  intro item m replace refused
  have hvalid : Valid replace := by decide +kernel
  have hvalid' : Valid refused := by decide +kernel
  have hb : (item "b").key = .ok ⟨"b", "b"⟩ := Item.key_eq_ok_iff.mpr ⟨by decide +kernel, by decide +kernel⟩
  have hc : (item "c").key = .ok ⟨"c", "c"⟩ := Item.key_eq_ok_iff.mpr ⟨by decide +kernel, by decide +kernel⟩
  have hapart : WriteOp.Apart replace refused := by
    simp [WriteOp.Apart, replace, refused, WriteOp.key, hb, hc]
  have hdone : (m.transact replace).1 = .ok () :=
    (Outcome.isOk_iff.mp (by decide +kernel : (m.transact replace).1.isOk = true)).elim fun _ h => h
  obtain ⟨hperm, hexchange⟩ := transact_anyOrder (m := m) rfl
  exact ⟨rfl, hvalid, hvalid', hapart, hdone, (hperm _ _ (List.reverse_perm replace).symm).2,
    (hperm _ _ (List.reverse_perm refused).symm).1, hexchange _ _ hvalid hvalid' hapart⟩

end TagStore
