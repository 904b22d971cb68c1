import Mathlib.Data.List.Nodup
import Mathlib.Data.List.OfFn
import TagStore.Proofs.Lookup
import TagStore.Write.Batch

namespace TagStore

namespace Keyed
variable {key : ItemKey} {op : WriteOp} {es : List (ItemKey × WriteOp)}

/-- Replaces the operation on a key where it stands, or adds it at the end. -/
def place (key : ItemKey) (op : WriteOp) : List (ItemKey × WriteOp) → List (ItemKey × WriteOp)
  | [] => [(key, op)]
  | e :: es => if e.1 = key then (key, op) :: es else e :: place key op es

theorem place_of_notMem (h : key ∉ es.map Prod.fst) : place key op es = es ++ [(key, op)] := by
  induction es with
  | nil => rfl
  | cons e es ih =>
    rw [List.map_cons, List.mem_cons, not_or] at h
    rw [place, if_neg (Ne.symm h.1), ih h.2, List.cons_append]

theorem place_of_getElem? (hapart : (es.map Prod.fst).Nodup) {i : Nat}
    (h : (es.map Prod.fst)[i]? = some key) : place key op es = es.set i (key, op) := by
  induction es generalizing i with
  | nil => cases h
  | cons e es ih =>
    obtain ⟨hnot, hapart⟩ := List.nodup_cons.mp hapart
    rw [place]
    cases i with
    | zero => rw [if_pos (Option.some.inj h), List.set_cons_zero]
    | succ i =>
      have hne : e.1 ≠ key := fun he => hnot (he ▸ List.mem_of_getElem? h)
      rw [if_neg hne, ih hapart h, List.set_cons_succ]

theorem keys_place (key : ItemKey) (op : WriteOp) (es : List (ItemKey × WriteOp)) :
    (place key op es).map Prod.fst =
      if key ∈ es.map Prod.fst then es.map Prod.fst else es.map Prod.fst ++ [key] := by
  induction es with
  | nil => rfl
  | cons e es ih =>
    by_cases h : e.1 = key
    · simp [place, h]
    · have h' : key ≠ e.1 := fun hk => h hk.symm
      simp only [place, if_neg h, List.map_cons, ih, List.mem_cons, h', false_or]
      split <;> simp

end Keyed

namespace Batch
variable {b : Batch} {key : ItemKey} {op : WriteOp}

theorem isSome_find?_pending (b : Batch) (i : Fin b.ops.length) :
    (b.pending.entries.find? fun e => e.2 = i.val).isSome = true := by
  obtain ⟨key, hkey⟩ := b.indexed.covered i.isLt
  exact List.find?_isSome.mpr ⟨(key, i), SortedMap.mem_entries_iff.mpr hkey, by simp⟩

/-- The key under which a position is known. -/
def keyAt (b : Batch) (i : Fin b.ops.length) : ItemKey :=
  ((b.pending.entries.find? fun e => e.2 = i.val).get (b.isSome_find?_pending i)).1

theorem keyAt_eq_iff {i : Fin b.ops.length} : b.keyAt i = key ↔ b.pending.find? key = some i.val := by
  have hkey : b.pending.find? (b.keyAt i) = some i.val := by
    have hfound := Option.some_get (b.isSome_find?_pending i)
    have hi := List.find?_some hfound.symm
    rw [decide_eq_true_eq] at hi
    rw [← SortedMap.mem_entries_iff, ← hi]
    exact List.mem_of_find?_eq_some hfound.symm
  exact ⟨fun h => h ▸ hkey, fun h => b.indexed.apart hkey h⟩

/-- The operations with their keys, as one list. -/
def entries (b : Batch) : List (ItemKey × WriteOp) :=
  List.ofFn fun i : Fin b.ops.length => (b.keyAt i, b.ops.get i)

/-- The entries are what the index and the operations say of each position. -/
theorem getElem?_entries_eq_some_iff {i : Nat} :
    b.entries[i]? = some (key, op) ↔ b.pending.find? key = some i ∧ b.ops[i]? = some op := by
  rw [entries, List.getElem?_ofFn]
  split
  next hi => simp [keyAt_eq_iff, List.getElem?_eq_getElem hi]
  next hi => simp [List.getElem?_eq_none (Nat.not_lt.mp hi)]

theorem ops_eq (b : Batch) : b.ops = b.entries.map Prod.snd := by
  rw [entries, List.map_ofFn]
  exact (List.ofFn_get b.ops).symm

theorem length_entries (b : Batch) : b.entries.length = b.size := List.length_ofFn

theorem getElem?_keys_eq_some_iff {i : Nat} :
    (b.entries.map Prod.fst)[i]? = some key ↔ b.pending.find? key = some i := by
  rw [List.getElem?_map, Option.map_eq_some_iff]
  constructor
  · rintro ⟨⟨_, op⟩, he, rfl⟩
    exact (getElem?_entries_eq_some_iff.mp he).1
  · intro h
    have hi := b.indexed.bounded h
    exact ⟨(key, b.ops[i]), getElem?_entries_eq_some_iff.mpr ⟨h, List.getElem?_eq_getElem hi⟩, rfl⟩

theorem mem_keys_iff : key ∈ b.entries.map Prod.fst ↔ b.contains key = true := by
  rw [List.mem_iff_getElem?, contains, SortedMap.contains, Option.isSome_iff_exists]
  exact exists_congr fun i => getElem?_keys_eq_some_iff

/-- No key stands twice, since the index tells one position of it. -/
theorem distinct (b : Batch) : (b.entries.map Prod.fst).Nodup := by
  rw [List.nodup_iff_getElem?_ne_getElem?]
  intro i j hij hj heq
  have hkey := List.getElem?_eq_getElem hj
  have hi := getElem?_keys_eq_some_iff.mp (heq.trans hkey)
  exact Nat.ne_of_lt hij (Option.some.inj (hi.symm.trans (getElem?_keys_eq_some_iff.mp hkey)))

theorem mem_entries_iff : (key, op) ∈ b.entries ↔ b.find? key = some op := by
  simp only [List.mem_iff_getElem?, getElem?_entries_eq_some_iff, find?, Option.bind_eq_some_iff]

theorem mem_entries_of_find? (h : b.find? key = some op) : (key, op) ∈ b.entries := mem_entries_iff.mpr h

theorem find?_of_mem_entries (b : Batch) (h : (key, op) ∈ b.entries) : b.find? key = some op :=
  mem_entries_iff.mp h

theorem mem_ops_of_find? (h : b.find? key = some op) : op ∈ b.ops := by
  rw [ops_eq]
  exact List.mem_map.mpr ⟨_, mem_entries_of_find? h, rfl⟩

theorem pending_eq_none_iff : b.pending.find? key = none ↔ b.find? key = none := by
  rw [← SortedMap.contains_eq_false_iff, ← Option.isNone_iff_eq_none, ← Option.not_isSome, Bool.not_eq_true']
  exact b.contains_eq_isSome_find? key ▸ Iff.rfl

theorem notMem_keys_iff : key ∉ b.entries.map Prod.fst ↔ b.find? key = none := by
  rw [mem_keys_iff, ← pending_eq_none_iff, ← SortedMap.contains_eq_false_iff, Bool.not_eq_true]
  rfl

theorem find?_of_ops_eq_nil (h : b.ops = []) (key : ItemKey) : b.find? key = none := by
  rw [find?, h]
  cases b.pending.find? key <;> rfl

/-- A look-up by the index is a search of the entries, from either end. -/
theorem find?_eq_of_mem_iff {es : List (ItemKey × WriteOp)} (hes : ∀ e, e ∈ es ↔ e ∈ b.entries)
    (key : ItemKey) : b.find? key = (es.find? fun e => e.1 = key).map Prod.snd := by
  cases h : es.find? fun e => e.1 = key with
  | none =>
    have hnot : key ∉ b.entries.map Prod.fst := by
      intro hin
      obtain ⟨e, he, hkey⟩ := List.mem_map.mp hin
      exact List.find?_eq_none.mp h e ((hes e).mpr he) (decide_eq_true hkey)
    rw [notMem_keys_iff.mp hnot, Option.map_none]
  | some e =>
    have hkey := List.find?_some h
    rw [decide_eq_true_eq] at hkey
    subst hkey
    exact b.find?_of_mem_entries ((hes e).mp (List.mem_of_find?_eq_some h))

theorem entries_eq {es : List (ItemKey × WriteOp)} (hlength : es.length = b.size)
    (h : ∀ {i key op}, es[i]? = some (key, op) → b.pending.find? key = some i ∧ b.ops[i]? = some op) :
    b.entries = es := by
  apply List.ext_getElem?
  intro i
  by_cases hi : i < es.length
  · have he := List.getElem?_eq_getElem hi
    exact (getElem?_entries_eq_some_iff.mpr (h he)).trans he.symm
  · have hi' : b.entries.length ≤ i := by rw [length_entries, ← hlength]; exact Nat.not_lt.mp hi
    rw [List.getElem?_eq_none (Nat.not_lt.mp hi), List.getElem?_eq_none hi']

theorem entries_place_pending {i : Nat} (h : b.pending.find? key = some i) (op : WriteOp) :
    (b.place key op).entries = b.entries.set i (key, op) := by
  have hi := b.indexed.bounded h
  unfold place
  split
  next i' h' =>
    obtain rfl : i = i' := Option.some.inj (h.symm.trans h')
    apply entries_eq
    · rw [List.length_set, length_entries, size, size, List.length_set]
    · intro j k o hj
      by_cases hij : i = j
      · subst hij
        rw [List.getElem?_set_self (hi.trans_eq b.length_entries.symm)] at hj
        obtain ⟨rfl, rfl⟩ := Prod.mk.inj (Option.some.inj hj)
        exact ⟨h, List.getElem?_set_self hi⟩
      · rw [List.getElem?_set_ne hij, getElem?_entries_eq_some_iff] at hj
        exact ⟨hj.1, (List.getElem?_set_ne hij).trans hj.2⟩
  next h' => cases h.symm.trans h'

theorem entries_place_new (hnew : b.find? key = none) (op : WriteOp) :
    (b.place key op).entries = b.entries ++ [(key, op)] := by
  unfold place
  split
  next i h => cases (pending_eq_none_iff.mpr hnew).symm.trans h
  next h =>
    apply entries_eq
    · rw [List.length_append, length_entries, size, size, List.length_append]
      rfl
    · intro j k o hj
      rw [List.getElem?_append, length_entries] at hj
      split at hj
      next hlt =>
        rw [getElem?_entries_eq_some_iff] at hj
        have hne : k ≠ key := by
          rintro rfl
          cases h.symm.trans hj.1
        exact ⟨(SortedMap.find?_insert_of_ne _ hne _).trans hj.1, (List.getElem?_append_left hlt).trans hj.2⟩
      next hge =>
        rw [List.getElem?_singleton] at hj
        split at hj
        next hzero =>
          obtain rfl : j = b.ops.length := Nat.le_antisymm (Nat.sub_eq_zero_iff_le.mp hzero) (Nat.not_lt.mp hge)
          obtain ⟨rfl, rfl⟩ := Prod.mk.inj (Option.some.inj hj)
          exact ⟨SortedMap.find?_insert_self .., List.getElem?_concat_length⟩
        next => cases hj

theorem size_place_new (hnew : b.find? key = none) (op : WriteOp) : (b.place key op).size = b.size + 1 := by
  rw [← length_entries, entries_place_new hnew, List.length_append, length_entries]
  rfl

theorem size_place_le (b : Batch) (key : ItemKey) (op : WriteOp) : (b.place key op).size ≤ b.size + 1 := by
  unfold place
  split
  · rw [size, List.length_set]
    exact Nat.le_succ _
  · rw [size, List.length_append]
    exact Nat.le_refl _

/-- Operations and index take up an operation as one list of both does. -/
theorem entries_place (b : Batch) (key : ItemKey) (op : WriteOp) :
    (b.place key op).entries = TagStore.Keyed.place key op b.entries := by
  cases h : b.pending.find? key with
  | none =>
    have hnew := pending_eq_none_iff.mp h
    rw [entries_place_new hnew, TagStore.Keyed.place_of_notMem (notMem_keys_iff.mpr hnew)]
  | some i =>
    rw [entries_place_pending h, TagStore.Keyed.place_of_getElem? b.distinct (getElem?_keys_eq_some_iff.mpr h)]

end Batch

end TagStore
