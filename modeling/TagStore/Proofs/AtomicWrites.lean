import Mathlib.Data.List.Forall2
import TagStore.Proofs.Simulation
import TagStore.Proofs.StoredTexts

namespace TagStore

namespace WriteOp
variable {ops : List WriteOp} {es : List (ItemKey × WriteOp)}

/-- What every store asks of a batch: it is neither empty nor too large, what it puts has a key, and no
two of its operations have the same one. -/
structure Valid (ops : List WriteOp) : Prop where
  nonempty : ops ≠ []
  small : ops.length ≤ maxBatch
  keyed : ∀ item condition, put item condition ∈ ops →
    (∃ s, item.text? Attribute.partition = some s) ∧ ∃ s, item.text? Attribute.sort = some s
  apart : ops.Pairwise fun a b => ∀ key, a.key = .ok key → b.key ≠ .ok key

theorem Valid.exists_key (h : Valid ops) {op : WriteOp} (hop : op ∈ ops) : ∃ key, op.key = .ok key := by
  cases op with
  | put item condition =>
    obtain ⟨⟨partition, hpartition⟩, ⟨sort, hsort⟩⟩ := h.keyed item condition hop
    exact ⟨⟨partition, sort⟩, Item.key_eq_ok_iff.mpr ⟨hpartition, hsort⟩⟩
  | delete key condition => exact ⟨key, rfl⟩

theorem exists_under_keys (h : ∀ op ∈ ops, ∃ key, op.key = .ok key) :
    ∃ es : List (ItemKey × WriteOp), (∀ e ∈ es, e.2.key = .ok e.1) ∧ es.map Prod.snd = ops := by
  induction ops with
  | nil => exact ⟨[], nofun, rfl⟩
  | cons op ops ih =>
    obtain ⟨key, hkey⟩ := h op List.mem_cons_self
    obtain ⟨es, hes, rfl⟩ := ih fun op hop => h op (List.mem_cons_of_mem _ hop)
    exact ⟨(key, op) :: es, List.forall_mem_cons.mpr ⟨hkey, hes⟩, rfl⟩

/-- Entries under their own keys stand apart as their operations do. -/
theorem pairwise_snd_iff (h : ∀ e ∈ es, e.2.key = .ok e.1) :
    (es.map Prod.snd).Pairwise (fun a b => ∀ key, a.key = .ok key → b.key ≠ .ok key) ↔
      (es.map Prod.fst).Nodup := by
  rw [List.Nodup, List.pairwise_map, List.pairwise_map]
  apply List.Pairwise.iff_of_mem
  intro a b ha hb
  simp [h a ha, h b hb, eq_comm]

/-- Only the operations of a valid batch are keyed, and all of them are. -/
theorem keyed_eq_ok_iff :
    keyed ops = .ok es ↔ Valid ops ∧ KeyedApart es ∧ es.map Prod.snd = ops := by
  constructor
  · intro h
    obtain ⟨hes, rfl⟩ := keyed_spec h
    rw [keyed] at h
    split at h
    next => cases h
    next hempty =>
      split at h
      next => cases h
      next hlarge =>
        refine ⟨⟨by simpa using hempty, Nat.le_of_not_lt hlarge, ?_, (pairwise_snd_iff hes.keyed).mpr hes.apart⟩,
          hes, rfl⟩
        intro item condition hput
        obtain ⟨e, he, hop⟩ := List.mem_map.mp hput
        have hkey := hes.keyed e he
        rw [hop] at hkey
        obtain ⟨hpartition, hsort⟩ := Item.key_eq_ok_iff.mp hkey
        exact ⟨⟨_, hpartition⟩, ⟨_, hsort⟩⟩
  · rintro ⟨hvalid, hes, rfl⟩
    have hempty : ¬ (es.map Prod.snd).isEmpty = true := by simpa using hvalid.nonempty
    rw [keyed, if_neg hempty, if_neg (Nat.not_lt.mpr hvalid.small)]
    exact keyedApart_eq hes fun _ _ => List.not_mem_nil

theorem Valid.exists_entries (h : Valid ops) :
    ∃ es, WriteOp.keyed ops = .ok es ∧ KeyedApart es ∧ es.map Prod.snd = ops := by
  obtain ⟨es, hes, hops⟩ := exists_under_keys fun _ hop => h.exists_key hop
  have hapart : KeyedApart es := ⟨hes, (pairwise_snd_iff hes).mp (hops ▸ h.apart)⟩
  exact ⟨es, keyed_eq_ok_iff.mpr ⟨h, hapart, hops⟩, hapart, hops⟩

theorem valid_iff : Valid ops ↔ (keyed ops).isOk = true := by
  rw [Outcome.isOk_iff]
  constructor
  · intro h
    obtain ⟨es, hes, _⟩ := h.exists_entries
    exact ⟨es, hes⟩
  · exact fun ⟨_, hes⟩ => (keyed_eq_ok_iff.mp hes).1

instance (ops : List WriteOp) : Decidable (Valid ops) := decidable_of_iff _ valid_iff.symm

theorem keyed_of_not_valid (h : ¬ Valid ops) : ∃ cause, keyed ops = .error cause := by
  rwa [valid_iff, Bool.not_eq_true, Outcome.isOk_eq_false_iff] at h

/-- Whether an operation has a condition that is false of the item at its key. -/
def Refused (current : ItemKey → Option Item) (op : WriteOp) : Prop :=
  ∃ key condition, op.key = .ok key ∧ op.condition = some condition ∧ condition.holds (current key) = false

theorem refused_iff {current : ItemKey → Option Item} {e : ItemKey × WriteOp} (he : e.2.key = .ok e.1) :
    e.2.Refused current ↔ e.2.allowed (current e.1) = false := by
  rw [allowed]
  constructor
  · rintro ⟨key, condition, hkey, hcondition, hfalse⟩
    rw [he, Except.ok.injEq] at hkey
    rw [hcondition, hkey]
    exact hfalse
  · intro h
    split at h
    next condition hcondition => exact ⟨e.1, condition, he, hcondition, h⟩
    next => cases h

/-- What a batch that is applied does to a table where `kept` of an item is what stands for it. -/
structure Applied {α : Type} (kept : Item → α) (ops : List WriteOp) (before after : ItemKey → Option α) :
    Prop where
  stored : ∀ item condition key, put item condition ∈ ops → item.key = .ok key → after key = some (kept item)
  deleted : ∀ key condition, delete key condition ∈ ops → after key = none
  unchanged : ∀ key, (∀ op ∈ ops, op.key ≠ .ok key) → after key = before key

/-- No operation undoes what another one did, since no two of them have the same key. -/
theorem applied_foldl {α : Type} {kept : Item → α}
    {step : SortedMap ItemKey α → ItemKey × WriteOp → SortedMap ItemKey α}
    (hstep : ∀ m e key, (step m e).find? key = if key = e.1 then e.2.leaves.map kept else m.find? key)
    (hes : KeyedApart es) (m : SortedMap ItemKey α) :
    Applied kept (es.map Prod.snd) m.find? (es.foldl step m).find? := by
  have hleft : ∀ op ∈ es.map Prod.snd, ∀ key, op.key = .ok key →
      (es.foldl step m).find? key = op.leaves.map kept := by
    intro op hop key hkey
    obtain ⟨e, he, rfl⟩ := List.mem_map.mp hop
    rw [hes.keyed e he, Except.ok.injEq] at hkey
    subst hkey
    exact SortedMap.find?_foldl_of_mem (fun op => op.leaves.map kept) hstep m hes.apart he
  refine ⟨fun item condition key hput hkey => hleft _ hput key hkey,
    fun key condition hdelete => hleft _ hdelete key rfl, fun key hother => ?_⟩
  apply SortedMap.find?_foldl_of_ne (fun op => op.leaves.map kept) hstep
  intro hkey
  obtain ⟨e, he, rfl⟩ := List.mem_map.mp hkey
  exact hother e.2 (List.mem_map.mpr ⟨e, he, rfl⟩) (hes.keyed e he)

end WriteOp

namespace Reason
variable {current : ItemKey → Option Item}

/-- Whether a reason tells what became of an operation. -/
structure Tells (current : ItemKey → Option Item) (op : WriteOp) (r : Reason) : Prop where
  key : op.key = .ok r.key
  refused : op.Refused current → r = .conditionFailed r.key
  fine : ¬ op.Refused current → r = .fine r.key

def of (current : ItemKey → Option Item) (e : ItemKey × WriteOp) : Reason :=
  if e.2.allowed (current e.1) then .fine e.1 else .conditionFailed e.1

theorem tells_of {e : ItemKey × WriteOp} (he : e.2.key = .ok e.1) : Tells current e.2 (of current e) := by
  rw [of]
  split
  next h =>
    have hfine : ¬ e.2.Refused current := by simp [WriteOp.refused_iff he, h]
    exact ⟨he, fun hrefused => absurd hrefused hfine, fun _ => rfl⟩
  next h =>
    have hrefused : e.2.Refused current := by simpa [WriteOp.refused_iff he] using h
    exact ⟨he, fun _ => rfl, fun hfine => absurd hrefused hfine⟩

variable {es : List (ItemKey × WriteOp)} (hes : ∀ e ∈ es, e.2.key = .ok e.1)
include hes

/-- There is one reason for each operation, in their order. -/
theorem forall₂_tells : List.Forall₂ (Tells current) (es.map Prod.snd) (es.map (of current)) := by
  rw [List.forall₂_map_left_iff, List.forall₂_map_right_iff, List.forall₂_same]
  exact fun e he => tells_of (hes e he)

theorem any_isFailure_iff :
    (es.map (of current)).any isFailure = true ↔ ∃ op ∈ es.map Prod.snd, op.Refused current := by
  have hone : ∀ e ∈ es, (of current e).isFailure = true ↔ e.2.Refused current := by
    intro e he
    rw [WriteOp.refused_iff (hes e he), of]
    cases e.2.allowed (current e.1) <;> simp [isFailure, Reason.fine, conditionFailed]
  simp only [List.any_map, List.any_eq_true, Function.comp]
  constructor
  · rintro ⟨e, he, hfailure⟩
    exact ⟨e.2, List.mem_map.mpr ⟨e, he, rfl⟩, (hone e he).mp hfailure⟩
  · rintro ⟨op, hop, hrefused⟩
    obtain ⟨e, he, rfl⟩ := List.mem_map.mp hop
    exact ⟨e, he, (hone e he).mpr hrefused⟩

end Reason

open WriteOp (Valid Applied)

namespace Memory
variable {m : Memory} {ops : List WriteOp}

/-- A batch is applied as a whole or not at all, with the reasons why not. A batch that is not valid takes
no fault from the queue. -/
structure Atomic (m : Memory) (ops : List WriteOp) : Prop where
  invalid : ¬ Valid ops → ∃ cause, m.transact ops = (.error (.invalid cause), m)
  faulted : Valid ops → ∀ fault faults, m.faults = fault :: faults →
    ∃ e, m.transact ops = (.error e, { m with faults })
  cancelled : Valid ops → m.faults = [] → (∃ op ∈ ops, op.Refused m.items.find?) →
    ∃ reasons, m.transact ops = (.error (.cancelled reasons), m) ∧
      List.Forall₂ (Reason.Tells m.items.find?) ops reasons
  applied : Valid ops → m.faults = [] → (∀ op ∈ ops, ¬ op.Refused m.items.find?) →
    ∃ m', m.transact ops = (.ok (), m') ∧ m'.faults = [] ∧ Applied id ops m.items.find? m'.items.find?

theorem transact_of_keyed {es : List (ItemKey × WriteOp)} (hes : WriteOp.keyed ops = .ok es)
    (hfaults : m.faults = []) : m.transact ops =
      if (es.map (Reason.of m.items.find?)).any Reason.isFailure then
        (.error (.cancelled (es.map (Reason.of m.items.find?))), m)
      else (.ok (), { m with items := es.foldl apply m.items }) := by
  rw [transact, hes]
  simp only [hfaults]
  rfl

theorem atomic (m : Memory) (ops : List WriteOp) : m.Atomic ops where
  invalid h := by
    obtain ⟨cause, hcause⟩ := WriteOp.keyed_of_not_valid h
    exact ⟨cause, by rw [transact, hcause]⟩
  faulted h fault faults hfaults := by
    obtain ⟨es, hes, _⟩ := h.exists_entries
    rw [transact, hes]
    cases fault with
    | conflict => exact ⟨_, by simp only [hfaults]; rfl⟩
    | unavailable message => exact ⟨_, by simp only [hfaults]; rfl⟩
  cancelled h hfaults hrefused := by
    obtain ⟨es, hes, hkeyed, rfl⟩ := h.exists_entries
    refine ⟨es.map (Reason.of m.items.find?), ?_, Reason.forall₂_tells hkeyed.keyed⟩
    rw [transact_of_keyed hes hfaults, if_pos ((Reason.any_isFailure_iff hkeyed.keyed).mpr hrefused)]
  applied h hfaults hfine := by
    obtain ⟨es, hes, hkeyed, rfl⟩ := h.exists_entries
    have hnone : ¬ (es.map (Reason.of m.items.find?)).any Reason.isFailure = true := by
      rw [Reason.any_isFailure_iff hkeyed.keyed]
      rintro ⟨op, hop, hrefused⟩
      exact hfine op hop hrefused
    refine ⟨{ m with items := es.foldl apply m.items }, ?_, hfaults, ?_⟩
    · rw [transact_of_keyed hes hfaults, if_neg hnone]
    · apply WriteOp.applied_foldl _ hkeyed
      rintro items ⟨key, op⟩ key'
      cases op with
      | put item condition => exact SortedMap.find?_insert items key key' item
      | delete _ condition => exact SortedMap.find?_erase items key key'

end Memory

/-- Whether an attribute that a database keeps in a column is neither a text nor null. -/
structure Item.Misfit (item : Item) (name : String) (value : Json) : Prop where
  column : name ∈ [Attribute.kind, Attribute.tagIndex, Attribute.parent, Attribute.order]
  found : item.find? name = some value
  notNull : value ≠ .null
  notText : ∀ s, value ≠ .string s

namespace Row

theorem column_cases (item : Item) (name : String)
    (hname : name ∈ [Attribute.kind, Attribute.tagIndex, Attribute.parent, Attribute.order]) :
    (∃ value, item.Misfit name value ∧ column item name = .error (.indexAttribute name value)) ∨
      item.find? name = none ∨ item.find? name = some .null ∨ ∃ s, item.find? name = some (.string s) := by
  unfold column
  split
  next hfound => exact .inr (.inl hfound)
  next hfound => exact .inr (.inr (.inl hfound))
  next s hfound => exact .inr (.inr (.inr ⟨s, hfound⟩))
  next value hnull htext hfound => exact .inl ⟨value, ⟨hname, hfound, hnull, htext⟩, rfl⟩

/-- An attribute that does not fit is reported. -/
theorem ofItem_cases (item : Item) :
    (∃ name value, item.Misfit name value ∧ ofItem item = .error (.indexAttribute name value)) ∨
      item.Indexable := by
  rcases column_cases item Attribute.kind (by simp) with ⟨value, hmisfit, hkind⟩ | hkind
  · exact .inl ⟨_, value, hmisfit, by simp [ofItem, hkind, bind, Except.bind]⟩
  rcases column_cases item Attribute.tagIndex (by simp) with ⟨value, hmisfit, htag⟩ | htag
  · exact .inl ⟨_, value, hmisfit, by simp [ofItem, column_eq hkind, htag, bind, Except.bind]⟩
  rcases column_cases item Attribute.parent (by simp) with ⟨value, hmisfit, hparent⟩ | hparent
  · exact .inl ⟨_, value, hmisfit, by
      simp [ofItem, column_eq hkind, column_eq htag, hparent, bind, Except.bind]⟩
  rcases column_cases item Attribute.order (by simp) with ⟨value, hmisfit, horder⟩ | horder
  · exact .inl ⟨_, value, hmisfit, by
      simp [ofItem, column_eq hkind, column_eq htag, column_eq hparent, horder, bind, Except.bind]⟩
  · refine .inr ?_
    simp only [Item.Indexable, List.forall_mem_cons]
    exact ⟨hkind, htag, hparent, horder, List.forall_mem_nil _⟩

theorem indexable_iff {item : Item} : item.Indexable ↔ (ofItem item).isOk = true := by
  rw [Outcome.isOk_iff]
  constructor
  · exact fun h => ⟨of item, ofItem_eq h⟩
  · intro ⟨row, hrow⟩
    rcases ofItem_cases item with ⟨_, _, _, herror⟩ | h
    · rw [hrow] at herror
      cases herror
    · exact h

end Row

instance (item : Item) : Decidable item.Indexable := decidable_of_iff _ Row.indexable_iff.symm

instance (op : WriteOp) : Decidable op.Indexable :=
  match op with
  | .put item _ => inferInstanceAs (Decidable item.Indexable)
  | .delete _ _ => .isTrue trivial

namespace Database
variable {d : Database} {ops : List WriteOp} {es : List (ItemKey × WriteOp)}

/-- The item at a key, if its text can be read. -/
def current (d : Database) (key : ItemKey) : Option Item := (d.rows.find? key).bind Row.item?

/-- Whether an operation has a condition on an item whose text can not be read. -/
def Unreadable (d : Database) (op : WriteOp) : Prop :=
  ∃ key condition row, op.key = .ok key ∧ op.condition = some condition ∧ d.rows.find? key = some row ∧
    row.item? = none

theorem reason_unreadable {e : ItemKey × WriteOp} (he : e.2.key = .ok e.1) (h : d.Unreadable e.2) :
    d.reason e = .error .database := by
  obtain ⟨key, condition, row, hkey, hcondition, hrow, hitem⟩ := h
  rw [he, Except.ok.injEq] at hkey
  subst hkey
  simp [reason, hcondition, hrow, hitem]

theorem reason_of_readable {e : ItemKey × WriteOp} (he : e.2.key = .ok e.1) (h : ¬ d.Unreadable e.2) :
    d.reason e = .ok (Reason.of d.current e) := by
  obtain ⟨key, op⟩ := e
  rw [reason, Reason.of, current]
  cases hcondition : op.condition with
  | none => simp [WriteOp.allowed, hcondition]
  | some condition =>
    cases hrow : d.rows.find? key with
    | none => rfl
    | some row =>
      cases hitem : row.item? with
      | none => exact absurd ⟨key, condition, row, he, hcondition, hrow, hitem⟩ h
      | some item => simp [hitem]

theorem reasons_unreadable (hes : ∀ e ∈ es, e.2.key = .ok e.1) (h : ∃ op ∈ es.map Prod.snd, d.Unreadable op) :
    es.mapM d.reason = .error .database := by
  induction es with
  | nil =>
    obtain ⟨op, hop, _⟩ := h
    cases hop
  | cons e es ih =>
    obtain ⟨he, hes⟩ := List.forall_mem_cons.mp hes
    rw [List.mapM_cons]
    by_cases hone : d.Unreadable e.2
    · rw [reason_unreadable he hone]
      rfl
    · have hrest : ∃ op ∈ es.map Prod.snd, d.Unreadable op := by simpa [hone] using h
      rw [reason_of_readable he hone, ih hes hrest]
      rfl

theorem reasons_of_readable (hes : ∀ e ∈ es, e.2.key = .ok e.1)
    (h : ∀ op ∈ es.map Prod.snd, ¬ d.Unreadable op) :
    es.mapM d.reason = .ok (es.map (Reason.of d.current)) :=
  Outcome.mapM_eq_ok fun e he => reason_of_readable (hes e he) (h e.2 (List.mem_map.mpr ⟨e, he, rfl⟩))

/-- The rows that were changed before an item did not fit are given up. -/
theorem applyAll_misfit (rows : SortedMap ItemKey Row) (h : ∃ op ∈ es.map Prod.snd, ¬ op.Indexable) :
    ∃ item condition name value, .put item condition ∈ es.map Prod.snd ∧ item.Misfit name value ∧
      applyAll rows es = .error (.indexAttribute name value) := by
  induction es generalizing rows with
  | nil =>
    obtain ⟨op, hop, _⟩ := h
    cases hop
  | cons e es ih =>
    have hrest : e.2.Indexable → ∃ item condition name value, .put item condition ∈ (e :: es).map Prod.snd ∧
        item.Misfit name value ∧ applyAll (settle rows e) es = .error (.indexAttribute name value) := by
      intro hone
      obtain ⟨item, condition, name, value, hput, hmisfit, herror⟩ := ih (settle rows e) (by simpa [hone] using h)
      exact ⟨item, condition, name, value, List.mem_cons_of_mem _ hput, hmisfit, herror⟩
    obtain ⟨key, op⟩ := e
    cases op with
    | put item condition =>
      rcases Row.ofItem_cases item with ⟨name, value, hmisfit, herror⟩ | hindexable
      · refine ⟨item, condition, name, value, List.mem_cons_self, hmisfit, ?_⟩
        rw [applyAll, applyOne, herror]
        rfl
      · rw [applyAll, applyOne, Row.ofItem_eq hindexable]
        exact hrest hindexable
    | delete key' condition => exact hrest trivial

/-- A batch is applied as a whole or not at all, with the reasons why not. -/
structure Atomic (d : Database) (ops : List WriteOp) : Prop where
  invalid : ¬ Valid ops → ∃ cause, d.transact ops = (.error (.invalid cause), d)
  unreadable : Valid ops → (∃ op ∈ ops, d.Unreadable op) → d.transact ops = (.error .database, d)
  cancelled : Valid ops → (∀ op ∈ ops, ¬ d.Unreadable op) → (∃ op ∈ ops, op.Refused d.current) →
    ∃ reasons, d.transact ops = (.error (.cancelled reasons), d) ∧
      List.Forall₂ (Reason.Tells d.current) ops reasons
  misfit : Valid ops → (∀ op ∈ ops, ¬ d.Unreadable op) → (∀ op ∈ ops, ¬ op.Refused d.current) →
    (∃ op ∈ ops, ¬ op.Indexable) →
    ∃ item condition name value, .put item condition ∈ ops ∧ item.Misfit name value ∧
      d.transact ops = (.error (.invalid (.indexAttribute name value)), d)
  applied : Valid ops → (∀ op ∈ ops, ¬ d.Unreadable op) → (∀ op ∈ ops, ¬ op.Refused d.current) →
    (∀ op ∈ ops, op.Indexable) →
    ∃ d', d.transact ops = (.ok (), d') ∧ d'.locked = false ∧
      Applied Row.of ops d.rows.find? d'.rows.find? ∧
      ∀ item condition key, .put item condition ∈ ops → item.key = .ok key → item.ReadsBack →
        d'.get key = .ok (some item)

/-- A batch that is refused by no condition comes down to its rows. -/
theorem transact_of_fine (hunlocked : d.locked = false) (hes : WriteOp.keyed ops = .ok es)
    (hreadable : ∀ op ∈ ops, ¬ d.Unreadable op) (hfine : ∀ op ∈ ops, ¬ op.Refused d.current) :
    d.transact ops = match applyAll d.rows es with
      | .error cause => (.error (.invalid cause), d)
      | .ok rows => (.ok (), { d with rows }) := by
  obtain ⟨_, hkeyed, rfl⟩ := WriteOp.keyed_eq_ok_iff.mp hes
  have hnone : ¬ (es.map (Reason.of d.current)).any Reason.isFailure = true := by
    rw [Reason.any_isFailure_iff hkeyed.keyed]
    exact fun ⟨op, hop, hrefused⟩ => hfine op hop hrefused
  simp only [transact, hes, Outcome.mapError_ok, reasons_of_readable hkeyed.keyed hreadable, if_neg hnone,
    apply, hunlocked, Bool.false_eq_true, if_false, bind, Except.bind, pure, Except.pure]
  cases applyAll d.rows es <;> rfl

theorem atomic (hunlocked : d.locked = false) (ops : List WriteOp) : d.Atomic ops where
  invalid h := by
    obtain ⟨cause, hcause⟩ := WriteOp.keyed_of_not_valid h
    exact ⟨cause, by simp [transact, hcause, Outcome.mapError_error, bind, Except.bind]⟩
  unreadable h hunreadable := by
    obtain ⟨es, hes, hkeyed, rfl⟩ := h.exists_entries
    simp [transact, hes, Outcome.mapError_ok, reasons_unreadable hkeyed.keyed hunreadable, bind, Except.bind]
  cancelled h hreadable hrefused := by
    obtain ⟨es, hes, hkeyed, rfl⟩ := h.exists_entries
    refine ⟨es.map (Reason.of d.current), ?_, Reason.forall₂_tells hkeyed.keyed⟩
    simp only [transact, hes, Outcome.mapError_ok, reasons_of_readable hkeyed.keyed hreadable,
      if_pos ((Reason.any_isFailure_iff hkeyed.keyed).mpr hrefused), bind, Except.bind, throw, throwThe,
      MonadExceptOf.throw]
  misfit h hreadable hfine hmisfit := by
    obtain ⟨es, hes, _, rfl⟩ := h.exists_entries
    obtain ⟨item, condition, name, value, hput, hvalue, herror⟩ := applyAll_misfit d.rows hmisfit
    refine ⟨item, condition, name, value, hput, hvalue, ?_⟩
    rw [transact_of_fine hunlocked hes hreadable hfine, herror]
  applied h hreadable hfine hindexable := by
    obtain ⟨es, hes, hkeyed, rfl⟩ := h.exists_entries
    have hrows := applyAll_settle d.rows fun e he => hindexable e.2 (List.mem_map.mpr ⟨e, he, rfl⟩)
    have happlied : Applied Row.of (es.map Prod.snd) d.rows.find? (es.foldl settle d.rows).find? := by
      apply WriteOp.applied_foldl _ hkeyed
      rintro rows ⟨key, op⟩ key'
      cases op with
      | put item condition => exact SortedMap.find?_insert rows key key' (Row.of item)
      | delete _ condition => exact SortedMap.find?_erase rows key key'
    refine ⟨{ d with rows := es.foldl settle d.rows }, ?_, hunlocked, happlied, ?_⟩
    · rw [transact_of_fine hunlocked hes hreadable hfine, hrows]
    · intro item condition key hput hkey hback
      simp only [get, happlied.stored item condition key hput hkey, Database.item, Row.item?_of hback]
      rfl

/-- A number may come back from its text as another one, and an item that is nested too deeply does not come
back at all, not even for a condition. -/
theorem transact_unfaithful :
    let number : Json := (Json.read? "1.18468189453758654").getD .null
    let item : Item := .ofList [("pk", .string "a"), ("sk", .string "a"), ("x", number)]
    let nested : Item := .ofList
      [("pk", .string "b"), ("sk", .string "b"), ("x", Nat.repeat (fun j => .array [j]) 127 .null)]
    let ops : List WriteOp := [.put item none, .put nested none]
    let d := (Database.empty.transact ops).2
    let again : List WriteOp := [.delete ⟨"b", "b"⟩ (some .present)]
    (Valid ops ∧ (∀ op ∈ ops, op.Indexable) ∧ (Database.empty.transact ops).1.isOk ∧
        d.get ⟨"a", "a"⟩ ≠ .ok (some item)) ∧
      Valid again ∧ (d.rows.find? ⟨"b", "b"⟩).isSome ∧ d.transact again = (.error .database, d) := by
  intro number item nested ops d again
  have hback : d.get ⟨"a", "a"⟩ ≠ .ok (some item) := by
    intro h
    have htext := congrArg (fun answer => answer.toOption.map (Option.map fun i => (Json.ofMap i).compact)) h
    revert htext
    decide +kernel
  have hbody : (d.rows.find? ⟨"b", "b"⟩).map Row.body = some (Json.ofMap nested).compact := by decide +kernel
  obtain ⟨row, hfound, hrow⟩ := Option.map_eq_some_iff.mp hbody
  have hitem : row.item? = none := by
    have hdeep : nested.find? "x" = some (Nat.repeat (fun j => .array [j]) 127 .null) := rfl
    rw [Row.item?, hrow, Item.read?_eq_none hdeep (Json.value?_nested (by decide))]
  have hunreadable : d.Unreadable (.delete ⟨"b", "b"⟩ (some .present)) :=
    ⟨_, _, row, rfl, rfl, hfound, hitem⟩
  have hagain : Valid again := by decide +kernel
  have hrefused := (atomic (d := d) (by decide +kernel) again).unreadable hagain
    ⟨_, List.mem_singleton_self _, hunreadable⟩
  exact ⟨⟨by decide +kernel, by decide +kernel, by decide +kernel, hback⟩, hagain,
    by rw [hfound]; rfl, hrefused⟩

end Database

/-- Both stores apply a batch as a whole or not at all, and tell why not. -/
theorem Store.transact_atomic : (∀ (m : Memory) (ops : List WriteOp), m.Atomic ops) ∧
    ∀ d : Database, d.locked = false → ∀ ops : List WriteOp, d.Atomic ops :=
  ⟨Memory.atomic, fun _ hunlocked ops => Database.atomic hunlocked ops⟩

/-- One item takes the place of another, each of them under a condition. -/
theorem Store.transact_atomic_replacing :
    let old : Item := .ofTexts [("pk", "a"), ("sk", "a"), ("n", "1")]
    let new : Item := .ofTexts [("pk", "b"), ("sk", "b"), ("n", "2")]
    let m : Memory := ⟨SortedMap.empty.insert ⟨"a", "a"⟩ old, []⟩
    let d : Database := ⟨SortedMap.empty.insert ⟨"a", "a"⟩ (.of old), false⟩
    let ops : List WriteOp :=
      [.put new (some .absent), .delete ⟨"a", "a"⟩ (some (.equals "n" (.string "1")))]
    (∃ m', m.transact ops = (.ok (), m') ∧ m'.items.find? ⟨"b", "b"⟩ = some new ∧
      m'.items.find? ⟨"a", "a"⟩ = none) ∧
    ∃ d', d.transact ops = (.ok (), d') ∧ d'.get ⟨"b", "b"⟩ = .ok (some new) ∧
      d'.rows.find? ⟨"a", "a"⟩ = none := by
  intro old new m d ops
  obtain ⟨hmemory, hdatabase⟩ := Store.transact_atomic
  have hvalid : Valid ops := by decide +kernel
  have hkey : new.key = .ok ⟨"b", "b"⟩ := Item.key_eq_ok_iff.mpr ⟨by decide +kernel, by decide +kernel⟩
  have hback : ∀ fields, (Item.ofTexts fields).ReadsBack :=
    fun fields => Item.read?_compact_of_texts (Item.ofTexts_texts fields)
  have hallowed : ∀ current : ItemKey → Option Item, current ⟨"a", "a"⟩ = some old →
      current ⟨"b", "b"⟩ = none → ∀ op ∈ ops, ¬ op.Refused current := by
    intro current hold hnew
    have hput : ¬ (WriteOp.put new (some .absent)).Refused current := by
      rw [WriteOp.refused_iff (e := (_, .put new _)) hkey, hnew]
      decide
    have hdelete : ¬ (WriteOp.delete ⟨"a", "a"⟩ (some (.equals "n" (.string "1")))).Refused current := by
      rw [WriteOp.refused_iff (e := (⟨"a", "a"⟩, .delete _ _)) rfl, hold]
      decide +kernel
    simp only [ops, List.forall_mem_cons]
    exact ⟨hput, hdelete, nofun⟩
  have hother : (⟨"b", "b"⟩ : ItemKey) ≠ ⟨"a", "a"⟩ := by decide
  constructor
  · have hfine := hallowed m.items.find? (SortedMap.find?_insert_self _ _ _)
      (SortedMap.find?_insert_of_ne _ hother _)
    obtain ⟨m', hdone, _, happlied⟩ := (hmemory m ops).applied hvalid rfl hfine
    exact ⟨m', hdone, happlied.stored new _ _ List.mem_cons_self hkey,
      happlied.deleted _ _ (List.mem_cons_of_mem _ List.mem_cons_self)⟩
  · have hrow : d.rows.find? ⟨"a", "a"⟩ = some (.of old) := SortedMap.find?_insert_self _ _ _
    have hnone : d.rows.find? ⟨"b", "b"⟩ = none := SortedMap.find?_insert_of_ne _ hother _
    have hold : (Row.of old).item? = some old := Row.item?_of (hback _)
    have hfine := hallowed d.current (by rw [Database.current, hrow, Option.bind_some, hold])
      (by rw [Database.current, hnone, Option.bind_none])
    have hreadable : ∀ op ∈ ops, ¬ d.Unreadable op := by
      simp only [ops, List.forall_mem_cons]
      refine ⟨?_, ?_, nofun⟩
      · intro ⟨key, _, row, hop, _, hfound, _⟩
        rw [← Except.ok.inj (hkey.symm.trans hop), hnone] at hfound
        cases hfound
      · intro ⟨key, _, row, hop, _, hfound, hitem⟩
        rw [← Except.ok.inj hop, hrow, Option.some.injEq] at hfound
        rw [← hfound, hold] at hitem
        cases hitem
    obtain ⟨d', hdone, _, happlied, hstored⟩ := (hdatabase d rfl ops).applied hvalid hreadable hfine
      (by decide +kernel)
    exact ⟨d', hdone, hstored new _ _ List.mem_cons_self hkey (hback _),
      happlied.deleted _ _ (List.mem_cons_of_mem _ List.mem_cons_self)⟩

end TagStore
