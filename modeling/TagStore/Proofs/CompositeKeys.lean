import Mathlib.Logic.Function.Defs
import TagStore.Proofs.Registry
import TagStore.Version.Pointer

namespace TagStore

namespace Key

/-- A code and further parts, none of which holds a delimiter. -/
@[ext] structure Parts where
  code : String
  rest : List String
  plain : ∀ part ∈ code :: rest, hasDelimiter part = false

namespace Parts

def key (p : Parts) : String := join p.code p.rest

theorem split_key (p : Parts) : split p.key = p.code :: p.rest := by
  have hplain : ∀ part ∈ (p.code :: p.rest).map String.toList, delimiter ∉ part := by
    intro part hpart
    obtain ⟨s, hs, rfl⟩ := List.mem_map.mp hpart
    exact hasDelimiter_eq_false_iff.mp (p.plain s hs)
  have hsplit := List.splitOn_intercalate delimiter hplain (by simp)
  rw [key, join, split, String.toList_ofList, Text.splitAll_eq_splitOn, Text.joinAll_eq_intercalate,
    ← List.map_cons, hsplit]
  simp

/-- A text is the key of the parts that it splits into. -/
theorem exists_of_key (key : String) : ∃ p : Parts, split key = p.code :: p.rest ∧ p.key = key := by
  obtain ⟨code, rest, hsplit⟩ : ∃ code rest, Text.splitAll delimiter key.toList = code :: rest := by
    rw [Text.splitAll_eq_splitOn]
    exact List.exists_cons_of_ne_nil (List.splitOn_ne_nil _ _)
  have hplain : ∀ part ∈ (code :: rest).map String.ofList, hasDelimiter part = false := by
    intro part hpart
    obtain ⟨cs, hcs, rfl⟩ := List.mem_map.mp hpart
    rw [hasDelimiter_eq_false_iff, String.toList_ofList]
    exact Text.not_mem_of_mem_splitAll (hsplit ▸ hcs)
  refine ⟨⟨String.ofList code, rest.map String.ofList, hplain⟩, by simp [split, hsplit], ?_⟩
  have hjoin : Text.joinAll delimiter code rest = key.toList := by
    rw [Text.joinAll_eq_intercalate, ← hsplit, Text.splitAll_eq_splitOn, List.intercalate_splitOn]
  simp [Parts.key, join, Function.comp_def, hjoin]

end Parts

/-- What was joined splits into its parts again, and what was split is joined to itself: each text is the
key of exactly one list of parts. -/
theorem split_join_inverse :
    (∀ p : Parts, split p.key = p.code :: p.rest) ∧
      (∀ key, ∃ p : Parts, split key = p.code :: p.rest ∧ p.key = key) ∧
      Function.Bijective Parts.key := by
  refine ⟨Parts.split_key, Parts.exists_of_key, ?_, ?_⟩
  · intro p q h
    have hparts : p.code :: p.rest = q.code :: q.rest := by
      rw [← p.split_key, ← q.split_key, h]
    exact Parts.ext (List.cons.inj hparts).1 (List.cons.inj hparts).2
  · intro key
    obtain ⟨p, _, hp⟩ := Parts.exists_of_key key
    exact ⟨p, hp⟩

/-- Empty parts count. -/
example : split ":a::" = ["", "a", "", ""] := by decide

end Key

/-- A code under which a type can be registered. -/
@[ext] structure TypeCode where
  text : String
  accepted : ∃ t : ResourceType, t.check = .ok () ∧ t.code = text

namespace TypeCode

theorem plain (c : TypeCode) : Key.hasDelimiter c.text = false := by
  obtain ⟨t, hcheck, hcode⟩ := c.accepted
  exact hcode ▸ ResourceType.not_hasDelimiter_of_isCode (ResourceType.check_spec hcheck).1

theorem ne_tagCode (c : TypeCode) : c.text ≠ Key.tagCode := by
  obtain ⟨t, hcheck, hcode⟩ := c.accepted
  intro h
  have hinternal := (ResourceType.check_spec hcheck).2.1
  exact hinternal (by simp [hcode, h, ResourceType.internalCodes])

end TypeCode

/-- What a resource's partition has room for. -/
inductive Occupant where
  | canonical
  | tag (name : String)
  /-- The pointer to the newest child of a type. -/
  | pointer (child : TypeCode)

/-- The sort key under which the partition of a resource holds it. -/
def Occupant.sort (code id : String) : Occupant → String
  | canonical => Key.resource code id
  | tag name => Key.tagSort name
  | pointer child => Key.pointerSort child.text

/-- No two of them have one sort key, unless the resource has the id that is kept for pointers. -/
theorem Occupant.sort_injective (code : TypeCode) {id : String} (hid : id ≠ Key.latestMark) :
    Function.Injective (sort code.text id) := by
  intro o o' h
  -- All of these keys are a code and an id, so that equal ones agree in both.
  have htag : Key.hasDelimiter Key.tagCode = false := by decide
  cases o with
  | canonical =>
    cases o' with
    | canonical => rfl
    | tag name => exact absurd (Key.resource_inj code.plain htag h).1 code.ne_tagCode
    | pointer child => exact absurd (Key.resource_inj code.plain child.plain h).2 hid
  | tag name =>
    cases o' with
    | canonical => exact absurd (Key.resource_inj htag code.plain h).1.symm code.ne_tagCode
    | tag name' => rw [Key.tagSort_inj.mp h]
    | pointer child => exact absurd (Key.resource_inj htag child.plain h).1.symm child.ne_tagCode
  | pointer child =>
    cases o' with
    | canonical => exact absurd (Key.resource_inj child.plain code.plain h).2.symm hid
    | tag name => exact absurd (Key.resource_inj child.plain htag h).1 child.ne_tagCode
    | pointer child' => rw [TypeCode.ext (Key.resource_inj child.plain child'.plain h).1]

namespace TypeCode

theorem resource_inj {t u : TypeCode} {id id' : String} :
    Key.resource t.text id = Key.resource u.text id' ↔ t = u ∧ id = id' := by
  constructor
  · intro h
    obtain ⟨htext, hid⟩ := Key.resource_inj t.plain u.plain h
    exact ⟨TypeCode.ext htext, hid⟩
  · intro h
    rw [h.1, h.2]

theorem beginsWith_stem {t u : TypeCode} {id : String} :
    Text.beginsWith (Key.resource u.text id) (Key.stem t.text) = true ↔ t = u := by
  rw [Key.beginsWith_stem_iff]
  constructor
  · intro h
    obtain ⟨id', hid'⟩ := h
    exact (resource_inj.mp hid').1.symm
  · intro h
    exact ⟨id, by rw [h]⟩

/-- The keys of resources tell codes and ids apart and are ordered like the ids, the keys of the index of
tags tell names and values apart, and the sort keys in a partition tell apart what it has room for. -/
theorem keys_apart (t u : TypeCode) :
    (∀ id id', Key.resource t.text id = Key.resource u.text id' ↔ t = u ∧ id = id') ∧
      (∀ id, Key.id? (Key.resource t.text id) = some id) ∧
      (∀ id, Text.beginsWith (Key.resource u.text id) (Key.stem t.text) = true ↔ t = u) ∧
      (∀ id id', compare (Key.resource t.text id) (Key.resource t.text id') = compare id id') ∧
      (∀ name name' value value', Key.hasDelimiter name = false → Key.hasDelimiter name' = false →
        (Key.tagIndex name value = Key.tagIndex name' value' ↔ name = name' ∧ value = value')) ∧
      ∀ id, id ≠ Key.latestMark → Function.Injective (Occupant.sort t.text id) := by
  refine ⟨fun _ _ => resource_inj, Key.id?_resource t.plain, fun _ => beginsWith_stem,
    Key.compare_resource t.text, ?_, fun _ hid => Occupant.sort_injective t hid⟩
  intro name name' value value' hname hname'
  constructor
  · exact Key.tagIndex_inj hname hname'
  · intro h
    rw [h.1, h.2]

def polygon : TypeCode := ⟨"p", Catalog.polygon, rfl, rfl⟩

def state : TypeCode := ⟨"s", Catalog.state, rfl, rfl⟩

/-- Ids and values may look like keys themselves. -/
theorem keys_apart_lookalikes :
    polygon ≠ state ∧ Key.resource polygon.text "s:1" ≠ Key.resource state.text "s:1" ∧
      (Key.hasDelimiter "a" = false ∧ Key.tagIndex "a" "b:tv:c" ≠ Key.tagIndex "a" "c") ∧
      "tk:a" ≠ Key.latestMark ∧
      Occupant.canonical.sort polygon.text "tk:a" ≠ (Occupant.tag "a").sort polygon.text "tk:a" := by
  obtain ⟨hresource, _, _, _, htag, hsort⟩ := keys_apart polygon state
  have hne : polygon ≠ state := fun h => absurd (congrArg TypeCode.text h) (by simp [polygon, state])
  have hid : "tk:a" ≠ Key.latestMark := by simp [Key.latestMark]
  refine ⟨hne, fun h => hne ((hresource _ _).mp h).1, ⟨by decide, fun h => ?_⟩, hid, fun h => ?_⟩
  · have hvalue := ((htag "a" "a" _ _ (by decide) (by decide)).mp h).2
    simp at hvalue
  · exact Occupant.noConfusion (hsort _ hid h)

end TypeCode

end TagStore
