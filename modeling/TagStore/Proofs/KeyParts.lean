import TagStore.Key

namespace TagStore

namespace Text

theorem compare_eq_lt_iff {a b : String} : compare a b = .lt ↔ a < b := by
  change compareOfLessAndEq a b = .lt ↔ a < b
  unfold compareOfLessAndEq
  by_cases h : a < b
  · simp [h]
  · by_cases he : a = b <;> simp [h, he]

theorem compare_eq_gt_iff {a b : String} : compare a b = .gt ↔ b < a := by
  rw [Std.OrientedCmp.gt_iff_lt, compare_eq_lt_iff]

theorem lt_or_eq_or_gt (a b : String) : a < b ∨ a = b ∨ b < a := by
  cases h : compare a b with
  | lt => exact .inl (compare_eq_lt_iff.mp h)
  | eq => exact .inr (.inl (Std.LawfulEqCmp.compare_eq_iff_eq.mp h))
  | gt => exact .inr (.inr (compare_eq_gt_iff.mp h))

/-- A common beginning does not change the order of texts. -/
theorem append_lt_append_iff {p a b : String} : p ++ a < p ++ b ↔ a < b := by
  simp only [String.lt_iff, String.toList_append]
  induction p.toList with
  | nil => rfl
  | cons c cs ih => rw [List.cons_append, List.cons_append, List.cons_lt_cons_self, ih]

theorem beginsWith_iff {s stem : String} : beginsWith s stem = true ↔ ∃ rest, s = stem ++ rest := by
  rw [beginsWith, List.isPrefixOf_iff_prefix]
  constructor
  · rintro ⟨cs, h⟩
    exact ⟨String.ofList cs, String.toList_inj.mp (by simp [h])⟩
  · rintro ⟨rest, rfl⟩
    exact ⟨rest.toList, by simp⟩

@[simp] theorem beginsWith_empty (s : String) : beginsWith s "" = true := by simp [beginsWith]

theorem splitFirst_append {d : Char} {a : List Char} (h : d ∉ a) (b : List Char) :
    splitFirst d (a ++ d :: b) = some (a, b) := by
  induction a with
  | nil => simp [splitFirst]
  | cons c a ih =>
    have hc : c ≠ d := fun he => h (he ▸ List.mem_cons_self)
    simp [splitFirst, hc, ih fun hm => h (List.mem_cons_of_mem _ hm)]

theorem splitFirst_eq_none {d : Char} {cs : List Char} (h : d ∉ cs) : splitFirst d cs = none := by
  induction cs with
  | nil => rfl
  | cons c cs ih =>
    rw [List.mem_cons, not_or] at h
    simp [splitFirst, Ne.symm h.1, ih h.2]

theorem isSome_splitFirst {d : Char} {cs : List Char} (h : d ∈ cs) : (splitFirst d cs).isSome = true := by
  obtain ⟨a, b, rfl, hnot⟩ := List.eq_append_cons_of_mem h
  rw [splitFirst_append hnot, Option.isSome_some]

/-- A text is split at its first separator in one way. -/
theorem eq_of_split {d : Char} {a a' b b' : List Char} (h : d ∉ a) (h' : d ∉ a')
    (he : a ++ d :: b = a' ++ d :: b') : a = a' ∧ b = b' := by
  have hsplit := congrArg (splitFirst d) he
  simpa [splitFirst_append h, splitFirst_append h'] using hsplit

theorem splitAll_eq_splitOn (d : Char) (cs : List Char) : splitAll d cs = cs.splitOn d := by
  induction cs with
  | nil => rfl
  | cons c cs ih =>
    obtain ⟨part, rest, h⟩ := List.exists_cons_of_ne_nil (List.splitOn_ne_nil d cs)
    simp [splitAll, ih, h, List.splitOn_cons_eq_if_modifyHead]

theorem joinAll_eq_intercalate (d : Char) (part : List Char) (rest : List (List Char)) :
    joinAll d part rest = [d].intercalate (part :: rest) := by
  induction rest generalizing part with
  | nil => simp [joinAll]
  | cons next rest ih => simp [joinAll, ih]

/-- No part holds the separator. -/
theorem not_mem_of_mem_splitAll {d : Char} {part cs : List Char} (h : part ∈ splitAll d cs) :
    d ∉ part := by
  induction cs generalizing part with
  | nil => simp_all [splitAll]
  | cons c cs ih =>
    obtain ⟨first, rest, hsplit⟩ := List.exists_cons_of_ne_nil (List.splitOn_ne_nil d cs)
    rw [← splitAll_eq_splitOn] at hsplit
    rw [hsplit] at ih
    simp only [splitAll, hsplit] at h
    by_cases hc : c = d
    · simp only [hc, if_true, List.mem_cons] at h
      rcases h with rfl | h
      · simp
      · exact ih (List.mem_cons.mpr h)
    · simp only [hc, if_false, List.mem_cons] at h
      rcases h with rfl | h
      · simpa [Ne.symm hc] using ih List.mem_cons_self
      · exact ih (List.mem_cons_of_mem _ h)

end Text

namespace Key

theorem hasDelimiter_eq_false_iff {s : String} :
    hasDelimiter s = false ↔ delimiter ∉ s.toList := by simp [hasDelimiter]

theorem toList_resource (code id : String) :
    (resource code id).toList = code.toList ++ delimiter :: id.toList := by
  simp [resource, join, Text.joinAll]

theorem resource_eq_append (code id : String) : resource code id = stem code ++ id := by
  apply String.toList_inj.mp
  simp [resource, stem, join, Text.joinAll]

theorem id?_resource {code : String} (h : hasDelimiter code = false) (id : String) :
    id? (resource code id) = some id := by
  rw [id?, toList_resource, Text.splitFirst_append (hasDelimiter_eq_false_iff.mp h)]
  simp

theorem isSome_id?_resource (code id : String) : (id? (resource code id)).isSome = true := by
  have hmem : delimiter ∈ (resource code id).toList := by
    rw [toList_resource]
    exact List.mem_append_right _ List.mem_cons_self
  rw [id?, Option.isSome_map]
  exact Text.isSome_splitFirst hmem

/-- A key without a delimiter in its code determines its code and its id. -/
theorem resource_inj {code code' id id' : String} (h : hasDelimiter code = false)
    (h' : hasDelimiter code' = false) (he : resource code id = resource code' id') :
    code = code' ∧ id = id' := by
  have hl := congrArg (fun k : String => Text.splitFirst delimiter k.toList) he
  simp only [toList_resource, Text.splitFirst_append (hasDelimiter_eq_false_iff.mp h),
    Text.splitFirst_append (hasDelimiter_eq_false_iff.mp h'), Option.some.injEq, Prod.mk.injEq,
    String.toList_inj] at hl
  exact hl

/-- So does one without delimiters but the one after its code. -/
theorem resource_inj_of_plain {code code' id id' : String} (h' : hasDelimiter code' = false)
    (hid' : hasDelimiter id' = false) (he : resource code id = resource code' id') :
    code = code' ∧ id = id' := by
  refine resource_inj (hasDelimiter_eq_false_iff.mpr fun hm => ?_) h' he
  have hl := congrArg String.toList he
  rw [toList_resource, toList_resource] at hl
  have hcount := congrArg (List.count delimiter) hl
  rw [hasDelimiter_eq_false_iff] at h' hid'
  simp only [List.count_append, List.count_cons_self, List.count_eq_zero_of_not_mem h',
    List.count_eq_zero_of_not_mem hid'] at hcount
  have hpos := List.count_pos_iff.mpr hm
  omega

theorem resource_right_inj {code id id' : String} : resource code id = resource code id' ↔ id = id' := by
  constructor
  · intro h
    have hl := congrArg String.toList h
    simp only [toList_resource, List.append_cancel_left_eq, List.cons.injEq, true_and,
      String.toList_inj] at hl
    exact hl
  · rintro rfl
    rfl

theorem resource_lt_resource_iff {code a b : String} :
    resource code a < resource code b ↔ a < b := by
  rw [resource_eq_append, resource_eq_append, Text.append_lt_append_iff]

/-- Under one code keys are ordered like ids. -/
theorem compare_resource (code a b : String) :
    compare (resource code a) (resource code b) = compare a b := by
  cases h : compare a b with
  | lt => exact Text.compare_eq_lt_iff.mpr (resource_lt_resource_iff.mpr (Text.compare_eq_lt_iff.mp h))
  | gt => exact Text.compare_eq_gt_iff.mpr (resource_lt_resource_iff.mpr (Text.compare_eq_gt_iff.mp h))
  | eq => simp [Std.LawfulEqCmp.compare_eq_iff_eq.mp h]

theorem beginsWith_stem_iff {code key : String} :
    Text.beginsWith key (stem code) = true ↔ ∃ id, key = resource code id := by
  simp only [Text.beginsWith_iff, resource_eq_append]

theorem tagSort_eq_resource (name : String) : tagSort name = resource tagCode name := rfl

theorem tagSort_inj {a b : String} : tagSort a = tagSort b ↔ a = b := resource_right_inj

theorem tagIndex_eq_resource (name value : String) :
    tagIndex name value = resource tagCode (resource name (resource tagMark value)) := by
  apply String.toList_inj.mp
  simp [tagIndex, resource, join, Text.joinAll]

/-- The index key of a tag determines the tag, whatever its value holds. -/
theorem tagIndex_inj {name name' value value' : String} (h : hasDelimiter name = false)
    (h' : hasDelimiter name' = false) (he : tagIndex name value = tagIndex name' value') :
    name = name' ∧ value = value' := by
  simp only [tagIndex_eq_resource, resource_right_inj] at he
  obtain ⟨hn, hv⟩ := resource_inj h h' he
  exact ⟨hn, resource_right_inj.mp hv⟩

/-- Of two tags with one index key, the one that is named without a delimiter has the lesser name. -/
theorem not_tagSort_lt {name name' value value' : String} (h : hasDelimiter name = false)
    (he : tagIndex name value = tagIndex name' value') : ¬ tagSort name' < tagSort name := by
  simp only [tagIndex_eq_resource, resource_right_inj] at he
  have hl := congrArg String.toList he
  simp only [toList_resource] at hl
  obtain ⟨rest, hrest⟩ : ∃ rest, name'.toList = name.toList ++ rest := by
    rcases List.append_eq_append_iff.mp hl with ⟨rest, hr, _⟩ | ⟨rest, hr, hd⟩
    · exact ⟨rest, hr⟩
    · cases rest with
      | nil => exact ⟨[], by simpa using hr.symm⟩
      | cons d rest =>
        obtain rfl : delimiter = d := (List.cons.inj hd).1
        exact absurd (by simp [hr]) (hasDelimiter_eq_false_iff.mp h)
  obtain rfl : name' = name ++ String.ofList rest := String.toList_inj.mp (by simp [hrest])
  rw [tagSort_eq_resource, tagSort_eq_resource, resource_lt_resource_iff]
  have hempty : ¬ name ++ String.ofList rest < name ++ "" := by
    rw [Text.append_lt_append_iff, String.lt_iff]
    exact List.not_lt_nil _
  simpa using hempty

theorem hasDelimiter_append (a b : String) :
    hasDelimiter (a ++ b) = (hasDelimiter a || hasDelimiter b) := by
  simp [hasDelimiter]

theorem hasDelimiter_reserved (field : String) :
    hasDelimiter (reserved field) = hasDelimiter field := by
  rw [reserved, hasDelimiter_append]
  rfl

theorem reserved_inj {a b : String} : reserved a = reserved b ↔ a = b := by
  constructor
  · intro h
    have hl := congrArg String.toList h
    simp only [reserved, String.toList_append, List.append_cancel_left_eq, String.toList_inj] at hl
    exact hl
  · rintro rfl
    rfl

theorem isReserved_iff {name : String} : isReserved name = true ↔ ∃ field, name = reserved field :=
  Text.beginsWith_iff

theorem isReserved_reserved (field : String) : isReserved (reserved field) = true :=
  isReserved_iff.mpr ⟨field, rfl⟩

/-- The name of the tag of newest children is kept like that of a field `isLatest`. -/
theorem isReserved_latestTag : isReserved latestTag = true := by decide

end Key

end TagStore
