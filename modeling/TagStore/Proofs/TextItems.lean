import TagStore.Item.Basic
import TagStore.Json.Reader
import TagStore.Proofs.ListingTokens
import TagStore.Proofs.Lookup

namespace TagStore

namespace Json

/-- A field that holds a text. -/
def textField (f : String × String) : String × Json := (f.1, .string f.2)

/-- The tokens of some fields, with commas between them. -/
def textTokens : List (String × String) → List Token
  | [] => []
  | [f] => [.string (pieces f.1), .colon, .string (pieces f.2)]
  | f :: fields => .string (pieces f.1) :: .colon :: .string (pieces f.2) :: .comma :: textTokens fields

theorem scan_textFields (fields : List (String × String)) (out : List Token) (rest : List UInt8) :
    scan .between out
        (Utf8.encode (String.intercalate "," (compactFields (fields.map textField))) ++ rest) =
      scan .between ((textTokens fields).reverse ++ out) rest := by
  induction fields generalizing out with
  | nil => rfl
  | cons f fields ih =>
    cases fields with
    | nil =>
      simp only [List.map_cons, List.map_nil, textField, compactFields, compact,
        String.intercalate_singleton, Utf8.encode_append, List.append_assoc, scan_quoted, scan_colon]
      rfl
    | cons g fields =>
      have ih := ih (.comma :: .string (pieces f.2) :: .colon :: .string (pieces f.1) :: out)
      simp only [List.map_cons, textField, compactFields, compact, String.intercalate_cons_cons,
        Utf8.encode_append, List.append_assoc, scan_quoted, scan_colon, scan_comma] at ih ⊢
      rw [ih]
      simp [textTokens]

/-- What is built of the fields of an object, from where a key may come. -/
theorem build_textTokens {fields : List (String × String)} (hfields : fields ≠ [])
    (done : List (List Piece × Tree)) :
    build [] (.key done) (textTokens fields ++ [.closeObject]) =
      some (.object (done.reverse ++ fields.map fun f => (pieces f.1, textTree f.2))) := by
  induction fields generalizing done with
  | nil => exact absurd rfl hfields
  | cons f fields ih =>
    cases fields with
    | nil => simp [textTokens, build, advance, textTree]
    | cons g fields =>
      change build [] (.key ((pieces f.1, textTree f.2) :: done))
        (textTokens (g :: fields) ++ [.closeObject]) = _
      rw [ih (by simp)]
      simp

theorem tree?_textFields (fields : List (String × String)) :
    tree? (Utf8.encode (compact (.object (fields.map textField)))) =
      some (objectTree (fields.map fun f => (f.1, textTree f.2))) := by
  have htokens : tokens? (Utf8.encode (compact (.object (fields.map textField)))) =
      some (.openObject :: (textTokens fields ++ [.closeObject])) := by
    rw [tokens?, ← List.append_nil (Utf8.encode _)]
    simp only [compact, Utf8.encode_append, List.append_assoc, scan_openObject, scan_textFields,
      scan_closeObject]
    simp [scan]
  rw [tree?, htokens]
  change build [] .field (textTokens fields ++ [.closeObject]) = _
  cases fields with
  | nil => rfl
  | cons f fields =>
    have hkey : build [] .field (textTokens (f :: fields) ++ [.closeObject]) =
        build [] (.key []) (textTokens (f :: fields) ++ [.closeObject]) := by
      cases fields <;> rfl
    rw [hkey, build_textTokens (by simp)]
    simp [objectTree]

theorem fields?_textFields (room : Nat) (fields : List (String × String)) :
    Tree.fields? room (fields.map fun f => (pieces f.1, textTree f.2)) = some (fields.map textField) := by
  induction fields with
  | nil => rfl
  | cons f fields ih =>
    rw [List.map_cons, Tree.fields?, pieceText?_pieces, textTree, Tree.value?, pieceText?_pieces, ih]
    rfl

end Json

/-- An item with texts for attributes. -/
def Item.ofTexts (fields : List (String × String)) : Item := .ofList (fields.map Json.textField)

namespace Item
variable {item : Item}

theorem ofTexts_texts (fields : List (String × String)) :
    ∀ e ∈ (ofTexts fields).entries, ∃ s, e.2 = .string s := by
  intro e he
  obtain ⟨f, _, rfl⟩ := List.mem_map.mp (SortedMap.mem_of_mem_ofList he)
  exact ⟨f.2, rfl⟩

/-- The JSON text of an item whose attributes are all texts parses back to it. -/
theorem read?_compact_of_texts (h : ∀ e ∈ item.entries, ∃ s, e.2 = .string s) :
    Json.read? (Json.ofMap item).compact = some (Json.ofMap item) := by
  let fields : List (String × String) := item.entries.map fun e => (e.1, e.2.string?.getD "")
  have hentries : fields.map Json.textField = item.entries := by
    conv => rhs; rw [← List.map_id item.entries]
    rw [List.map_map]
    apply List.map_congr_left
    intro e he
    obtain ⟨s, hs⟩ := h e he
    simp [Json.textField, hs, Json.string?, Prod.ext_iff]
  have htree := Json.tree?_textFields fields
  have hfields := Json.fields?_textFields (Json.maxDepth - 1) fields
  rw [hentries] at htree hfields
  rw [Json.read?, Json.readOctets?, Json.ofMap, htree]
  change Json.Tree.value? Json.maxDepth (.object ((fields.map fun f => (f.1, Json.textTree f.2)).map
    fun f => (Json.pieces f.1, f.2))) = _
  rw [List.map_map, Json.Tree.value?, if_neg (by decide)]
  simp only [Function.comp_def, hfields, Option.map_some]
  exact congrArg (fun m : Item => some (Json.object m.entries)) (SortedMap.ofList_entries item)

end Item

end TagStore
