import TagStore.Listing.Token
import TagStore.Proofs.QuotedText

namespace TagStore

namespace Json

def textTree (s : String) : Tree := .string (pieces s)

theorem text?_textTree (s : String) : (textTree s).text? = some s := pieceText?_pieces s

/-- An object with some trees under their names. -/
def objectTree (fields : List (String × Tree)) : Tree :=
  .object (fields.map fun f => (pieces f.1, f.2))

theorem named?_pieces (fields : List (String × Tree)) :
    Tree.named? (fields.map fun f => (pieces f.1, f.2)) = some fields := by
  induction fields with
  | nil => rfl
  | cons f fields ih =>
    rw [List.map_cons, Tree.named?, pieceText?_pieces, ih]
    rfl

theorem members?_objectTree (names : List String) (fields : List (String × Tree)) :
    Tree.members? names (objectTree fields) = names.mapM fun name => Tree.single? name fields := by
  rw [objectTree, Tree.members?, named?_pieces]
  rfl

section
variable (out : List Token) (rest : List UInt8)

theorem scan_openObject :
    scan .between out (Utf8.encode "\x7b" ++ rest) = scan .between (.openObject :: out) rest := rfl

theorem scan_closeObject :
    scan .between out (Utf8.encode "\x7d" ++ rest) = scan .between (.closeObject :: out) rest := rfl

theorem scan_colon :
    scan .between out (Utf8.encode ":" ++ rest) = scan .between (.colon :: out) rest := rfl

theorem scan_comma :
    scan .between out (Utf8.encode "," ++ rest) = scan .between (.comma :: out) rest := rfl

end

/-- An object with two texts, from between two tokens. -/
theorem scan_textPair (k s l t : String) (out : List Token) (rest : List UInt8) :
    scan .between out (Utf8.encode (compact (.object [(k, .string s), (l, .string t)])) ++ rest) =
      scan .between (.closeObject :: .string (pieces t) :: .colon :: .string (pieces l) :: .comma ::
        .string (pieces s) :: .colon :: .string (pieces k) :: .openObject :: out) rest := by
  have htext : compact (.object [(k, .string s), (l, .string t)]) =
      "\x7b" ++ (quoted k ++ ":" ++ quoted s ++ "," ++ (quoted l ++ ":" ++ quoted t)) ++ "\x7d" := by
    simp only [compact]
    rfl
  simp only [htext, Utf8.encode_append, List.append_assoc, scan_openObject, scan_quoted, scan_colon,
    scan_comma, scan_closeObject]

end Json

namespace StartKey

/-- The tree of a start key's document. -/
def tree (s : StartKey) : Json.Tree :=
  Json.objectTree ([("pk", Json.textTree s.partition), ("sk", Json.textTree s.sort)] ++
    (s.index.map fun p => ("index",
      Json.objectTree [("hash", Json.textTree p.hash), ("range", Json.textTree p.range)])).toList)

theorem tree?_json (s : StartKey) : Json.tree? (Utf8.encode s.json.compact) = some s.tree := by
  obtain ⟨partition, sort, index⟩ := s
  cases index with
  | none =>
    have hscan := Json.scan_textPair "pk" partition "sk" sort [] []
    rw [List.append_nil] at hscan
    have htokens : Json.tokens? (Utf8.encode (json ⟨partition, sort, none⟩).compact) = _ := hscan
    rw [Json.tree?, htokens]
    rfl
  | some p =>
    have htext : (json ⟨partition, sort, some p⟩).compact =
        "\x7b" ++ (Json.quoted "pk" ++ ":" ++ Json.quoted partition ++ "," ++ (Json.quoted "sk" ++ ":" ++
          Json.quoted sort) ++ "," ++ (Json.quoted "index" ++ ":" ++ p.json.compact)) ++ "\x7d" := by
      simp only [json, Json.compact]
      rfl
    rw [Json.tree?, Json.tokens?, htext, ← List.append_nil (Utf8.encode _)]
    simp only [Utf8.encode_append, List.append_assoc, Json.scan_openObject, Json.scan_quoted,
      Json.scan_colon, Json.scan_comma, IndexPosition.json, Json.scan_textPair, Json.scan_closeObject]
    rfl

theorem startKey?_tree (s : StartKey) : s.tree.startKey? = some s := by
  obtain ⟨partition, sort, index⟩ := s
  cases index with
  | none =>
    rw [tree, Json.Tree.startKey?, Json.members?_objectTree]
    simp +decide [Json.Tree.single?, Json.text?_textTree]
  | some p =>
    have hindex : (Json.objectTree [("hash", Json.textTree p.hash),
        ("range", Json.textTree p.range)]).indexPosition? = some p := by
      rw [Json.Tree.indexPosition?, Json.members?_objectTree]
      simp +decide [Json.Tree.single?, Json.text?_textTree]
    rw [tree, Json.Tree.startKey?, Json.members?_objectTree]
    simp +decide [Json.Tree.single?, Json.text?_textTree]
    change ((Json.objectTree _).indexPosition?.map some).bind _ = _
    rw [hindex]
    rfl

end StartKey

/-- A token that was written reads back as the start key it was written for. -/
theorem Listing.readToken_token (s : StartKey) : readToken (token s) = .ok s := by
  rw [readToken, token, String.toList_ofList, Base64Url.decode_encode]
  simp only [bind, Option.bind_some, s.tree?_json, s.startKey?_tree]

/-- Every start key has a token of its own, which is written in the alphabet that is safe in URLs and reads
back as the start key. -/
theorem Listing.token_roundTrip :
    (∀ s, (∀ c ∈ (token s).toList, c ∈ Base64Url.alphabet) ∧ readToken (token s) = .ok s) ∧
      Function.Injective token := by
  refine ⟨fun s => ⟨?_, readToken_token s⟩, fun s s' h => ?_⟩
  · rw [token, String.toList_ofList]
    exact Base64Url.mem_alphabet_of_mem_encode
  · have hread := readToken_token s
    rw [h, readToken_token s', Except.ok.injEq] at hread
    exact hread.symm

end TagStore
