import TagStore.Proofs.TextItems

namespace TagStore

namespace Json

/-- Whether a text is made of the octets that words and numerals are made of. -/
def IsWord (s : String) : Prop := ∀ b ∈ Utf8.encode s, isWordOctet b = true

theorem IsWord.append {s t : String} (hs : IsWord s) (ht : IsWord t) : IsWord (s ++ t) := by
  intro b hb
  rw [Utf8.encode_append] at hb
  exact (List.mem_append.mp hb).elim (hs b) (ht b)

instance (s : String) : Decidable (IsWord s) :=
  inferInstanceAs (Decidable (∀ b ∈ Utf8.encode s, isWordOctet b = true))

theorem isWordOctet_digit : ∀ n < 10, ∀ b ∈ String.utf8EncodeChar (Char.ofNat (48 + n)),
    isWordOctet b = true := by
  decide +kernel

theorem exists_of_isDigit {c : Char} (h : c.isDigit = true) : ∃ n < 10, c = Char.ofNat (48 + n) := by
  have hrange : 48 ≤ c.toNat ∧ c.toNat ≤ 57 := by
    simpa [Char.isDigit, UInt32.le_iff_toNat_le] using h
  refine ⟨c.toNat - 48, by omega, ?_⟩
  rw [Nat.add_sub_cancel' hrange.1, Char.ofNat_toNat]

theorem isWord_of_digits {cs : List Char} (h : ∀ c ∈ cs, c.isDigit = true) : IsWord (String.ofList cs) := by
  intro b hb
  rw [Utf8.encode, String.toList_ofList] at hb
  obtain ⟨c, hc, hb⟩ := List.mem_flatMap.mp hb
  obtain ⟨n, hn, rfl⟩ := exists_of_isDigit (h c hc)
  exact isWordOctet_digit n hn b hb

theorem isDigit_toDigits (n : Nat) : ∀ c ∈ Nat.toDigits 10 n, c.isDigit = true := fun _ hc =>
  Nat.isDigit_of_mem_toDigits (by decide) (by decide) hc

theorem isWord_repr (n : Nat) : IsWord n.repr := isWord_of_digits (isDigit_toDigits n)

theorem isWord_zeros (n : Nat) : IsWord (Decimal.zeros n) :=
  isWord_of_digits fun c hc => List.eq_of_mem_replicate hc ▸ by decide

theorem isWord_decimal (d : Decimal) : IsWord d.text := by
  have hdigits := isDigit_toDigits d.digits
  have htake : ∀ n, IsWord (String.ofList ((Nat.toDigits 10 d.digits).take n)) := fun n =>
    isWord_of_digits fun c hc => hdigits c (List.mem_of_mem_take hc)
  have hdrop : ∀ n, IsWord (String.ofList ((Nat.toDigits 10 d.digits).drop n)) := fun n =>
    isWord_of_digits fun c hc => hdigits c (List.mem_of_mem_drop hc)
  have hpoint : IsWord "." := by decide +kernel
  simp only [Decimal.text]
  split
  · exact ((isWord_of_digits hdigits).append (isWord_zeros _)).append (by decide +kernel)
  split
  · exact ((htake _).append hpoint).append (hdrop _)
  split
  · exact (IsWord.append (by decide +kernel) (isWord_zeros _)).append (isWord_of_digits hdigits)
  · refine ((((htake 1).append ?_).append (by decide +kernel)).append ?_).append (isWord_repr _)
    · split
      · exact List.forall_mem_nil _
      · exact hpoint.append (hdrop 1)
    · split <;> decide +kernel

theorem isWord_number (n : Number) : IsWord n.text := by
  cases n with
  | int n =>
    rw [Number.text, Int.toString_eq_repr, Int.repr_eq_if]
    split
    · exact isWord_repr _
    · exact IsWord.append (by decide +kernel) (isWord_repr _)
  | float x =>
    refine IsWord.append ?_ (isWord_decimal _)
    split <;> decide +kernel

theorem encode_ne_nil {s : String} (h : s ≠ "") : Utf8.encode s ≠ [] := by
  intro hnil
  have hdecode := Utf8.decode_encode s
  rw [hnil] at hdecode
  exact h (Except.ok.inj hdecode).symm

theorem decimal_ne_empty (d : Decimal) : d.text ≠ "" := by
  have hne : ∀ {s t u : String}, t ≠ "" → s ++ t ++ u ≠ "" := by
    intro s t u ht h
    exact ht (String.append_eq_empty_iff.mp (String.append_eq_empty_iff.mp h).1).2
  simp only [Decimal.text]
  split
  · exact fun h => absurd (String.append_eq_empty_iff.mp h).2 (by decide)
  split
  · exact hne (by decide)
  split
  · rw [String.append_assoc]
    exact fun h => absurd (String.append_eq_empty_iff.mp h).1 (by decide)
  · exact fun h => Nat.repr_ne_empty (String.append_eq_empty_iff.mp h).2

theorem number_ne_empty (n : Number) : n.text ≠ "" := by
  cases n with
  | int n =>
    rw [Number.text, Int.toString_eq_repr, Int.repr_eq_if]
    split
    · exact Nat.repr_ne_empty
    · exact fun h => absurd (String.append_eq_empty_iff.mp h).1 (by decide)
  | float x => exact fun h => decimal_ne_empty _ (String.append_eq_empty_iff.mp h).2

/-- The token of a word. -/
def wordToken (s : String) : Token := (wordToken? (Utf8.encode s)).getD .null

/-- Whether a word that stands before some octets ends there. -/
def EndsWord (rest : List UInt8) : Prop := ∀ b ∈ rest.head?, isWordOctet b = false

theorem scan_word_read {octets : List UInt8} (h : ∀ b ∈ octets, isWordOctet b = true) (read : List UInt8)
    (out : List Token) (rest : List UInt8) :
    scan (.word read) out (octets ++ rest) = scan (.word (octets.reverse ++ read)) out rest := by
  induction octets generalizing read with
  | nil => rfl
  | cons b octets ih =>
    rw [List.cons_append, scan, step, if_pos (h b List.mem_cons_self)]
    dsimp only
    rw [ih fun b hb => h b (List.mem_cons_of_mem _ hb)]
    simp

theorem enter_word {b : UInt8} (h : isWordOctet b = true) (out : List Token) :
    enter b out = some (.word [b], out) := by
  have hne : ∀ c : UInt8, isWordOctet c = false → b ≠ c := by
    rintro c hc rfl
    rw [hc] at h
    cases h
  have hspace : isSpace b = false := by
    simp [isSpace, hne 32 (by decide), hne 10 (by decide), hne 13 (by decide), hne 9 (by decide)]
  simp [enter, hspace, hne 34 (by decide), h]

/-- Whether a text that ends where a word would end has some tokens, where it is scanned at all. -/
def Scans (s : String) (ts : List Token) : Prop := ∀ out rest all, EndsWord rest →
  scan .between out (Utf8.encode s ++ rest) = some all → scan .between (ts.reverse ++ out) rest = some all

theorem scans_word {s : String} (hs : IsWord s) (hne : Utf8.encode s ≠ []) : Scans s [wordToken s] := by
  intro out rest all hrest h
  obtain ⟨b, octets, hoctets⟩ := List.exists_cons_of_ne_nil hne
  rw [IsWord, hoctets, List.forall_mem_cons] at hs
  rw [hoctets, List.cons_append, scan, step, enter_word hs.1] at h
  dsimp only at h
  rw [scan_word_read hs.2] at h
  have hword : (octets.reverse ++ [b]).reverse = Utf8.encode s := by simp [hoctets]
  rw [List.reverse_singleton, List.singleton_append, wordToken]
  cases rest with
  | nil =>
    rw [scan, hword] at h
    obtain ⟨t, ht, hts⟩ := Option.map_eq_some_iff.mp h
    rw [ht, ← hts]
    rfl
  | cons c rest =>
    rw [scan, step, hrest c rfl, if_neg Bool.false_ne_true, hword] at h
    cases ht : wordToken? (Utf8.encode s) with
    | none =>
      rw [ht] at h
      cases h
    | some t =>
      rw [ht] at h
      rw [scan]
      exact h

theorem scans_quoted (s : String) : Scans (quoted s) [.string (pieces s)] := by
  intro out rest all _ h
  rw [scan_quoted] at h
  exact h

namespace Scans
variable {s s' : String} {ts ts' : List Token}

theorem nil : Scans "" [] := fun _ _ _ _ h => h

theorem comma (h : Scans s ts) (h' : Scans s' ts') : Scans (s ++ "," ++ s') (ts ++ .comma :: ts') := by
  intro out rest all hrest hscan
  rw [Utf8.encode_append, Utf8.encode_append, List.append_assoc, List.append_assoc] at hscan
  have hfirst := h _ _ _ (show EndsWord (Utf8.encode "," ++ _) by rintro b ⟨⟩; decide) hscan
  rw [scan_comma] at hfirst
  have hsecond := h' _ _ _ hrest hfirst
  simpa using hsecond

theorem field (k : String) (h : Scans s ts) :
    Scans (quoted k ++ ":" ++ s) (.string (pieces k) :: .colon :: ts) := by
  intro out rest all hrest hscan
  rw [Utf8.encode_append, Utf8.encode_append, List.append_assoc, List.append_assoc, scan_quoted,
    scan_colon] at hscan
  have hvalue := h _ _ _ hrest hscan
  simpa using hvalue

theorem array (h : Scans s ts) : Scans ("[" ++ s ++ "]") (.openArray :: (ts ++ [.closeArray])) := by
  intro out rest all _ hscan
  rw [Utf8.encode_append, Utf8.encode_append, List.append_assoc, List.append_assoc] at hscan
  have hopen : scan .between (.openArray :: out) (Utf8.encode s ++ (Utf8.encode "]" ++ rest)) = some all :=
    hscan
  have hinner := h _ _ _ (show EndsWord (Utf8.encode "]" ++ rest) by rintro b ⟨⟩; decide) hopen
  have hclose : scan .between (.closeArray :: (ts.reverse ++ .openArray :: out)) rest = some all := hinner
  simpa using hclose

theorem object (h : Scans s ts) :
    Scans ("\x7b" ++ s ++ "\x7d") (.openObject :: (ts ++ [.closeObject])) := by
  intro out rest all _ hscan
  rw [Utf8.encode_append, Utf8.encode_append, List.append_assoc, List.append_assoc, scan_openObject] at hscan
  have hinner := h _ _ _ (show EndsWord (Utf8.encode "\x7d" ++ rest) by rintro b ⟨⟩; decide) hscan
  rw [scan_closeObject] at hinner
  simpa using hinner

end Scans

mutual

/-- The tokens of a value's text. -/
def tokens : Json → List Token
  | .null => [wordToken "null"]
  | .bool b => [wordToken (if b then "true" else "false")]
  | .number n => [wordToken n.text]
  | .string s => [.string (pieces s)]
  | .array elements => .openArray :: (elementTokens elements ++ [.closeArray])
  | .object fields => .openObject :: (fieldTokens fields ++ [.closeObject])

/-- The tokens of values with commas between them. -/
def elementTokens : List Json → List Token
  | [] => []
  | [v] => tokens v
  | v :: w :: vs => tokens v ++ .comma :: elementTokens (w :: vs)

def fieldTokens : List (String × Json) → List Token
  | [] => []
  | [(k, v)] => .string (pieces k) :: .colon :: tokens v
  | (k, v) :: g :: fs => (.string (pieces k) :: .colon :: tokens v) ++ .comma :: fieldTokens (g :: fs)

end

mutual

theorem scans_compact : ∀ j : Json, Scans j.compact (tokens j)
  | .null => scans_word (by decide +kernel) (by decide)
  | .bool true => scans_word (by decide +kernel) (by decide)
  | .bool false => scans_word (by decide +kernel) (by decide)
  | .number n => scans_word (isWord_number n) (encode_ne_nil (number_ne_empty n))
  | .string s => scans_quoted s
  | .array elements => (scans_elements elements).array
  | .object fields => (scans_fields fields).object

theorem scans_elements : ∀ vs : List Json,
    Scans (String.intercalate "," (compactElements vs)) (elementTokens vs)
  | [] => .nil
  | [v] => by
    rw [compactElements, compactElements, String.intercalate_singleton]
    exact scans_compact v
  | v :: w :: vs => by
    have hrest := scans_elements (w :: vs)
    rw [compactElements] at hrest ⊢
    rw [compactElements, String.intercalate_cons_cons]
    exact (scans_compact v).comma hrest

theorem scans_fields : ∀ fs : List (String × Json),
    Scans (String.intercalate "," (compactFields fs)) (fieldTokens fs)
  | [] => .nil
  | [(k, v)] => by
    rw [compactFields, compactFields, String.intercalate_singleton]
    exact (scans_compact v).field k
  | (k, v) :: (l, w) :: fs => by
    have hrest := scans_fields ((l, w) :: fs)
    rw [compactFields] at hrest ⊢
    rw [compactFields, String.intercalate_cons_cons]
    exact ((scans_compact v).field k).comma hrest

end

/-- The tree of a word. -/
def wordTree : Token → Tree
  | .bool b => .bool b
  | .numeral n => .numeral n
  | _ => .null

mutual

/-- The tree of a value's text. -/
def treeOf : Json → Tree
  | .null => .null
  | .bool b => .bool b
  | .number n => wordTree (wordToken n.text)
  | .string s => textTree s
  | .array elements => .array (elementTrees elements)
  | .object fields => .object (fieldTrees fields)

def elementTrees : List Json → List Tree
  | [] => []
  | v :: vs => treeOf v :: elementTrees vs

def fieldTrees : List (String × Json) → List (List Piece × Tree)
  | [] => []
  | (k, v) :: fs => (pieces k, treeOf v) :: fieldTrees fs

end

theorem wordToken_cases (s : String) :
    wordToken s = .null ∨ (∃ b, wordToken s = .bool b) ∨ ∃ n, wordToken s = .numeral n := by
  unfold wordToken wordToken?
  split
  · exact .inl rfl
  split
  · exact .inr (.inl ⟨true, rfl⟩)
  split
  · exact .inr (.inl ⟨false, rfl⟩)
  · cases Numeral.read? (Utf8.encode s) with
    | none => exact .inl rfl
    | some n => exact .inr (.inr ⟨n, rfl⟩)

theorem build_word (s : String) (stack : List Open) (more : List Token) :
    build stack .value (wordToken s :: more) = build stack (.after (wordTree (wordToken s))) more := by
  rcases wordToken_cases s with h | ⟨b, h⟩ | ⟨n, h⟩ <;> rw [h] <;> rfl

/-- A first element is built like a value in the array. -/
theorem build_element (v : Json) (stack : List Open) (more : List Token) :
    build stack .element (tokens v ++ more) = build (.array [] :: stack) .value (tokens v ++ more) := by
  cases v with
  | number n => rcases wordToken_cases n.text with h | ⟨b, h⟩ | ⟨n', h⟩ <;> simp only [tokens, h] <;> rfl
  | null => rfl
  | bool b => cases b <;> rfl
  | string s => rfl
  | array vs => rfl
  | object fs => rfl

mutual

/-- The tokens of a value are built to its tree. -/
theorem build_tokens : ∀ (j : Json) (stack : List Open) (more : List Token),
    build stack .value (tokens j ++ more) = build stack (.after (treeOf j)) more
  | .null, _, _ => rfl
  | .bool true, _, _ => rfl
  | .bool false, _, _ => rfl
  | .number n, stack, more => build_word n.text stack more
  | .string s, _, _ => rfl
  | .array elements, stack, more => by
    have helements := build_elements elements
    rw [tokens, List.cons_append, List.append_assoc]
    change build stack .element _ = _
    match elements with
    | [] => rfl
    | [v] =>
      rw [elementTokens, build_element]
      exact helements (List.cons_ne_nil _ _) [] stack more
    | v :: w :: vs =>
      rw [elementTokens, List.append_assoc, build_element, ← List.append_assoc]
      exact helements (List.cons_ne_nil _ _) [] stack more
  | .object fields, stack, more => by
    have hfields := build_fields fields
    rw [tokens, List.cons_append, List.append_assoc]
    change build stack .field _ = _
    match fields with
    | [] => rfl
    | [(k, v)] => exact hfields (List.cons_ne_nil _ _) [] stack more
    | (k, v) :: g :: fs => exact hfields (List.cons_ne_nil _ _) [] stack more

theorem build_elements : ∀ vs : List Json, vs ≠ [] → ∀ (done : List Tree) (stack : List Open)
    (more : List Token), build (.array done :: stack) .value (elementTokens vs ++ .closeArray :: more) =
      build stack (.after (.array (done.reverse ++ elementTrees vs))) more
  | [], hne, _, _, _ => absurd rfl hne
  | [v], _, done, stack, more => by
    rw [elementTokens, build_tokens v]
    simp [build, advance, elementTrees]
  | v :: w :: vs, _, done, stack, more => by
    have hrest := build_elements (w :: vs) (List.cons_ne_nil _ _) (treeOf v :: done) stack more
    have hfirst := build_tokens v (.array done :: stack)
      (.comma :: (elementTokens (w :: vs) ++ .closeArray :: more))
    rw [elementTokens, List.append_assoc, List.cons_append]
    refine hfirst.trans (hrest.trans ?_)
    simp [elementTrees]

theorem build_fields : ∀ fs : List (String × Json), fs ≠ [] → ∀ (done : List (List Piece × Tree))
    (stack : List Open) (more : List Token),
    build stack (.key done) (fieldTokens fs ++ .closeObject :: more) =
      build stack (.after (.object (done.reverse ++ fieldTrees fs))) more
  | [], hne, _, _, _ => absurd rfl hne
  | [(k, v)], _, done, stack, more => by
    have hvalue := build_tokens v (.object done (pieces k) :: stack) (.closeObject :: more)
    refine hvalue.trans ?_
    simp [build, advance, fieldTrees]
  | (k, v) :: g :: fs, _, done, stack, more => by
    have hrest := build_fields (g :: fs) (List.cons_ne_nil _ _) ((pieces k, treeOf v) :: done) stack more
    have hfirst := build_tokens v (.object done (pieces k) :: stack)
      (.comma :: (fieldTokens (g :: fs) ++ .closeObject :: more))
    rw [fieldTokens, List.append_assoc]
    refine hfirst.trans (hrest.trans ?_)
    simp [fieldTrees]

end

theorem tree?_compact {j : Json} {t : Tree} (h : tree? (Utf8.encode j.compact) = some t) : t = treeOf j := by
  obtain ⟨ts, hts, hbuild⟩ := Option.bind_eq_some_iff.mp h
  rw [tokens?, ← List.append_nil (Utf8.encode _)] at hts
  have hscan := scans_compact j [] [] ts (by rintro b ⟨⟩) hts
  rw [List.append_nil, scan, List.reverse_reverse, Option.some.injEq] at hscan
  have htokens := build_tokens j [] []
  rw [List.append_nil, hscan, hbuild] at htokens
  exact Option.some.inj htokens

theorem value?_wordTree (room : Nat) (t : Token) {v : Json} (h : (wordTree t).value? room = some v) :
    v.string? = none := by
  cases t with
  | numeral n =>
    obtain ⟨x, _, rfl⟩ := Option.map_eq_some_iff.mp h
    rfl
  | _ =>
    cases h
    rfl

/-- What comes back of a value is a text only if the value is, and then the same. -/
theorem string?_of_value? {room : Nat} {j v : Json} (h : (treeOf j).value? room = some v) :
    v.string? = j.string? := by
  cases j with
  | null =>
    cases h
    rfl
  | bool b =>
    cases h
    rfl
  | number n => exact value?_wordTree room _ h
  | string s =>
    rw [treeOf, textTree, Tree.value?, pieceText?_pieces] at h
    cases h
    rfl
  | array elements =>
    rw [treeOf, Tree.value?] at h
    split at h
    · cases h
    · obtain ⟨vs, _, rfl⟩ := Option.map_eq_some_iff.mp h
      rfl
  | object fields =>
    rw [treeOf, Tree.value?] at h
    split at h
    · cases h
    · obtain ⟨fs, _, rfl⟩ := Option.map_eq_some_iff.mp h
      rfl

theorem string?_of_fields? {room : Nat} {fs back : List (String × Json)}
    (h : Tree.fields? room (fieldTrees fs) = some back) :
    back.map (fun f => (f.1, f.2.string?)) = fs.map fun f => (f.1, f.2.string?) := by
  induction fs generalizing back with
  | nil =>
    cases h
    rfl
  | cons f fs ih =>
    rw [fieldTrees, Tree.fields?, pieceText?_pieces] at h
    obtain ⟨key, hkey, h⟩ := Option.bind_eq_some_iff.mp h
    obtain ⟨v, hv, h⟩ := Option.bind_eq_some_iff.mp h
    obtain ⟨rest, hrest, h⟩ := Option.bind_eq_some_iff.mp h
    cases hkey
    cases h
    rw [List.map_cons, List.map_cons, ih hrest, string?_of_value? hv]

/-- Arrays are read only as deep as there is room for. -/
theorem value?_nested {room depth : Nat} (h : room < depth) :
    (treeOf (Nat.repeat (fun j => .array [j]) depth .null)).value? room = none := by
  induction depth generalizing room with
  | zero => cases h
  | succ depth ih =>
    have htree : treeOf (Nat.repeat (fun j => .array [j]) (depth + 1) .null) =
        .array [treeOf (Nat.repeat (fun j => .array [j]) depth .null)] := rfl
    rw [htree, Tree.value?]
    split
    · rfl
    · rw [Tree.values?, ih (by omega)]
      rfl

theorem fields?_eq_none {room : Nat} {fs : List (String × Json)} {f : String × Json} (hf : f ∈ fs)
    (h : (treeOf f.2).value? room = none) : Tree.fields? room (fieldTrees fs) = none := by
  induction fs with
  | nil => cases hf
  | cons g fs ih =>
    rw [fieldTrees, Tree.fields?, pieceText?_pieces]
    rcases List.mem_cons.mp hf with rfl | hf
    · rw [h]
      rfl
    · rw [ih hf]
      cases (treeOf g.2).value? room <;> rfl

end Json

/-- An item does not come back where one of its attributes is nested too deep. -/
theorem Item.read?_eq_none {item : Item} {name : String} {j : Json} (hfind : item.find? name = some j)
    (h : (Json.treeOf j).value? (Json.maxDepth - 1) = none) : Json.read? (Json.ofMap item).compact = none := by
  rw [Json.read?, Json.readOctets?, Option.bind_eq_bind, Option.bind_eq_none_iff]
  intro t ht
  obtain rfl := Json.tree?_compact ht
  rw [Json.ofMap, Json.treeOf, Json.Tree.value?, if_neg (by decide),
    Json.fields?_eq_none (SortedMap.mem_entries_iff.mpr hfind) h]
  rfl

/-- The text that an attribute is, if it is one, comes back with an item, whatever becomes of other
attributes. -/
theorem Item.text?_of_read? {item : Item} {fields : List (String × Json)}
    (h : Json.read? (Json.ofMap item).compact = some (.object fields)) (name : String) :
    Item.text? (.ofList fields) name = item.text? name := by
  obtain ⟨t, ht, hvalue⟩ := Option.bind_eq_some_iff.mp h
  obtain rfl := Json.tree?_compact ht
  rw [Json.ofMap, Json.treeOf, Json.Tree.value?, if_neg (by decide)] at hvalue
  obtain ⟨back, hback, hobject⟩ := Option.map_eq_some_iff.mp hvalue
  cases hobject
  have htexts : (SortedMap.ofList back : Item).map Json.string? = item.map Json.string? := by
    rw [SortedMap.map_ofList, Json.string?_of_fields? hback, ← SortedMap.map_ofList,
      SortedMap.ofList_entries]
  have htext : ∀ item : Item, item.text? name = ((item.map Json.string?).find? name).join := by
    intro item
    rw [SortedMap.find?_map, text?]
    cases item.find? name <;> rfl
  change text? (.ofList (SortedMap.ofList back).entries) name = _
  rw [SortedMap.ofList_entries, htext, htext, htexts]

end TagStore
