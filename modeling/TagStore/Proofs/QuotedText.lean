import TagStore.Json.Tree
import TagStore.Json.Writer
import TagStore.Proofs.Octets

namespace TagStore.Json

/-- The pieces of what a character is written as. -/
def charPieces (c : Char) : List Piece :=
  if c.toNat < 32 ∧ c.toNat ∉ [8, 9, 10, 12, 13] then [.unit c.toNat]
  else (String.utf8EncodeChar c).map .octet

def pieces (s : String) : List Piece := s.toList.flatMap charPieces

theorem scan_cons (b : UInt8) (out : List Token) (state : Scan) (rest : List UInt8) :
    scan state out (b :: rest) = match step b out state with
      | none => none
      | some (state, out) => scan state out rest := rfl

/-- Whether an octet stands for itself in a string. -/
def IsPlain (b : UInt8) : Prop := b ≠ 34 ∧ b ≠ 92 ∧ ¬ b < 32

theorem scan_plain {octets : List UInt8} (h : ∀ b ∈ octets, IsPlain b) (read : List Piece)
    (out : List Token) (rest : List UInt8) :
    scan (.string read) out (octets ++ rest) =
      scan (.string ((octets.map Piece.octet).reverse ++ read)) out rest := by
  induction octets generalizing read with
  | nil => rfl
  | cons b octets ih =>
    obtain ⟨hquote, hescape, hcontrol⟩ := h b List.mem_cons_self
    rw [List.cons_append, scan_cons, step, if_neg hquote, if_neg hescape, if_neg hcontrol]
    refine (ih (fun b hb => h b (List.mem_cons_of_mem _ hb)) _).trans ?_
    rw [List.map_cons, List.reverse_cons, List.append_assoc]
    rfl

theorem isPlain_utf8EncodeChar {c : Char} (hquote : c ≠ '"') (hescape : c ≠ '\\') (hc : 32 ≤ c.toNat) :
    ∀ b ∈ String.utf8EncodeChar c, IsPlain b := by
  intro b hb
  have hchar : b.toNat < 0x80 → c = Char.ofNat b.toNat := by
    intro hlow
    rw [← Utf8.toNat_of_mem_utf8EncodeChar hb hlow, Char.ofNat_toNat]
  refine ⟨fun h => hquote ?_, fun h => hescape ?_, fun h => ?_⟩
  · subst h
    exact hchar (by simp)
  · subst h
    exact hchar (by simp)
  · have hlt : b.toNat < 32 := UInt8.lt_iff_toNat_lt.mp h
    have hnat := Utf8.toNat_of_mem_utf8EncodeChar hb (by omega)
    omega

theorem utf8EncodeChar_hexDigit : ∀ k < 16,
    String.utf8EncodeChar (hexDigit k) = [UInt8.ofNat (hexDigit k).toNat] := by
  decide

theorem hexDigit?_hexDigit : ∀ k < 16,
    Percent.hexDigit? (UInt8.ofNat (hexDigit k).toNat).toNat = some k := by
  decide

theorem scan_hex {b : UInt8} {d : Nat} (hd : Percent.hexDigit? b.toNat = some d) (digits value : Nat)
    (read : List Piece) (out : List Token) (rest : List UInt8) :
    scan (.hex digits value read) out (b :: rest) =
      if digits = 3 then scan (.string (.unit (16 * value + d) :: read)) out rest
      else scan (.hex (digits + 1) (16 * value + d) read) out rest := by
  rw [scan_cons, step, hd]
  simp only [bind, Option.bind_some]
  by_cases h : digits = 3
  · rw [if_pos h, if_pos h]
  · rw [if_neg h, if_neg h]

theorem scan_unit {n : Nat} (hn : n < 256) (read : List Piece) (out : List Token) (rest : List UInt8) :
    scan (.string read) out
      (['\\', 'u', '0', '0', hexDigit (n / 16), hexDigit (n % 16)].flatMap String.utf8EncodeChar ++ rest) =
      scan (.string (.unit n :: read)) out rest := by
  have hhigh : n / 16 < 16 := by omega
  have hlow : n % 16 < 16 := by omega
  have hsum : 16 * (16 * (16 * (16 * 0 + 0) + 0) + n / 16) + n % 16 = n := by omega
  have hzero : Percent.hexDigit? (48 : UInt8).toNat = some 0 := by decide
  have hmarks : ['\\', 'u', '0', '0'].flatMap String.utf8EncodeChar = [92, 117, 48, 48] := by decide
  change scan _ out ((['\\', 'u', '0', '0'] ++ [hexDigit (n / 16), hexDigit (n % 16)]).flatMap
    String.utf8EncodeChar ++ rest) = _
  rw [List.flatMap_append, hmarks, List.flatMap_cons, List.flatMap_cons, List.flatMap_nil,
    utf8EncodeChar_hexDigit _ hhigh, utf8EncodeChar_hexDigit _ hlow]
  change scan (.hex 0 0 read) out (48 :: 48 :: UInt8.ofNat (hexDigit (n / 16)).toNat ::
    UInt8.ofNat (hexDigit (n % 16)).toNat :: rest) = _
  rw [scan_hex hzero, if_neg (by decide), scan_hex hzero, if_neg (by decide),
    scan_hex (hexDigit?_hexDigit _ hhigh), if_neg (by decide), scan_hex (hexDigit?_hexDigit _ hlow),
    if_pos rfl, hsum]

/-- A character is scanned as its pieces, however it is written. -/
theorem scan_quotedChar (c : Char) (read : List Piece) (out : List Token) (rest : List UInt8) :
    scan (.string read) out ((quotedChar c).flatMap String.utf8EncodeChar ++ rest) =
      scan (.string ((charPieces c).reverse ++ read)) out rest := by
  unfold quotedChar
  split
  next h => subst h; rfl
  next hquote =>
    split
    next h => subst h; rfl
    next hescape =>
      split
      next h32 =>
        have hcontrol : ¬ (c.toNat < 32 ∧ c.toNat ∉ [8, 9, 10, 12, 13]) := fun h => by omega
        rw [charPieces, if_neg hcontrol, List.flatMap_cons, List.flatMap_nil, List.append_nil]
        exact scan_plain (isPlain_utf8EncodeChar hquote hescape h32) read out rest
      next h32 =>
        split
        next h => subst h; rfl
        next hnewline =>
          split
          next h => subst h; rfl
          next hreturn =>
            split
            next h => subst h; rfl
            next htab =>
              have hof : ∀ n, c.toNat = n → c = Char.ofNat n := by
                rintro n rfl
                exact (Char.ofNat_toNat c).symm
              split
              next h => obtain rfl := hof _ h; rfl
              next h8 =>
                split
                next h => obtain rfl := hof _ h; rfl
                next h12 =>
                  have h9 : c.toNat ≠ 9 := fun h => htab (hof _ h)
                  have h10 : c.toNat ≠ 10 := fun h => hnewline (hof _ h)
                  have h13 : c.toNat ≠ 13 := fun h => hreturn (hof _ h)
                  have hunit : c.toNat < 32 ∧ c.toNat ∉ [8, 9, 10, 12, 13] := by
                    refine ⟨by omega, ?_⟩
                    simp only [List.mem_cons, List.not_mem_nil, or_false]
                    omega
                  rw [charPieces, if_pos hunit]
                  exact scan_unit (by omega) read out rest

theorem scan_quotedChars (cs : List Char) (read : List Piece) (out : List Token) (rest : List UInt8) :
    scan (.string read) out ((cs.flatMap quotedChar).flatMap String.utf8EncodeChar ++ rest) =
      scan (.string ((cs.flatMap charPieces).reverse ++ read)) out rest := by
  induction cs generalizing read with
  | nil => rfl
  | cons c cs ih =>
    rw [List.flatMap_cons, List.flatMap_append, List.append_assoc, scan_quotedChar, ih,
      List.flatMap_cons, List.reverse_append, List.append_assoc]

/-- A quoted text is scanned as one token. -/
theorem scan_quoted (s : String) (out : List Token) (rest : List UInt8) :
    scan .between out (Utf8.encode (quoted s) ++ rest) =
      scan .between (.string (pieces s) :: out) rest := by
  have hquote : ['"'].flatMap String.utf8EncodeChar = [34] := by decide
  have hoctets : Utf8.encode (quoted s) =
      34 :: ((s.toList.flatMap quotedChar).flatMap String.utf8EncodeChar ++ [34]) := by
    rw [Utf8.encode, quoted, String.toList_ofList, ← List.singleton_append, List.append_assoc,
      List.flatMap_append, List.flatMap_append, hquote]
    rfl
  rw [hoctets, List.cons_append, List.append_assoc]
  change scan (.string []) out _ = _
  rw [scan_quotedChars, List.append_nil]
  change scan .between (.string (pieces s).reverse.reverse :: out) rest = _
  rw [List.reverse_reverse]

theorem pieceOctets?_octets (octets : List UInt8) (rest : List Piece) :
    pieceOctets? (octets.map Piece.octet ++ rest) = (pieceOctets? rest).map (octets ++ ·) := by
  induction octets with
  | nil => simp
  | cons b octets ih =>
    rw [List.map_cons, List.cons_append, pieceOctets?, ih]
    cases pieceOctets? rest <;> rfl

theorem pieceOctets?_charPieces (c : Char) (rest : List Piece) :
    pieceOctets? (charPieces c ++ rest) = (pieceOctets? rest).map (String.utf8EncodeChar c ++ ·) := by
  unfold charPieces
  split
  next hunit =>
    have hlow : isLowSurrogate c.toNat = false := by simp [isLowSurrogate]; omega
    have hhigh : isHighSurrogate c.toNat = false := by simp [isHighSurrogate]; omega
    change pieceOctets? (.unit c.toNat :: rest) = _
    rw [pieceOctets?.eq_def]
    simp only [hlow, hhigh, Bool.false_eq_true, if_false, Char.ofNat_toNat]
  next => exact pieceOctets?_octets _ rest

/-- The pieces of a text spell it. -/
theorem pieceText?_pieces (s : String) : pieceText? (pieces s) = some s := by
  have hoctets : ∀ cs : List Char,
      pieceOctets? (cs.flatMap charPieces) = some (cs.flatMap String.utf8EncodeChar) := by
    intro cs
    induction cs with
    | nil => rfl
    | cons c cs ih => rw [List.flatMap_cons, pieceOctets?_charPieces, ih]; rfl
  have hdecode := Utf8.decode_encode s
  unfold Utf8.encode at hdecode
  simp only [pieceText?, pieces, hoctets, hdecode, bind, Option.bind_some, Except.toOption]

end TagStore.Json
