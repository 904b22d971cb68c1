import TagStore.Proofs.Outcome
import TagStore.Text.Base64Url
import TagStore.Text.Utf8

namespace TagStore

namespace Base64Url

theorem value?_digit : ∀ n < 64, value? (digit n) = some n := by decide

/-- The characters that stand for the values below 64, in the order of the values. -/
def alphabet : List Char := "ABCDEFGHIJKLMNOPQRSTUVWXYZabcdefghijklmnopqrstuvwxyz0123456789-_".toList

theorem digit_mem_alphabet : ∀ n < 64, digit n ∈ alphabet := by decide

/-- Nothing but digits is written, whatever the number of octets. -/
theorem mem_alphabet_of_mem_encode {octets : List UInt8} : ∀ c ∈ encode octets, c ∈ alphabet := by
  have hlt : ∀ o : UInt8, o.toNat < 256 := fun o => o.toNat_lt
  induction octets using encode.induct with
  | case1 => exact List.forall_mem_nil _
  | case2 a =>
    have ha := hlt a
    simp only [encode, List.forall_mem_cons, List.not_mem_nil, false_implies, implies_true, and_true]
    exact ⟨digit_mem_alphabet _ (by omega), digit_mem_alphabet _ (by omega)⟩
  | case3 a b =>
    have ha := hlt a
    have hb := hlt b
    simp only [encode, List.forall_mem_cons, List.not_mem_nil, false_implies, implies_true, and_true]
    exact ⟨digit_mem_alphabet _ (by omega), digit_mem_alphabet _ (by omega),
      digit_mem_alphabet _ (by omega)⟩
  | case4 a b c rest ih =>
    have ha := hlt a
    have hb := hlt b
    have hc := hlt c
    simp only [encode, List.forall_mem_cons]
    exact ⟨digit_mem_alphabet _ (by omega), digit_mem_alphabet _ (by omega),
      digit_mem_alphabet _ (by omega), digit_mem_alphabet _ (by omega), ih⟩

theorem decode_two {c d : Char} {i j : Nat} (hc : value? c = some i) (hd : value? d = some j)
    (hbits : j % 16 = 0) : decode [c, d] = some [UInt8.ofNat (i * 4 + j / 16)] := by
  have hguard : (guard (j % 16 = 0) : Option Unit) = some () := if_pos hbits
  have hdecode : decode [c, d] = (do
    let i ← value? c
    let j ← value? d
    guard (j % 16 = 0)
    return [UInt8.ofNat (i * 4 + j / 16)]) := rfl
  rw [hdecode, hc, hd]
  exact congrArg (Option.bind · fun _ => some [UInt8.ofNat (i * 4 + j / 16)]) hguard

theorem decode_three {c d e : Char} {i j k : Nat} (hc : value? c = some i) (hd : value? d = some j)
    (he : value? e = some k) (hbits : k % 4 = 0) :
    decode [c, d, e] = some [UInt8.ofNat (i * 4 + j / 16), UInt8.ofNat (j % 16 * 16 + k / 4)] := by
  have hguard : (guard (k % 4 = 0) : Option Unit) = some () := if_pos hbits
  have hdecode : decode [c, d, e] = (do
    let i ← value? c
    let j ← value? d
    let k ← value? e
    guard (k % 4 = 0)
    return [UInt8.ofNat (i * 4 + j / 16), UInt8.ofNat (j % 16 * 16 + k / 4)]) := rfl
  rw [hdecode, hc, hd, he]
  exact congrArg
    (Option.bind · fun _ => some [UInt8.ofNat (i * 4 + j / 16), UInt8.ofNat (j % 16 * 16 + k / 4)]) hguard

theorem decode_four {c d e f : Char} {i j k l : Nat} {cs : List Char} {octets : List UInt8}
    (hc : value? c = some i) (hd : value? d = some j) (he : value? e = some k) (hf : value? f = some l)
    (hcs : decode cs = some octets) :
    decode (c :: d :: e :: f :: cs) = some (UInt8.ofNat (i * 4 + j / 16) ::
      UInt8.ofNat (j % 16 * 16 + k / 4) :: UInt8.ofNat (k % 4 * 64 + l) :: octets) := by
  have hdecode : decode (c :: d :: e :: f :: cs) = (do
    let i ← value? c
    let j ← value? d
    let k ← value? e
    let l ← value? f
    let octets ← decode cs
    return UInt8.ofNat (i * 4 + j / 16) :: UInt8.ofNat (j % 16 * 16 + k / 4) ::
      UInt8.ofNat (k % 4 * 64 + l) :: octets) := rfl
  rw [hdecode, hc, hd, he, hf, hcs]
  rfl

/-- What is encoded is decoded again. -/
theorem decode_encode (octets : List UInt8) : decode (encode octets) = some octets := by
  have hlt : ∀ o : UInt8, o.toNat < 256 := fun o => o.toNat_lt
  have hoctet : ∀ (o : UInt8) (n : Nat), n = o.toNat → UInt8.ofNat n = o := by
    rintro o n rfl
    exact UInt8.ofNat_toNat
  induction octets using encode.induct with
  | case1 => rfl
  | case2 a =>
    have ha := hlt a
    have hbits : a.toNat % 4 * 16 % 16 = 0 := by omega
    have hfirst := value?_digit (a.toNat / 4) (by omega)
    have hlast := value?_digit (a.toNat % 4 * 16) (by omega)
    rw [encode, decode_two hfirst hlast hbits, hoctet a _ (by omega)]
  | case3 a b =>
    have ha := hlt a
    have hb := hlt b
    have hbits : b.toNat % 16 * 4 % 4 = 0 := by omega
    have hfirst := value?_digit (a.toNat / 4) (by omega)
    have hsecond := value?_digit (a.toNat % 4 * 16 + b.toNat / 16) (by omega)
    have hlast := value?_digit (b.toNat % 16 * 4) (by omega)
    rw [encode, decode_three hfirst hsecond hlast hbits, hoctet a _ (by omega), hoctet b _ (by omega)]
  | case4 a b c rest ih =>
    have ha := hlt a
    have hb := hlt b
    have hc := hlt c
    have hfirst := value?_digit (a.toNat / 4) (by omega)
    have hsecond := value?_digit (a.toNat % 4 * 16 + b.toNat / 16) (by omega)
    have hthird := value?_digit (b.toNat % 16 * 4 + c.toNat / 64) (by omega)
    have hlast := value?_digit (c.toNat % 64) (by omega)
    rw [encode, decode_four hfirst hsecond hthird hlast ih, hoctet a _ (by omega), hoctet b _ (by omega),
      hoctet c _ (by omega)]

end Base64Url

namespace Utf8

theorem encode_append (s t : String) : encode (s ++ t) = encode s ++ encode t := by
  simp [encode]

/-- A character is neither a surrogate nor beyond the last one. -/
theorem toNat_cases (c : Char) : c.toNat < 0xD800 ∨ 0xDFFF < c.toNat ∧ c.toNat < 0x110000 := c.valid

section
variable {a b c d : UInt8} (index : Nat) (rest : List UInt8)

theorem decodeFrom_one (ha : width a.toNat = 1) : decodeFrom index (a :: rest) =
    (decodeFrom (index + 1) rest).map (Char.ofNat a.toNat :: ·) := by
  rw [decodeFrom.eq_def]
  simp only [ha]

theorem decodeFrom_two (ha : width a.toNat = 2) (hb : isTail b.toNat = true) :
    decodeFrom index (a :: b :: rest) = (decodeFrom (index + 2) rest).map
      (Char.ofNat (a.toNat % 32 * 64 + b.toNat % 64) :: ·) := by
  rw [decodeFrom.eq_def]
  simp only [ha, hb, Bool.not_true, Bool.false_eq_true, if_false]

theorem decodeFrom_three (ha : width a.toNat = 3) (hb : isSecond a.toNat b.toNat = true)
    (hc : isTail c.toNat = true) :
    decodeFrom index (a :: b :: c :: rest) = (decodeFrom (index + 3) rest).map
      (Char.ofNat (a.toNat % 16 * 4096 + b.toNat % 64 * 64 + c.toNat % 64) :: ·) := by
  rw [decodeFrom.eq_def]
  simp only [ha, hb, hc, Bool.not_true, Bool.false_eq_true, if_false]

theorem decodeFrom_four (ha : width a.toNat = 4) (hb : isSecond a.toNat b.toNat = true)
    (hc : isTail c.toNat = true) (hd : isTail d.toNat = true) :
    decodeFrom index (a :: b :: c :: d :: rest) = (decodeFrom (index + 4) rest).map
      (Char.ofNat (a.toNat % 8 * 262144 + b.toNat % 64 * 4096 + c.toNat % 64 * 64 + d.toNat % 64) :: ·) := by
  rw [decodeFrom.eq_def]
  simp only [ha, hb, hc, hd, Bool.not_true, Bool.false_eq_true, if_false]

end

theorem toNat_ofNat {n : Nat} (hn : n < 256) : (UInt8.ofNat n).toNat = n := by
  rw [UInt8.toNat_ofNat', Nat.mod_eq_of_lt hn]

theorem isTail_add (n : Nat) : isTail (n % 64 + 128) = true := by
  simp only [isTail, Bool.and_eq_true, decide_eq_true_eq]
  omega

theorem isSecond_of_three {n : Nat} (hlow : 0x7ff < n) (hhigh : n ≤ 0xffff)
    (hc : n < 0xD800 ∨ 0xDFFF < n ∧ n < 0x110000) :
    isSecond (n / 4096 % 16 + 0xe0) (n / 64 % 64 + 128) = true := by
  unfold isSecond
  split
  · simp only [Bool.and_eq_true, decide_eq_true_eq]
    omega
  · split
    · simp only [Bool.and_eq_true, decide_eq_true_eq]
      omega
    · rw [if_neg (by omega), if_neg (by omega)]
      exact isTail_add _

theorem isSecond_of_four {n : Nat} (hlow : 0xffff < n) (hhigh : n < 0x110000) :
    isSecond (n / 262144 % 8 + 0xf0) (n / 4096 % 64 + 128) = true := by
  unfold isSecond
  rw [if_neg (by omega), if_neg (by omega)]
  split
  · simp only [Bool.and_eq_true, decide_eq_true_eq]
    omega
  · split
    · simp only [Bool.and_eq_true, decide_eq_true_eq]
      omega
    · exact isTail_add _

/-- The octets of a character are decoded to it. -/
theorem decodeFrom_char (c : Char) (index : Nat) (rest : List UInt8) :
    ∃ next, decodeFrom index (String.utf8EncodeChar c ++ rest) = (decodeFrom next rest).map (c :: ·) := by
  have hc := toNat_cases c
  have hchar : ∀ n, n = c.toNat → Char.ofNat n = c := by
    rintro n rfl
    exact Char.ofNat_toNat c
  unfold String.utf8EncodeChar
  have hval : c.val.toNat = c.toNat := rfl
  simp only [hval]
  generalize c.toNat = n at hc hchar
  have htail : ∀ k, (UInt8.ofNat (k % 64 + 128)).toNat = k % 64 + 128 := fun k =>
    toNat_ofNat (by omega)
  by_cases h1 : n ≤ 0x7f
  · have ha : (UInt8.ofNat n).toNat = n := toNat_ofNat (by omega)
    have hwidth : width n = 1 := by
      rw [width, if_pos (by omega)]
    refine ⟨index + 1, ?_⟩
    rw [if_pos h1, List.cons_append, List.nil_append, decodeFrom_one _ _ (ha.symm ▸ hwidth), ha,
      hchar n rfl]
  by_cases h2 : n ≤ 0x7ff
  · have ha : (UInt8.ofNat (n / 64 % 32 + 0xc0)).toNat = n / 64 % 32 + 0xc0 := toNat_ofNat (by omega)
    have hwidth : width (n / 64 % 32 + 0xc0) = 2 := by
      rw [width, if_neg (by omega), if_neg (by omega), if_pos (by omega)]
    refine ⟨index + 2, ?_⟩
    rw [if_neg h1, if_pos h2, List.cons_append, List.cons_append, List.nil_append,
      decodeFrom_two _ _ (ha.symm ▸ hwidth) ((htail n).symm ▸ isTail_add n), ha, htail,
      hchar _ (by omega)]
  by_cases h3 : n ≤ 0xffff
  · have ha : (UInt8.ofNat (n / 4096 % 16 + 0xe0)).toNat = n / 4096 % 16 + 0xe0 := toNat_ofNat (by omega)
    have hwidth : width (n / 4096 % 16 + 0xe0) = 3 := by
      rw [width, if_neg (by omega), if_neg (by omega), if_neg (by omega), if_pos (by omega)]
    have hsecond := isSecond_of_three (Nat.lt_of_not_le h2) h3 hc
    refine ⟨index + 3, ?_⟩
    rw [if_neg h1, if_neg h2, if_pos h3, List.cons_append, List.cons_append, List.cons_append,
      List.nil_append, decodeFrom_three _ _ (ha.symm ▸ hwidth)
        (by rw [ha, htail]; exact hsecond) ((htail n).symm ▸ isTail_add n), ha, htail, htail,
      hchar _ (by omega)]
  · have ha : (UInt8.ofNat (n / 262144 % 8 + 0xf0)).toNat = n / 262144 % 8 + 0xf0 :=
      toNat_ofNat (by omega)
    have hwidth : width (n / 262144 % 8 + 0xf0) = 4 := by
      rw [width, if_neg (by omega), if_neg (by omega), if_neg (by omega), if_neg (by omega),
        if_pos (by omega)]
    have hsecond := isSecond_of_four (n := n) (Nat.lt_of_not_le h3) (by omega)
    refine ⟨index + 4, ?_⟩
    rw [if_neg h1, if_neg h2, if_neg h3, List.cons_append, List.cons_append, List.cons_append,
      List.cons_append, List.nil_append, decodeFrom_four _ _ (ha.symm ▸ hwidth)
        (by rw [ha, htail]; exact hsecond) ((htail (n / 64)).symm ▸ isTail_add _)
        ((htail n).symm ▸ isTail_add n), ha, htail, htail, htail, hchar _ (by omega)]

/-- What is encoded is decoded again. -/
theorem decode_encode (s : String) : decode (encode s) = .ok s := by
  have hfrom : ∀ (cs : List Char) (index : Nat),
      decodeFrom index (cs.flatMap String.utf8EncodeChar) = .ok cs := by
    intro cs
    induction cs with
    | nil => intro index; rfl
    | cons c cs ih =>
      intro index
      obtain ⟨next, hnext⟩ := decodeFrom_char c index (cs.flatMap String.utf8EncodeChar)
      rw [List.flatMap_cons, hnext, ih]
      rfl
  rw [decode, encode, hfrom]
  simp [Except.map]

theorem toNat_char {n : Nat} (hn : n.isValidChar) : (Char.ofNat n).toNat = n := by
  rw [Char.ofNat, dif_pos hn]
  rfl

/-- The octets of a character by the length of its number. -/
theorem utf8EncodeChar_ofNat {n : Nat} (hn : n.isValidChar) : String.utf8EncodeChar (Char.ofNat n) =
    if n ≤ 0x7f then [UInt8.ofNat n]
    else if n ≤ 0x7ff then [UInt8.ofNat (n / 64 % 32 + 0xc0), UInt8.ofNat (n % 64 + 0x80)]
    else if n ≤ 0xffff then
      [UInt8.ofNat (n / 4096 % 16 + 0xe0), UInt8.ofNat (n / 64 % 64 + 0x80), UInt8.ofNat (n % 64 + 0x80)]
    else
      [UInt8.ofNat (n / 262144 % 8 + 0xf0), UInt8.ofNat (n / 4096 % 64 + 0x80),
        UInt8.ofNat (n / 64 % 64 + 0x80), UInt8.ofNat (n % 64 + 0x80)] := by
  have hval : (Char.ofNat n).val.toNat = n := toNat_char hn
  simp only [String.utf8EncodeChar, hval]

/-- An octet below 128 is that of an ASCII character. -/
theorem toNat_of_mem_utf8EncodeChar {c : Char} {b : UInt8} (hb : b ∈ String.utf8EncodeChar c)
    (hlow : b.toNat < 0x80) : c.toNat = b.toNat := by
  have hhigh : ∀ n, 0x80 ≤ n → n < 256 → b ≠ UInt8.ofNat n := by
    intro n hn hlt h
    rw [h, toNat_ofNat hlt] at hlow
    omega
  have hvalid : c.toNat.isValidChar := c.valid
  rw [← Char.ofNat_toNat c, utf8EncodeChar_ofNat hvalid] at hb
  generalize c.toNat = n at hb ⊢
  split at hb
  · rw [List.mem_singleton.mp hb, toNat_ofNat (by omega)]
  -- All octets of the other characters are greater.
  · split at hb
    · simp only [List.mem_cons, List.not_mem_nil, or_false] at hb
      rcases hb with hb | hb <;> exact absurd hb (hhigh _ (by omega) (by omega))
    · split at hb
      · simp only [List.mem_cons, List.not_mem_nil, or_false] at hb
        rcases hb with hb | hb | hb <;> exact absurd hb (hhigh _ (by omega) (by omega))
      · simp only [List.mem_cons, List.not_mem_nil, or_false] at hb
        rcases hb with hb | hb | hb | hb <;> exact absurd hb (hhigh _ (by omega) (by omega))

theorem width_range {n : Nat} : (width n = 1 → n < 0x80) ∧ (width n = 2 → 0xC2 ≤ n ∧ n < 0xE0) ∧
    (width n = 3 → 0xE0 ≤ n ∧ n < 0xF0) ∧ (width n = 4 → 0xF0 ≤ n ∧ n < 0xF5) := by
  unfold width
  repeat' split
  all_goals omega

theorem isTail_range {n : Nat} (h : isTail n = true) : 0x80 ≤ n ∧ n < 0xC0 := by
  simp only [isTail, Bool.and_eq_true, decide_eq_true_eq] at h
  omega

theorem isSecond_range {m n : Nat} (h : isSecond m n = true) : (0x80 ≤ n ∧ n < 0xC0) ∧
    (m = 0xE0 → 0xA0 ≤ n) ∧ (m = 0xED → n < 0xA0) ∧ (m = 0xF0 → 0x90 ≤ n) ∧ (m = 0xF4 → n < 0x90) := by
  unfold isSecond isTail at h
  repeat' split at h
  all_goals
    simp only [Bool.and_eq_true, decide_eq_true_eq] at h
    omega

section
variable {a b c d : UInt8}

theorem ofNat_eq {n : Nat} (h : n = a.toNat) : UInt8.ofNat n = a := by
  rw [h, UInt8.ofNat_toNat]

theorem utf8EncodeChar_one (ha : width a.toNat = 1) :
    String.utf8EncodeChar (Char.ofNat a.toNat) = [a] := by
  have ha := width_range.1 ha
  have hvalid : a.toNat.isValidChar := .inl (by omega)
  rw [utf8EncodeChar_ofNat hvalid, if_pos (by omega), UInt8.ofNat_toNat]

theorem utf8EncodeChar_two (ha : width a.toNat = 2) (hb : isTail b.toNat = true) :
    String.utf8EncodeChar (Char.ofNat (a.toNat % 32 * 64 + b.toNat % 64)) = [a, b] := by
  have ha := width_range.2.1 ha
  have hb := isTail_range hb
  have hvalid : (a.toNat % 32 * 64 + b.toNat % 64).isValidChar := .inl (by omega)
  rw [utf8EncodeChar_ofNat hvalid, if_neg (by omega), if_pos (by omega), ofNat_eq (a := a) (by omega),
    ofNat_eq (a := b) (by omega)]

theorem utf8EncodeChar_three (ha : width a.toNat = 3) (hb : isSecond a.toNat b.toNat = true)
    (hc : isTail c.toNat = true) :
    String.utf8EncodeChar (Char.ofNat (a.toNat % 16 * 4096 + b.toNat % 64 * 64 + c.toNat % 64)) =
      [a, b, c] := by
  have ha := width_range.2.2.1 ha
  have hb := isSecond_range hb
  have hc := isTail_range hc
  generalize hn : a.toNat % 16 * 4096 + b.toNat % 64 * 64 + c.toNat % 64 = n
  have hvalid : n.isValidChar := by
    unfold Nat.isValidChar
    omega
  rw [utf8EncodeChar_ofNat hvalid, if_neg (by omega), if_neg (by omega), if_pos (by omega),
    ofNat_eq (a := a) (by omega), ofNat_eq (a := b) (by omega), ofNat_eq (a := c) (by omega)]

theorem utf8EncodeChar_four (ha : width a.toNat = 4) (hb : isSecond a.toNat b.toNat = true)
    (hc : isTail c.toNat = true) (hd : isTail d.toNat = true) :
    String.utf8EncodeChar (Char.ofNat
      (a.toNat % 8 * 262144 + b.toNat % 64 * 4096 + c.toNat % 64 * 64 + d.toNat % 64)) = [a, b, c, d] := by
  have ha := width_range.2.2.2 ha
  have hb := isSecond_range hb
  have hc := isTail_range hc
  have hd := isTail_range hd
  generalize hn : a.toNat % 8 * 262144 + b.toNat % 64 * 4096 + c.toNat % 64 * 64 + d.toNat % 64 = n
  have hvalid : n.isValidChar := .inr (by omega)
  rw [utf8EncodeChar_ofNat hvalid, if_neg (by omega), if_neg (by omega), if_neg (by omega),
    ofNat_eq (a := a) (by omega), ofNat_eq (a := b) (by omega), ofNat_eq (a := c) (by omega),
    ofNat_eq (a := d) (by omega)]

end

/-- What was decoded is encoded to the same octets again. -/
theorem encode_of_decodeFrom {index : Nat} {octets : List UInt8} {cs : List Char}
    (h : decodeFrom index octets = .ok cs) : cs.flatMap String.utf8EncodeChar = octets := by
  have hnot : ∀ {b : Bool}, ¬(!b) = true → b = true := by simp
  fun_induction decodeFrom index octets generalizing cs
  case case1 =>
    cases h
    rfl
  case case2 index a rest n ha ih =>
    obtain ⟨cs, hrest, rfl⟩ := Outcome.map_eq_ok_iff.mp h
    rw [List.flatMap_cons, ih hrest, utf8EncodeChar_one ha]
    rfl
  case case5 index a n ha b rest k hb ih =>
    obtain ⟨cs, hrest, rfl⟩ := Outcome.map_eq_ok_iff.mp h
    rw [List.flatMap_cons, ih hrest, utf8EncodeChar_two ha (hnot hb)]
    rfl
  case case10 index a n ha b k hb c rest l hc ih =>
    obtain ⟨cs, hrest, rfl⟩ := Outcome.map_eq_ok_iff.mp h
    rw [List.flatMap_cons, ih hrest, utf8EncodeChar_three ha (hnot hb) (hnot hc)]
    rfl
  case case17 index a n ha b k hb c l hc d rest e hd ih =>
    obtain ⟨cs, hrest, rfl⟩ := Outcome.map_eq_ok_iff.mp h
    rw [List.flatMap_cons, ih hrest, utf8EncodeChar_four ha (hnot hb) (hnot hc) (hnot hd)]
    rfl
  -- all other octets begin no character or break off within one
  all_goals cases h

/-- Octets are decoded to the text that is encoded as them, and else not at all. -/
theorem decode_eq_ok_iff {octets : List UInt8} {s : String} : decode octets = .ok s ↔ encode s = octets := by
  constructor
  · intro h
    obtain ⟨cs, hcs, rfl⟩ := Outcome.map_eq_ok_iff.mp h
    simpa [encode] using encode_of_decodeFrom hcs
  · intro h
    rw [← h, decode_encode]

theorem encode_inj {s t : String} : encode s = encode t ↔ s = t := by
  rw [← decode_eq_ok_iff, decode_encode, Except.ok.injEq, eq_comm]

end Utf8

end TagStore
