import Mathlib.Data.List.Forall2
import TagStore.Proofs.KeyParts
import TagStore.Proofs.Lookup
import TagStore.Proofs.Octets
import TagStore.Tag.Filter

namespace TagStore

namespace Percent

/-- A hexadecimal digit. -/
def digit (upper : Bool) (n : Nat) : UInt8 :=
  UInt8.ofNat (if n < 10 then 48 + n else if upper then 55 + n else 87 + n)

def escape (upper upper' : Bool) (b : UInt8) : List UInt8 :=
  [37, digit upper (b.toNat / 16), digit upper' (b.toNat % 16)]

/-- Some octets as they may be written: `%` and `:` are escaped, and any other octet may be. -/
inductive Writes : (octets written : List UInt8) → Prop where
  | nil : Writes [] []
  | escape (upper upper' : Bool) (b : UInt8) {octets written : List UInt8} (h : Writes octets written) :
    Writes (b :: octets) (Percent.escape upper upper' b ++ written)
  | plain {b : UInt8} (hpercent : b ≠ 37) (hcolon : b ≠ 58) {octets written : List UInt8}
    (h : Writes octets written) : Writes (b :: octets) (b :: written)

/-- What some octets stand for: an escape for its octet, and what begins no escape for itself. -/
inductive StandsFor : (written octets : List UInt8) → Prop where
  | nil : StandsFor [] []
  | escape (upper upper' : Bool) (b : UInt8) {written octets : List UInt8} (h : StandsFor written octets) :
    StandsFor (Percent.escape upper upper' b ++ written) (b :: octets)
  | plain {a : UInt8} {written octets : List UInt8}
    (hplain : ∀ upper upper' b, ¬ Percent.escape upper upper' b <+: a :: written)
    (h : StandsFor written octets) : StandsFor (a :: written) (a :: octets)

theorem hexDigit?_eq_some_iff {d : UInt8} {n : Nat} :
    hexDigit? d.toNat = some n ↔ n < 16 ∧ ∃ upper, d = digit upper n := by
  constructor
  · intro h
    have hrange : n < 16 ∧
        (d.toNat = 48 + n ∧ n < 10 ∨ d.toNat = 55 + n ∧ 10 ≤ n ∨ d.toNat = 87 + n ∧ 10 ≤ n) := by
      unfold hexDigit? at h
      repeat' split at h
      all_goals simp_all only [Bool.and_eq_true, decide_eq_true_eq, Option.some.injEq, reduceCtorEq]
      all_goals omega
    obtain ⟨hn, hdecimal | hupper | hlower⟩ := hrange
    · exact ⟨hn, true, by simp [digit, hdecimal.2, ← hdecimal.1]⟩
    · exact ⟨hn, true, by simp [digit, Nat.not_lt.mpr hupper.2, ← hupper.1]⟩
    · exact ⟨hn, false, by simp [digit, Nat.not_lt.mpr hlower.2, ← hlower.1]⟩
  · intro h
    obtain ⟨hn, upper, rfl⟩ := h
    revert n
    cases upper <;> decide

theorem hexOctet?_eq_some_iff {high low b : UInt8} : hexOctet? high low = some b ↔
    ∃ upper upper', high = digit upper (b.toNat / 16) ∧ low = digit upper' (b.toNat % 16) := by
  have hoctet : hexOctet? high low =
      (hexDigit? high.toNat).bind fun h =>
        (hexDigit? low.toNat).bind fun l => some (UInt8.ofNat (16 * h + l)) := rfl
  simp only [hoctet, Option.bind_eq_some_iff, hexDigit?_eq_some_iff, Option.some.injEq]
  constructor
  · intro h
    obtain ⟨h, ⟨hh, upper, rfl⟩, l, ⟨hl, upper', rfl⟩, rfl⟩ := h
    have hb : (UInt8.ofNat (16 * h + l)).toNat = 16 * h + l := Utf8.toNat_ofNat (by omega)
    exact ⟨upper, upper', by rw [hb]; congr 1; omega, by rw [hb]; congr 1; omega⟩
  · intro h
    obtain ⟨upper, upper', hh, hl⟩ := h
    have hb := b.toNat_lt
    refine ⟨_, ⟨by omega, upper, hh⟩, _, ⟨by omega, upper', hl⟩, Utf8.ofNat_eq (by omega)⟩

theorem hexOctet?_of_escape {upper upper' : Bool} {b a high low : UInt8} {rest : List UInt8}
    (h : escape upper upper' b <+: a :: high :: low :: rest) : a = 37 ∧ hexOctet? high low = some b := by
  simp only [escape, List.cons_prefix_cons] at h
  exact ⟨h.1.symm, hexOctet?_eq_some_iff.mpr ⟨upper, upper', h.2.1.symm, h.2.2.1.symm⟩⟩

theorem decodeOctets_escape (upper upper' : Bool) (b : UInt8) (written : List UInt8) :
    decodeOctets (escape upper upper' b ++ written) = b :: decodeOctets written := by
  have hoctet : hexOctet? (digit upper (b.toNat / 16)) (digit upper' (b.toNat % 16)) = some b :=
    hexOctet?_eq_some_iff.mpr ⟨upper, upper', rfl, rfl⟩
  simp [escape, decodeOctets, hoctet]

theorem decodeOctets_plain {a : UInt8} {written : List UInt8}
    (h : ∀ upper upper' b, ¬ escape upper upper' b <+: a :: written) :
    decodeOctets (a :: written) = a :: decodeOctets written := by
  by_cases ha : a = 37
  · match written with
    | [] => simp [decodeOctets]
    | [x] => by_cases hx : x = 37 <;> simp [decodeOctets, ha, hx]
    | high :: low :: rest =>
      have hnone : hexOctet? high low = none := by
        rw [Option.eq_none_iff_forall_ne_some]
        intro b hb
        obtain ⟨upper, upper', rfl, rfl⟩ := hexOctet?_eq_some_iff.mp hb
        exact h upper upper' b (by simp [escape, ha])
      simp [decodeOctets, ha, hnone]
  · rw [decodeOctets.eq_def]
    simp only [ha, if_false]

/-- Decoding gives what octets stand for, and they stand for nothing else. -/
theorem standsFor_iff {written octets : List UInt8} :
    StandsFor written octets ↔ decodeOctets written = octets := by
  constructor
  · intro h
    induction h with
    | nil => rfl
    | escape upper upper' b h ih => rw [decodeOctets_escape, ih]
    | plain hplain h ih => rw [decodeOctets_plain hplain, ih]
  · intro h
    subst h
    fun_induction decodeOctets written with
    | case1 => exact .nil
    | case2 high low rest b hb ih =>
      obtain ⟨upper, upper', rfl, rfl⟩ := hexOctet?_eq_some_iff.mp hb
      exact .escape upper upper' b ih
    | case3 high low rest hnone ih =>
      refine .plain (fun upper upper' b hb => ?_) ih
      simp [(hexOctet?_of_escape hb).2] at hnone
    | case4 rest hshort =>
      match rest with
      | [] => exact .plain (fun _ _ _ hb => absurd hb.length_le (by simp [escape])) .nil
      | [x] =>
        refine .plain (fun _ _ _ hb => absurd hb.length_le (by simp [escape])) ?_
        exact .plain (fun _ _ _ hb => absurd hb.length_le (by simp [escape])) .nil
      | high :: low :: rest => exact absurd rfl (hshort high low rest)
    | case5 a rest ha ih =>
      refine .plain (fun upper upper' b hb => ha ?_) ih
      simp only [escape, List.cons_prefix_cons] at hb
      exact hb.1.symm

theorem Writes.standsFor {octets written : List UInt8} (h : Writes octets written) :
    StandsFor written octets := by
  induction h with
  | nil => exact .nil
  | escape upper upper' b h ih => exact .escape upper upper' b ih
  | plain hpercent hcolon h ih =>
    refine .plain (fun upper upper' b hb => hpercent ?_) ih
    simp only [Percent.escape, List.cons_prefix_cons] at hb
    exact hb.1.symm

theorem digit_ne_colon : ∀ upper, ∀ n < 16, digit upper n ≠ 58 := by decide

/-- No colon is left as it is. -/
theorem Writes.colon_not_mem {octets written : List UInt8} (h : Writes octets written) : 58 ∉ written := by
  induction h with
  | nil => simp
  | escape upper upper' b h ih =>
    have hb := b.toNat_lt
    have hhigh := (digit_ne_colon upper (b.toNat / 16) (by omega)).symm
    have hlow := (digit_ne_colon upper' (b.toNat % 16) (by omega)).symm
    simp [Percent.escape, hhigh, hlow, ih]
  | plain hpercent hcolon h ih => simp [hcolon.symm, ih]

end Percent

namespace Utf8

theorem colon_mem_encode {cs : List Char} (h : 58 ∈ encode (String.ofList cs)) : ':' ∈ cs := by
  simp only [encode, String.toList_ofList, List.mem_flatMap] at h
  obtain ⟨c, hc, hcolon⟩ := h
  have hnat := toNat_of_mem_utf8EncodeChar hcolon (by simp)
  have hchar : c = ':' := by rw [← Char.ofNat_toNat c, hnat]; rfl
  exact hchar ▸ hc

theorem encode_split (name value : List Char) : encode (String.ofList (name ++ ':' :: value)) =
    encode (String.ofList name) ++ 58 :: encode (String.ofList value) := by
  simp [encode, String.utf8EncodeChar]

/-- A text is split where the first colon stands among its octets. -/
theorem exists_split {text : String} {name value : List UInt8} (htext : encode text = name ++ 58 :: value)
    (hname : 58 ∉ name) : ∃ name' value' : List Char, text.toList = name' ++ ':' :: value' ∧ ':' ∉ name' ∧
      encode (String.ofList name') = name ∧ encode (String.ofList value') = value := by
  have hcolon : ':' ∈ text.toList := colon_mem_encode (by simp [htext])
  obtain ⟨name', value', hsplit, hname'⟩ := List.eq_append_cons_of_mem hcolon
  have hoctets : encode (String.ofList name') ++ 58 :: encode (String.ofList value') = name ++ 58 :: value := by
    rw [← encode_split, ← hsplit, String.ofList_toList, htext]
  have hfirst := congrArg (List.splitOn 58) hoctets
  rw [List.splitOn_append_cons_self_of_not_mem hname,
    List.splitOn_append_cons_self_of_not_mem fun h => hname' (colon_mem_encode h)] at hfirst
  have hhead := (List.cons.inj hfirst).1
  rw [hhead] at hoctets
  exact ⟨name', value', hsplit, hname', hhead, (List.cons.inj (List.append_cancel_left hoctets)).2⟩

end Utf8

namespace Tag

/-- A tag as it may be written: its name and its value with escapes, and a colon between them. -/
def Writes (tag : String × String) (text : String) : Prop :=
  ∃ name value, Percent.Writes (Utf8.encode tag.1) name ∧ Percent.Writes (Utf8.encode tag.2) value ∧
    Utf8.encode text = name ++ 58 :: value

/-- The halves of a text around its first colon. -/
structure Halves (text : String) (name value : List Char) : Prop where
  split : text.toList = name ++ ':' :: value
  first : ':' ∉ name

/-- The octets that are left of some characters after decoding. -/
def StandsFor (half : List Char) (octets : List UInt8) : Prop :=
  Percent.StandsFor (Utf8.encode (String.ofList half)) octets

/-- Why a text is no tag. -/
inductive Unreadable (text : String) : Prop where
  | noColon (h : ':' ∉ text.toList)
  /-- One half stands for octets that encode no text. -/
  | noText {name value half : List Char} {octets : List UInt8} (hhalves : Halves text name value)
    (hhalf : half = name ∨ half = value) (hoctets : StandsFor half octets)
    (h : ∀ s, Utf8.encode s ≠ octets)
  | noName {name value : List Char} (hhalves : Halves text name value) (h : StandsFor name [])

theorem Halves.unique {text : String} {name name' value value' : List Char} (h : Halves text name value)
    (h' : Halves text name' value') : name = name' ∧ value = value' :=
  Text.eq_of_split h.first h'.first (h.split.symm.trans h'.split)

theorem StandsFor.unique {half : List Char} {octets octets' : List UInt8} (h : StandsFor half octets)
    (h' : StandsFor half octets') : octets = octets' := by
  rw [StandsFor, Percent.standsFor_iff] at h h'
  exact h.symm.trans h'

theorem exists_standsFor (half : List Char) : ∃ octets, StandsFor half octets :=
  ⟨_, Percent.standsFor_iff.mpr rfl⟩

theorem decodePart_eq_ok_iff {half : List Char} {s : String} :
    decodePart (String.ofList half) = .ok s ↔ StandsFor half (Utf8.encode s) := by
  rw [decodePart, Outcome.mapError_eq_ok_iff, Percent.decode, Utf8.decode_eq_ok_iff, StandsFor,
    Percent.standsFor_iff, eq_comm]

theorem readPair_of_halves {text : String} {name value : List Char} (h : Halves text name value) :
    readPair text = decodePart (String.ofList name) >>= fun s =>
      if s = "" then .error (.pairWithoutName text)
      else (decodePart (String.ofList value)).map fun v => (s, v) := by
  have hsplit : Text.splitFirst Key.delimiter text.toList = some (name, value) := by
    rw [h.split]
    exact Text.splitFirst_append h.first value
  rw [readPair, hsplit]
  simp only [String.isEmpty_iff]
  rfl

theorem readPair_of_noColon {text : String} (h : ':' ∉ text.toList) :
    readPair text = .error (.notAPair text) := by
  have hsplit : Text.splitFirst Key.delimiter text.toList = none := Text.splitFirst_eq_none h
  rw [readPair, hsplit]

theorem exists_halves {text : String} (h : ':' ∈ text.toList) : ∃ name value, Halves text name value := by
  obtain ⟨name, value, hsplit, hfirst⟩ := List.eq_append_cons_of_mem h
  exact ⟨name, value, hsplit, hfirst⟩

theorem Halves.colon_mem {text : String} {name value : List Char} (h : Halves text name value) :
    ':' ∈ text.toList := by
  simp [h.split]

theorem readPair_eq_ok_iff {text : String} {tag : String × String} : readPair text = .ok tag ↔
    ∃ name value, Halves text name value ∧ StandsFor name (Utf8.encode tag.1) ∧
      StandsFor value (Utf8.encode tag.2) ∧ tag.1 ≠ "" := by
  have hread : ∀ {name value}, Halves text name value → (readPair text = .ok tag ↔
      StandsFor name (Utf8.encode tag.1) ∧ StandsFor value (Utf8.encode tag.2) ∧ tag.1 ≠ "") := by
    intro name value hhalves
    rw [readPair_of_halves hhalves, Outcome.bind_eq_ok_iff]
    constructor
    · intro h
      obtain ⟨s, hs, htag⟩ := h
      split at htag
      · cases htag
      · next hne =>
        obtain ⟨v, hv, rfl⟩ := Outcome.map_eq_ok_iff.mp htag
        exact ⟨decodePart_eq_ok_iff.mp hs, decodePart_eq_ok_iff.mp hv, hne⟩
    · intro h
      obtain ⟨hs, hv, hne⟩ := h
      refine ⟨tag.1, decodePart_eq_ok_iff.mpr hs, ?_⟩
      rw [if_neg hne, decodePart_eq_ok_iff.mpr hv]
      rfl
  constructor
  · intro h
    by_cases hcolon : ':' ∈ text.toList
    · obtain ⟨name, value, hhalves⟩ := exists_halves hcolon
      exact ⟨name, value, hhalves, (hread hhalves).mp h⟩
    · rw [readPair_of_noColon hcolon] at h
      cases h
  · intro h
    obtain ⟨name, value, hhalves, htag⟩ := h
    exact (hread hhalves).mpr htag

/-- What was written as a tag is read back. -/
theorem readPair_of_writes {tag : String × String} {text : String} (h : Writes tag text) (hname : tag.1 ≠ "") :
    readPair text = .ok tag := by
  obtain ⟨nameOctets, valueOctets, hn, hv, htext⟩ := h
  obtain ⟨name, value, hsplit, hfirst, rfl, rfl⟩ := Utf8.exists_split htext hn.colon_not_mem
  exact readPair_eq_ok_iff.mpr ⟨name, value, ⟨hsplit, hfirst⟩, hn.standsFor, hv.standsFor, hname⟩

/-- A text is either read as a tag or has one of the faults. -/
theorem readPair_fails_iff {text : String} : (∃ e, readPair text = .error e) ↔ Unreadable text := by
  rw [← Outcome.isOk_eq_false_iff, Bool.eq_false_iff, ne_eq, Outcome.isOk_iff]
  constructor
  · intro h
    by_cases hcolon : ':' ∈ text.toList
    · obtain ⟨name, value, hhalves⟩ := exists_halves hcolon
      obtain ⟨nameOctets, hname⟩ := exists_standsFor name
      obtain ⟨valueOctets, hvalue⟩ := exists_standsFor value
      by_cases hn : ∃ s, Utf8.encode s = nameOctets
      · by_cases hv : ∃ s, Utf8.encode s = valueOctets
        · obtain ⟨n, rfl⟩ := hn
          obtain ⟨v, rfl⟩ := hv
          by_cases hempty : n = ""
          · subst hempty
            exact .noName hhalves hname
          · exact absurd ⟨(n, v), readPair_eq_ok_iff.mpr ⟨name, value, hhalves, hname, hvalue, hempty⟩⟩ h
        · exact .noText hhalves (.inr rfl) hvalue (not_exists.mp hv)
      · exact .noText hhalves (.inl rfl) hname (not_exists.mp hn)
    · exact .noColon hcolon
  · intro h hread
    obtain ⟨tag, htag⟩ := hread
    obtain ⟨name, value, hhalves, hname, hvalue, hne⟩ := readPair_eq_ok_iff.mp htag
    cases h with
    | noColon hcolon => exact hcolon hhalves.colon_mem
    | noText hhalves' hhalf hoctets hnone =>
      obtain ⟨rfl, rfl⟩ := hhalves.unique hhalves'
      rcases hhalf with rfl | rfl
      · exact hnone _ (hname.unique hoctets)
      · exact hnone _ (hvalue.unique hoctets)
    | noName hhalves' hnil =>
      obtain ⟨rfl, rfl⟩ := hhalves.unique hhalves'
      exact hne (Utf8.encode_inj.mp (hname.unique hnil))

theorem mapM_readPair_of_writes {tags : List (String × String)} {texts : List String}
    (h : List.Forall₂ Writes tags texts) (hnames : ∀ tag ∈ tags, tag.1 ≠ "") :
    texts.mapM readPair = .ok tags := by
  induction h with
  | nil => rfl
  | cons hwrites _ ih =>
    rw [List.forall_mem_cons] at hnames
    exact Outcome.mapM_cons_eq_ok_iff.mpr ⟨_, _, readPair_of_writes hwrites hnames.1, ih hnames.2, rfl⟩

/-- The value that the last of some tags gives to a name. -/
def lastValue? (tags : List (String × String)) (name : String) : Option String :=
  (tags.reverse.find? fun tag => tag.1 = name).map Prod.snd

/-- Tags that were written are read back, the last of those with one name; and of some texts nothing
is read just if one of them is no tag. -/
theorem readPairs_written :
    (∀ tags texts, List.Forall₂ Writes tags texts → (∀ tag ∈ tags, tag.1 ≠ "") →
      ∃ read, readPairs texts = .ok read ∧ ∀ name, read.find? name = lastValue? tags name) ∧
    ∀ texts, (∃ e, readPairs texts = .error e) ↔ ∃ text ∈ texts, Unreadable text := by
  constructor
  · intro tags texts hwrites hnames
    refine ⟨.ofList tags, ?_, SortedMap.find?_ofList tags⟩
    rw [readPairs, mapM_readPair_of_writes hwrites hnames]
    rfl
  · intro texts
    simp only [← readPair_fails_iff, ← Outcome.mapM_fails_iff]
    rw [readPairs]
    cases texts.mapM readPair <;> simp [bind, Except.bind, pure, Except.pure]

/-- A colon in a name, a percent sign and a letter of two octets, in digits of either case. -/
theorem readPairs_written_twice :
    let tags := [("a:b", "%"), ("a:b", "é")]
    let texts := ["a%3Ab:%25", "%61%3ab:%c3%A9"]
    List.Forall₂ Writes tags texts ∧ (∀ tag ∈ tags, tag.1 ≠ "") ∧
      (∃ read, readPairs texts = .ok read ∧ read.find? "a:b" = some "é") ∧
      Unreadable "a%3Ab" ∧ ∃ e, readPairs ["a%3Ab"] = .error e := by
  intro tags texts
  have hname : Utf8.encode "a:b" = [97, 58, 98] := rfl
  have hfirst : Writes ("a:b", "%") "a%3Ab:%25" := by
    refine ⟨[97, 37, 51, 65, 98], _, ?_, .escape true true 37 .nil, rfl⟩
    rw [hname]
    exact .plain (by simp) (by simp) (.escape true true 58 (.plain (by simp) (by simp) .nil))
  have hlast : Writes ("a:b", "é") "%61%3ab:%c3%A9" := by
    refine ⟨[37, 54, 49, 37, 51, 97, 98], _, ?_, .escape false true 0xC3 (.escape true true 0xA9 .nil), rfl⟩
    rw [hname]
    exact .escape true true 97 (.escape true false 58 (.plain (by simp) (by simp) .nil))
  have hwrites : List.Forall₂ Writes tags texts := .cons hfirst (.cons hlast .nil)
  have hnames : ∀ tag ∈ tags, tag.1 ≠ "" := by simp [tags]
  have hfault : Unreadable "a%3Ab" := .noColon (by simp)
  obtain ⟨read, hread, hfind⟩ := readPairs_written.1 tags texts hwrites hnames
  refine ⟨hwrites, hnames, ⟨read, hread, (hfind _).trans rfl⟩, hfault, ?_⟩
  exact (readPairs_written.2 _).mpr ⟨_, List.mem_singleton_self _, hfault⟩

end Tag

end TagStore
