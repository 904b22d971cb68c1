import Mathlib.Data.List.Forall2
import TagStore.Proofs.CalendarOrder
import TagStore.Proofs.Outcome
import TagStore.Proofs.Timestamps
import TagStore.Version.Ordering

namespace TagStore

namespace Rfc3339
open Outcome

theorem value?_lt {c : Char} {d : Nat} (h : Digits.value? c = some d) : d < 10 := by
  unfold Digits.value? at h
  split at h
  next hc =>
    have hle : c.toNat ≤ 57 := hc.2
    cases h
    omega
  · cases h

/-- A number that begins with `v` has one digit more, and then `n` others. -/
theorem lt_of_digit {v d n w : Nat} (hd : d < 10) (hw : w < (10 * v + d + 1) * 10 ^ n) :
    w < (v + 1) * 10 ^ (n + 1) := by
  have hpow : (10 * v + d + 1) * 10 ^ n ≤ 10 * (v + 1) * 10 ^ n := Nat.mul_le_mul_right _ (by omega)
  rw [Nat.pow_succ', ← Nat.mul_assoc, Nat.mul_comm (v + 1) 10]
  omega

theorem readDigits_lt {n v w : Nat} {cs rest : List Char} (h : readDigits v n cs = .ok (w, rest)) :
    w < (v + 1) * 10 ^ n := by
  induction n generalizing v cs with
  | zero =>
    cases h
    simp
  | succ n ih =>
    cases cs with
    | nil => cases h
    | cons c cs =>
      rw [readDigits] at h
      split at h
      next d hd => exact lt_of_digit (value?_lt hd) (ih h)
      · cases h

theorem leadingDigits_spec (n : Nat) (cs : List Char) :
    (leadingDigits n cs).1.length ≤ n ∧ ∀ d ∈ (leadingDigits n cs).1, d < 10 := by
  induction n generalizing cs with
  | zero => simp [leadingDigits]
  | succ n ih =>
    cases cs with
    | nil => simp [leadingDigits]
    | cons c cs =>
      rw [leadingDigits]
      split
      next d hd =>
        obtain ⟨hlength, hdigits⟩ := ih cs
        exact ⟨Nat.succ_le_succ hlength, List.forall_mem_cons.mpr ⟨value?_lt hd, hdigits⟩⟩
      · simp

theorem toNat_lt {ds : List Nat} (h : ∀ d ∈ ds, d < 10) : Digits.toNat ds < 10 ^ ds.length := by
  have hfold : ∀ v, ds.foldl (fun n d => 10 * n + d) v < (v + 1) * 10 ^ ds.length := by
    induction ds with
    | nil => simp
    | cons d ds ih =>
      intro v
      obtain ⟨hd, hds⟩ := List.forall_mem_cons.mp h
      rw [List.foldl_cons, List.length_cons]
      exact lt_of_digit hd (ih hds (10 * v + d))
  simpa [Digits.toNat] using hfold 0

theorem readNanos_lt {cs rest : List Char} {n : Nat} (h : readNanos cs = .ok (n, rest)) :
    n < Instant.nanosPerSecond := by
  obtain ⟨hlength, hdigits⟩ := leadingDigits_spec 9 cs
  unfold readNanos at h
  split at h
  · cases h
  · cases h
  next ds after _ _ hlead =>
    rw [hlead] at hlength hdigits
    cases h
    calc Digits.toNat ds * 10 ^ (9 - ds.length)
        < 10 ^ ds.length * 10 ^ (9 - ds.length) :=
          Nat.mul_lt_mul_of_pos_right (toNat_lt hdigits) (Nat.pow_pos (by omega))
      _ = 10 ^ 9 := by rw [← Nat.pow_add, Nat.add_sub_cancel' hlength]

theorem readOffset_dvd {between : List Char → Except Fault (List Char)} {cs rest : List Char} {offset : Int}
    (h : readOffset between cs = .ok (offset, rest)) : offset % 60 = 0 := by
  cases cs with
  | nil => cases h
  | cons c cs =>
    rw [readOffset] at h
    split at h
    · cases h
      rfl
    · split at h
      · obtain ⟨⟨hours, cs⟩, _, h⟩ := bind_eq_ok_iff.mp h
        obtain ⟨cs, _, h⟩ := bind_eq_ok_iff.mp h
        obtain ⟨⟨minutes, cs⟩, _, h⟩ := bind_eq_ok_iff.mp h
        cases h
        split <;> omega
      · cases h

/-- What a timestamp can say: the reading of a clock in a year of four digits, and how far the clock is
ahead of UTC. -/
structure Reading (t : ClockTime) (offset : Int) : Prop where
  valid : t.date.isValid = true
  year_nonneg : 0 ≤ t.date.year
  year_le : t.date.year ≤ 9999
  hour_le : t.hour ≤ 23
  minute_le : t.minute ≤ 59
  second_le : t.second ≤ 60
  nanos_lt : t.nanos < Instant.nanosPerSecond
  offset_minutes : offset % 60 = 0
  offset_lt : isOffset offset = true

/-- The instants that timestamps denote are near the years of four digits. -/
structure Denoted (i : Instant) : Prop where
  sound : i.Sound
  year_ge : -1 ≤ i.clock.date.year
  year_le : i.clock.date.year ≤ 10000

theorem read_eq_ok {text : String} {i : Instant} (h : read text = .ok i) :
    ∃ t offset, Reading t offset ∧ i = Instant.ofClock t offset := by
  unfold read at h
  split at h
  · cases h
  obtain ⟨⟨year, cs⟩, hyear, h⟩ := bind_eq_ok_iff.mp h
  obtain ⟨cs, _, h⟩ := bind_eq_ok_iff.mp h
  obtain ⟨⟨month, cs⟩, _, h⟩ := bind_eq_ok_iff.mp h
  obtain ⟨cs, _, h⟩ := bind_eq_ok_iff.mp h
  obtain ⟨⟨day, cs⟩, _, h⟩ := bind_eq_ok_iff.mp h
  dsimp only at h
  split at h
  · cases h
  next hvalid =>
  obtain ⟨cs, _, h⟩ := bind_eq_ok_iff.mp h
  obtain ⟨⟨hour, cs⟩, _, h⟩ := bind_eq_ok_iff.mp h
  obtain ⟨cs, _, h⟩ := bind_eq_ok_iff.mp h
  obtain ⟨⟨minute, cs⟩, _, h⟩ := bind_eq_ok_iff.mp h
  obtain ⟨cs, _, h⟩ := bind_eq_ok_iff.mp h
  obtain ⟨⟨second, cs⟩, _, h⟩ := bind_eq_ok_iff.mp h
  -- with a fraction and without one the reading goes on alike
  obtain ⟨nanos, cs, hnanos, h⟩ : ∃ nanos cs, nanos < Instant.nanosPerSecond ∧ (do
      if 23 < hour ∨ 59 < minute ∨ 60 < second then throw Fault.outOfRange
      let offset ← readOffset (readMark (· = ':')) cs
      if !offset.2.isEmpty then throw Fault.tooLong
      if !isOffset offset.1 then throw Fault.outOfRange
      return Instant.ofClock ⟨⟨year, month, day⟩, hour, minute, second, nanos⟩ offset.1) = .ok i := by
    dsimp only at h
    split at h
    · obtain ⟨⟨nanos, cs⟩, hnanos, h⟩ := bind_eq_ok_iff.mp h
      exact ⟨nanos, cs, readNanos_lt hnanos, h⟩
    · exact ⟨0, cs, by decide, h⟩
  split at h
  · cases h
  next hrange =>
  obtain ⟨⟨offset, cs⟩, hoffset, h⟩ := bind_eq_ok_iff.mp h
  dsimp only at h
  split at h
  · cases h
  split at h
  · cases h
  next hday =>
  cases h
  have hyear := readDigits_lt hyear
  exact ⟨_, offset, ⟨by simpa using hvalid, by simp, by simp only; omega, by simp only; omega,
    by simp only; omega,
    by simp only; omega, hnanos, readOffset_dvd hoffset, by simpa using hday⟩, rfl⟩

section
variable {t : ClockTime} {offset : Int} (h : Reading t offset)
include h

/-- Second 60 is counted with the second before it. -/
theorem Reading.ofClock_eq : ∃ second nanos : Nat,
    Instant.ofClock t offset =
        ⟨t.date.toDays * 86400 + t.hour * 3600 + t.minute * 60 + second - offset, nanos⟩ ∧
      (second = 59 ∧ nanos < 2 * Instant.nanosPerSecond ∨ second ≤ 59 ∧ nanos < Instant.nanosPerSecond) := by
  have hsecond := h.second_le
  have hnanos := h.nanos_lt
  unfold Instant.ofClock
  by_cases hleap : t.second = 60
  · exact ⟨59, t.nanos + Instant.nanosPerSecond, by simp only [hleap, if_true]; rfl, by omega⟩
  · exact ⟨t.second, t.nanos, by simp only [hleap, if_false]; rfl, by omega⟩

theorem Reading.offset_range : -86400 < offset ∧ offset < 86400 := by
  have hoffset := h.offset_lt
  rwa [isOffset, Bool.and_eq_true, decide_eq_true_eq, decide_eq_true_eq] at hoffset

/-- The instant is on the day that the clock shows, or on a day next to it. -/
theorem Reading.day_near : t.date.toDays - 1 ≤ (Instant.ofClock t offset).seconds / Instant.secondsPerDay ∧
    (Instant.ofClock t offset).seconds / Instant.secondsPerDay ≤ t.date.toDays + 1 := by
  have hhour := h.hour_le
  have hminute := h.minute_le
  have hoffset := h.offset_range
  obtain ⟨second, nanos, heq, hsecond⟩ := h.ofClock_eq
  rw [heq]
  simp only [Instant.secondsPerDay]
  omega

theorem Reading.sound : (Instant.ofClock t offset).Sound := by
  have hoffset := h.offset_minutes
  obtain ⟨second, nanos, heq, hsecond⟩ := h.ofClock_eq
  rw [heq]
  refine ⟨by dsimp only; omega, fun hleap => ?_⟩
  dsimp only at hleap ⊢
  omega

/-- An offset can lead out of the years of four digits, but into the next one only. -/
theorem Reading.denoted : Denoted (Instant.ofClock t offset) := by
  obtain ⟨hlow, hhigh⟩ := h.day_near
  have hfirst : Date.toDays ⟨0, 1, 1⟩ ≤ t.date.toDays := by
    rw [← Int.not_lt, Date.toDays_lt_iff h.valid (by decide), Date.Earlier]
    have hyear := h.year_nonneg
    have hvalid := h.valid
    simp only [Date.isValid, Bool.and_eq_true, decide_eq_true_eq] at hvalid
    dsimp only
    omega
  have hlast : t.date.toDays ≤ Date.toDays ⟨9999, 12, 31⟩ := by
    rw [← Int.not_lt, Date.toDays_lt_iff (by decide) h.valid, Date.Earlier]
    have hyear := h.year_le
    have hmonth := Date.le_of_isValid h.valid
    dsimp only
    omega
  have hbefore : (Date.ofDays (Date.toDays ⟨0, 1, 1⟩ - 1)).year = -1 := by decide
  have hafter : (Date.ofDays (Date.toDays ⟨9999, 12, 31⟩ + 1)).year = 10000 := by decide
  refine ⟨h.sound, ?_, ?_⟩
  · rw [← hbefore]
    exact Date.year_ofDays_le (by omega)
  · rw [← hafter]
    exact Date.year_ofDays_le (by omega)

end

theorem denoted_of_read {text : String} {i : Instant} (h : read text = .ok i) : Denoted i := by
  obtain ⟨t, offset, hreading, rfl⟩ := read_eq_ok h
  exact hreading.denoted

theorem digitChar_lt_iff {a b : Nat} (ha : a < 10) (hb : b < 10) : a.digitChar < b.digitChar ↔ a < b := by
  have hchar : a.digitChar < b.digitChar ↔ a.digitChar.toNat < b.digitChar.toNat := Iff.rfl
  rw [hchar, Nat.toNat_digitChar_of_lt_ten ha, Nat.toNat_digitChar_of_lt_ten hb]
  omega

theorem digitChar_inj {a b : Nat} (ha : a < 10) (hb : b < 10) : a.digitChar = b.digitChar ↔ a = b := by
  rw [← Char.toNat_inj, Nat.toNat_digitChar_of_lt_ten ha, Nat.toNat_digitChar_of_lt_ten hb]
  omega

/-- Numbers of one width are ordered as their texts are. -/
theorem padded_append_lt_iff {width n m : Nat} (hw : 0 < width) (hn : n < 10 ^ width) (hm : m < 10 ^ width)
    (rest rest' : List Char) :
    (padded width n).toList ++ rest < (padded width m).toList ++ rest' ↔ n < m ∨ n = m ∧ rest < rest' := by
  rw [toList_padded hw hn, toList_padded hw hm]
  clear hw
  induction width generalizing n m rest rest' with
  | zero =>
    obtain rfl : n = 0 := by omega
    obtain rfl : m = 0 := by omega
    simp [lastDigits]
  | succ width ih =>
    rw [Nat.pow_succ] at hn hm
    simp only [lastDigits, List.map_append, List.map_cons, List.map_nil, List.append_assoc, List.cons_append,
      List.nil_append]
    rw [ih (by omega) (by omega), List.cons_lt_cons_iff,
      digitChar_lt_iff (Nat.mod_lt _ (by omega)) (Nat.mod_lt _ (by omega)),
      digitChar_inj (Nat.mod_lt _ (by omega)) (Nat.mod_lt _ (by omega))]
    by_cases hrest : rest < rest'
    · simp only [hrest, and_true]
      omega
    · simp only [hrest, and_false, or_false]
      omega

/-- Numbers in a row, each after a mark and with a width, and a text at the end. -/
def row (last : List Char) : List (Char × Nat) → List Nat → List Char
  | (mark, width) :: layout, n :: ns => mark :: ((padded width n).toList ++ row last layout ns)
  | _, _ => last

/-- Whether numbers have the widths that they are written with. -/
def Fits : List (Char × Nat) → List Nat → Prop := List.Forall₂ fun part n => 0 < part.2 ∧ n < 10 ^ part.2

theorem row_lt_iff (last : List Char) {layout : List (Char × Nat)} {ns ms : List Nat} (hn : Fits layout ns)
    (hm : Fits layout ms) : row last layout ns < row last layout ms ↔ ns < ms := by
  induction hn generalizing ms with
  | nil =>
    cases hm
    simp [row]
  | cons hpart hn ih =>
    cases hm with
    | cons hpart' hm =>
      rw [row, row, List.cons_lt_cons_self, padded_append_lt_iff hpart.1 hpart.2 hpart'.2, ih hm,
        List.cons_lt_cons_iff]

/-- A year's place among the years that timestamps can lead to, by their texts: the one with a plus sign
comes first, before the one with a minus sign. -/
def yearRank (year : Int) : Int := if 9999 < year then -2 else year

theorem yearText_cases {year : Int} (hlow : -1 ≤ year) (hhigh : year ≤ 10000) :
    year = -1 ∧ (yearText year).toList = ['-', '0', '0', '0', '1'] ∨
      (0 ≤ year ∧ year ≤ 9999) ∧ yearText year = padded 4 year.toNat ∨
      year = 10000 ∧ (yearText year).toList = ['+', '1', '0', '0', '0', '0'] := by
  rcases Int.lt_or_le year 0 with hneg | hnonneg
  · obtain rfl : year = -1 := by omega
    exact .inl ⟨rfl, by decide⟩
  · rcases Int.lt_or_le 9999 year with hgreat | hle
    · obtain rfl : year = 10000 := by omega
      exact .inr (.inr ⟨rfl, by decide⟩)
    · exact .inr (.inl ⟨⟨hnonneg, hle⟩, yearText_of_le hnonneg hle⟩)

/-- A number's text begins with a digit, which comes after both signs. -/
theorem padded_cons (n : Nat) (h : n < 10 ^ 4) : ∃ c cs, (padded 4 n).toList = c :: cs ∧ '+' < c ∧ '-' < c := by
  have hdigit : ∀ d : Fin 10, '+' < d.val.digitChar ∧ '-' < d.val.digitChar := by decide
  rw [toList_padded (by omega) h]
  simp only [lastDigits, List.nil_append, List.cons_append, List.map_cons]
  exact ⟨_, _, rfl, hdigit ⟨_, Nat.mod_lt _ (by omega)⟩⟩

theorem yearText_append_lt_iff {year year' : Int} (hlow : -1 ≤ year) (hhigh : year ≤ 10000)
    (hlow' : -1 ≤ year') (hhigh' : year' ≤ 10000) (rest rest' : List Char) :
    (yearText year).toList ++ rest < (yearText year').toList ++ rest' ↔
      yearRank year < yearRank year' ∨ year = year' ∧ rest < rest' := by
  have hminus : yearRank (-1) = -1 := rfl
  have hplus : yearRank 10000 = -2 := rfl
  have hplain : ∀ {y : Int}, y ≤ 9999 → yearRank y = y := fun h => if_neg (by omega)
  -- years of different signs are told apart by the first character
  have hbefore : ∀ {c c' : Char} (cs cs' : List Char), c < c' → yearRank year < yearRank year' →
      (c :: cs ++ rest < c' :: cs' ++ rest' ↔ yearRank year < yearRank year' ∨ year = year' ∧ rest < rest') :=
    fun _ _ hc hyear => iff_of_true (List.cons_lt_cons_iff.mpr (.inl hc)) (.inl hyear)
  have hafter : ∀ {c c' : Char} (cs cs' : List Char), c' < c → yearRank year' < yearRank year →
      (c :: cs ++ rest < c' :: cs' ++ rest' ↔ yearRank year < yearRank year' ∨ year = year' ∧ rest < rest') := by
    intro c c' cs cs' hc hyear
    refine iff_of_false (fun hlt => ?_) (fun hor => ?_)
    · exact List.lt_asymm hlt (List.cons_lt_cons_iff.mpr (.inl hc))
    · rcases hor with hlt | ⟨rfl, _⟩ <;> omega
  rcases yearText_cases hlow hhigh with ⟨rfl, htext⟩ | ⟨hyear, htext⟩ | ⟨rfl, htext⟩
  · rw [htext]
    rcases yearText_cases hlow' hhigh' with ⟨rfl, htext'⟩ | ⟨hyear', htext'⟩ | ⟨rfl, htext'⟩
    · simp [htext']
    · obtain ⟨c, cs, hcons, _, hc⟩ := padded_cons year'.toNat (by omega)
      rw [htext', hcons]
      exact hbefore _ _ hc (by rw [hminus, hplain hyear'.2]; omega)
    · rw [htext']
      exact hafter _ _ (by decide) (by decide)
  · obtain ⟨c, cs, hcons, hc, hc'⟩ := padded_cons year.toNat (by omega)
    rw [htext]
    rcases yearText_cases hlow' hhigh' with ⟨rfl, htext'⟩ | ⟨hyear', htext'⟩ | ⟨rfl, htext'⟩
    · rw [htext', hcons]
      exact hafter _ _ hc' (by rw [hminus, hplain hyear.2]; omega)
    · rw [htext', hplain hyear.2, hplain hyear'.2, padded_append_lt_iff (by omega) (by omega) (by omega)]
      have heq : year.toNat = year'.toNat ↔ year = year' := by omega
      rw [heq]
      exact or_congr_left (by omega)
    · rw [htext', hcons]
      exact hafter _ _ hc (by rw [hplus, hplain hyear.2]; omega)
  · rw [htext]
    rcases yearText_cases hlow' hhigh' with ⟨rfl, htext'⟩ | ⟨hyear', htext'⟩ | ⟨rfl, htext'⟩
    · rw [htext']
      exact hbefore _ _ (by decide) (by decide)
    · obtain ⟨c, cs, hcons, hc, _⟩ := padded_cons year'.toNat (by omega)
      rw [htext', hcons]
      exact hbefore _ _ hc (by rw [hplus, hplain hyear'.2]; omega)
    · simp [htext']

end Rfc3339

namespace Version

/-- The numbers of a time's text after its year, each with the mark before it and its width. -/
def layout : List (Char × Nat) := [('-', 2), ('-', 2), ('T', 2), (':', 2), (':', 2), ('.', 9)]

theorem toList_write_row (i : Instant) : (Rfc3339.write 9 i).toList =
    (Rfc3339.yearText i.clock.date.year).toList ++ Rfc3339.row ['Z'] layout i.clock.parts := by
  rw [Rfc3339.toList_write_yearText (by omega), Nat.sub_self, Nat.pow_zero, Nat.div_one]
  rfl

theorem fits_layout {i : Instant} (hi : i.Sound) : Rfc3339.Fits layout i.clock.parts := by
  obtain ⟨hmonth, hday, hhour, hminute, hsecond⟩ := Rfc3339.clock_lt i
  have hnanos : i.clock.nanos < 10 ^ 9 := by
    have hlt := hi.nanos_lt
    have hshown : i.clock.nanos =
        if Instant.nanosPerSecond ≤ i.nanos then i.nanos - Instant.nanosPerSecond else i.nanos := rfl
    rw [hshown]
    split <;> simp only [Instant.nanosPerSecond] at * <;> omega
  simp only [Rfc3339.Fits, layout, ClockTime.parts, List.forall₂_cons, List.forall₂_nil_left_iff, and_true]
  omega

section
variable {i j : Instant} (hi : Rfc3339.Denoted i) (hj : Rfc3339.Denoted j)
include hi hj

theorem write_lt_iff : Rfc3339.write 9 i < Rfc3339.write 9 j ↔
    Rfc3339.yearRank i.clock.date.year < Rfc3339.yearRank j.clock.date.year ∨
      i.clock.date.year = j.clock.date.year ∧ i.clock.parts < j.clock.parts := by
  rw [String.lt_iff, toList_write_row, toList_write_row,
    Rfc3339.yearText_append_lt_iff hi.year_ge hi.year_le hj.year_ge hj.year_le,
    Rfc3339.row_lt_iff ['Z'] (fits_layout hi.sound) (fits_layout hj.sound)]

/-- Texts of times are in the order of time, as long as none or both of them have a plus sign. -/
theorem write_lt_iff_before (hyears : 9999 < i.clock.date.year ↔ 9999 < j.clock.date.year) :
    Rfc3339.write 9 i < Rfc3339.write 9 j ↔ i.before j = true := by
  have hrank : Rfc3339.yearRank i.clock.date.year < Rfc3339.yearRank j.clock.date.year ↔
      i.clock.date.year < j.clock.date.year := by
    have hi' := hi.year_le
    have hj' := hj.year_le
    unfold Rfc3339.yearRank
    split <;> split <;> omega
  rw [write_lt_iff hi hj, Instant.before_iff hi.sound hj.sound, hrank]

/-- A text with a plus sign is of a later time, but comes first. -/
theorem write_lt_of_later (hyear : i.clock.date.year ≤ 9999) (hyear' : 9999 < j.clock.date.year) :
    i.before j = true ∧ Rfc3339.write 9 j < Rfc3339.write 9 i := by
  have hlow := hi.year_ge
  have hrank : Rfc3339.yearRank j.clock.date.year < Rfc3339.yearRank i.clock.date.year := by
    rw [Rfc3339.yearRank, if_pos hyear', Rfc3339.yearRank, if_neg (by omega)]
    omega
  rw [Instant.before_iff hi.sound hj.sound, write_lt_iff hj hi]
  exact ⟨.inl (by omega), .inl hrank⟩

theorem write_ne_of_before (h : i.before j = true) : Rfc3339.write 9 i ≠ Rfc3339.write 9 j := by
  intro hsame
  by_cases hyears : 9999 < i.clock.date.year ↔ 9999 < j.clock.date.year
  · have hlt := (write_lt_iff_before hi hj hyears).mpr h
    rw [hsame] at hlt
    exact String.lt_irrefl _ hlt
  · have hle := (Instant.before_iff hi.sound hj.sound).mp h
    have hlt := (write_lt_of_later hi hj (by omega) (by omega)).2
    rw [hsame] at hlt
    exact String.lt_irrefl _ hlt

/-- A text to the nanosecond tells the instant. -/
theorem write_inj : Rfc3339.write 9 i = Rfc3339.write 9 j ↔ i = j := by
  refine ⟨fun hsame => ?_, congrArg _⟩
  rcases Instant.before_or_eq_or_after i j with hbefore | heq | hafter
  · exact absurd hsame (write_ne_of_before hi hj hbefore)
  · exact heq
  · exact absurd hsame.symm (write_ne_of_before hj hi hafter)

end

theorem orderingText_eq_ok_iff {value : Json} {s : String} : orderingText value = .ok s ↔
    ∃ text i, value = .string text ∧ Rfc3339.read text = .ok i ∧ s = Rfc3339.write 9 i := by
  constructor
  · intro h
    unfold orderingText at h
    split at h
    next text =>
      split at h
      next i hread => exact ⟨text, i, rfl, hread, (Except.ok.inj h).symm⟩
      · cases h
    · cases h
  · intro ⟨text, i, hvalue, hread, hs⟩
    rw [hvalue, hs]
    simp only [orderingText, hread]

/-- Times have the same text if and only if they are the same instant. Their texts are in the order of time,
except that those of the year 10000, into which an offset can lead, come before all others. -/
theorem orderingText_order {a b : Json} {s t : String} (ha : orderingText a = .ok s)
    (hb : orderingText b = .ok t) :
    ∃ x y i j, a = .string x ∧ Rfc3339.read x = .ok i ∧ b = .string y ∧ Rfc3339.read y = .ok j ∧
      (s = t ↔ i = j) ∧
      ((9999 < i.clock.date.year ↔ 9999 < j.clock.date.year) → (s < t ↔ i.before j = true)) ∧
      (i.clock.date.year ≤ 9999 → 9999 < j.clock.date.year → i.before j = true ∧ t < s) := by
  obtain ⟨x, i, rfl, hi, rfl⟩ := orderingText_eq_ok_iff.mp ha
  obtain ⟨y, j, rfl, hj, rfl⟩ := orderingText_eq_ok_iff.mp hb
  have hdenoted := Rfc3339.denoted_of_read hi
  have hdenoted' := Rfc3339.denoted_of_read hj
  exact ⟨x, y, i, j, rfl, hi, rfl, hj, write_inj hdenoted hdenoted', write_lt_iff_before hdenoted hdenoted',
    write_lt_of_later hdenoted hdenoted'⟩

/-- A leap second of one zone, and an instant after it that another zone tells. -/
theorem orderingText_order_leapSecond :
    ∃ s t, orderingText (.string "2016-12-31T23:59:60.5Z") = .ok s ∧
      orderingText (.string "2017-01-01T05:30:00.25+05:30") = .ok t ∧ s < t := by
  have hread : Rfc3339.read "2016-12-31T23:59:60.5Z" = .ok ⟨1483228799, 1500000000⟩ := by decide +kernel
  have hread' : Rfc3339.read "2017-01-01T05:30:00.25+05:30" = .ok ⟨1483228800, 250000000⟩ := by decide +kernel
  have ha := orderingText_eq_ok_iff.mpr ⟨_, _, rfl, hread, rfl⟩
  have hb := orderingText_eq_ok_iff.mpr ⟨_, _, rfl, hread', rfl⟩
  obtain ⟨x, y, i, j, hx, hi, hy, hj, _, hlt, _⟩ := orderingText_order ha hb
  obtain rfl := Json.string.inj hx
  obtain rfl := Json.string.inj hy
  obtain rfl := Except.ok.inj (hread.symm.trans hi)
  obtain rfl := Except.ok.inj (hread'.symm.trans hj)
  exact ⟨_, _, ha, hb, (hlt (by decide)).mpr (by decide)⟩

/-- An offset leads into the year 10000, and the text of that time comes before the text of an earlier one. -/
theorem orderingText_fiveDigits :
    Rfc3339.read "2024-01-01T00:00:00Z" = .ok ⟨1704067200, 0⟩ ∧
      Rfc3339.read "9999-12-31T23:59:59-01:00" = .ok ⟨253402304399, 0⟩ ∧
      Instant.before ⟨1704067200, 0⟩ ⟨253402304399, 0⟩ = true ∧
      orderingText (.string "2024-01-01T00:00:00Z") = .ok "2024-01-01T00:00:00.000000000Z" ∧
      orderingText (.string "9999-12-31T23:59:59-01:00") = .ok "+10000-01-01T00:59:59.000000000Z" ∧
      "+10000-01-01T00:59:59.000000000Z" < "2024-01-01T00:00:00.000000000Z" := by
  have hread : Rfc3339.read "2024-01-01T00:00:00Z" = .ok ⟨1704067200, 0⟩ := by decide +kernel
  have hread' : Rfc3339.read "9999-12-31T23:59:59-01:00" = .ok ⟨253402304399, 0⟩ := by decide +kernel
  exact ⟨hread, hread', by decide, orderingText_eq_ok_iff.mpr ⟨_, _, rfl, hread, by decide +kernel⟩,
    orderingText_eq_ok_iff.mpr ⟨_, _, rfl, hread', by decide +kernel⟩, by decide +kernel⟩

end Version

end TagStore
