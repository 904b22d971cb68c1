import Mathlib.Algebra.Group.Nat.Defs
import TagStore.Proofs.Dates
import TagStore.Proofs.Outcome
import TagStore.Time.Rfc3339.Reader
import TagStore.Time.Rfc3339.Writer

namespace TagStore.Rfc3339

/-- The last digits of a number, as many as a width asks for. -/
def lastDigits : (width n : Nat) → List Nat
  | 0, _ => []
  | width + 1, n => lastDigits width (n / 10) ++ [n % 10]

theorem length_lastDigits (width n : Nat) : (lastDigits width n).length = width := by
  induction width generalizing n with
  | zero => rfl
  | succ width ih => simp [lastDigits, ih]

theorem lt_of_mem_lastDigits {width n d : Nat} (h : d ∈ lastDigits width n) : d < 10 := by
  induction width generalizing n with
  | zero => cases h
  | succ width ih =>
    rcases List.mem_append.mp h with h | h
    · exact ih h
    · rw [List.mem_singleton] at h
      omega

theorem foldl_lastDigits (width v n : Nat) :
    (lastDigits width n).foldl (fun n d => 10 * n + d) v = v * 10 ^ width + n % 10 ^ width := by
  induction width generalizing n with
  | zero => simp [lastDigits, Nat.mod_one]
  | succ width ih =>
    rw [lastDigits, List.foldl_append, ih, List.foldl_cons, List.foldl_nil, Nat.pow_succ',
      Nat.mod_mul, Nat.mul_add, ← Nat.mul_assoc, ← Nat.mul_assoc, Nat.mul_comm 10 v]
    omega

theorem toList_padded {width n : Nat} (hw : 0 < width) (h : n < 10 ^ width) :
    (padded width n).toList = (lastDigits width n).map Nat.digitChar := by
  simp only [padded, String.toList_ofList]
  induction width generalizing n with
  | zero => omega
  | succ width ih =>
    rw [lastDigits, List.map_append]
    by_cases hn : n < 10
    · rw [Nat.toDigits_of_lt_base hn, Nat.mod_eq_of_lt hn, Nat.div_eq_of_lt hn]
      cases width with
      | zero => rfl
      | succ width =>
        rw [← ih (Nat.succ_pos _) (Nat.pow_pos (by omega)), Nat.toDigits_zero]
        simp only [List.length_singleton, Nat.add_sub_cancel, List.map_cons, List.map_nil,
          List.append_left_inj]
        exact List.replicate_succ'
    · have hwidth : 0 < width := by
        rcases Nat.eq_zero_or_pos width with rfl | hpos
        · omega
        · exact hpos
      rw [Nat.toDigits_of_base_le (by omega) (by omega), ← ih hwidth (by rw [Nat.pow_succ] at h; omega),
        List.length_append, List.length_singleton, Nat.succ_sub_succ, List.append_assoc]
      rfl

theorem value?_digitChar {d : Nat} (h : d < 10) : Digits.value? d.digitChar = some d := by
  have hall : ∀ d : Fin 10, Digits.value? d.val.digitChar = some d.val := by decide
  exact hall ⟨d, h⟩

theorem readDigits_map {ds : List Nat} (h : ∀ d ∈ ds, d < 10) (v : Nat) (rest : List Char) :
    readDigits v ds.length (ds.map Nat.digitChar ++ rest) =
      .ok (ds.foldl (fun n d => 10 * n + d) v, rest) := by
  induction ds generalizing v with
  | nil => rfl
  | cons d ds ih =>
    simp only [List.map_cons, List.cons_append, List.length_cons, readDigits,
      value?_digitChar (h d List.mem_cons_self), List.foldl_cons]
    exact ih (fun e he => h e (List.mem_cons_of_mem _ he)) _

/-- A number that was written with a width of digits is read back from that many. -/
theorem readDigits_padded (width : Nat) {n : Nat} (hw : 0 < width) (h : n < 10 ^ width) (rest : List Char) :
    readDigits 0 width ((padded width n).toList ++ rest) = .ok (n, rest) := by
  have hdigits : ∀ d ∈ lastDigits width n, d < 10 := fun d => lt_of_mem_lastDigits
  have hread := readDigits_map hdigits 0 rest
  rw [length_lastDigits, foldl_lastDigits, Nat.zero_mul, Nat.zero_add, Nat.mod_eq_of_lt h] at hread
  rw [toList_padded hw h, hread]

theorem leadingDigits_map {ds : List Nat} (h : ∀ d ∈ ds, d < 10) {k : Nat} (hk : ds.length ≤ k)
    {c : Char} (hc : Digits.value? c = none) (rest : List Char) :
    leadingDigits k (ds.map Nat.digitChar ++ c :: rest) = (ds, c :: rest) := by
  induction ds generalizing k with
  | nil => cases k <;> simp [leadingDigits, hc]
  | cons d ds ih =>
    obtain ⟨k, rfl⟩ : ∃ k', k = k' + 1 := ⟨k - 1, by simp at hk; omega⟩
    have hrest := ih (fun e he => h e (List.mem_cons_of_mem _ he)) (Nat.le_of_succ_le_succ hk)
    simp only [List.map_cons, List.cons_append, leadingDigits, value?_digitChar (h d List.mem_cons_self),
      hrest]

/-- The digits of a fraction are read as nanoseconds. -/
theorem readNanos_padded {places n : Nat} (hp : 0 < places) (hp9 : places ≤ 9) (h : n < 10 ^ places)
    {c : Char} (hc : Digits.value? c = none) (rest : List Char) :
    readNanos ((padded places n).toList ++ c :: rest) = .ok (n * 10 ^ (9 - places), c :: rest) := by
  have hfold := foldl_lastDigits places 0 n
  rw [Nat.zero_mul, Nat.zero_add, Nat.mod_eq_of_lt h] at hfold
  have hdigits : ∀ d ∈ lastDigits places n, d < 10 := fun d => lt_of_mem_lastDigits
  have hlength : (lastDigits places n).length ≤ 9 := by
    rw [length_lastDigits]
    exact hp9
  have hlead := leadingDigits_map hdigits hlength hc rest
  rw [toList_padded hp h, readNanos, hlead]
  have hne : lastDigits places n ≠ [] := by
    intro he
    have hlen := length_lastDigits places n
    rw [he, List.length_nil] at hlen
    omega
  split
  · exact absurd (by assumption) (by simp)
  · rename_i heq
    exact absurd (Prod.mk.inj heq).1 hne
  · rename_i ds rest' _ heq
    obtain ⟨rfl, rfl⟩ := Prod.mk.inj heq
    rw [Digits.toNat, hfold, length_lastDigits]
    simp [List.dropWhile, hc]

theorem length_le_utf8ByteSize (s : String) : s.toList.length ≤ s.utf8ByteSize := by
  obtain ⟨cs, rfl⟩ : ∃ cs, s = String.ofList cs := ⟨s.toList, by simp⟩
  rw [String.toList_ofList, ← String.size_toByteArray, String.toByteArray_ofList]
  induction cs with
  | nil => simp
  | cons c cs ih =>
    rw [List.utf8Encode_cons, ByteArray.size_append, List.length_cons]
    have hc : 0 < ([c].utf8Encode).size := by
      have hpos := Char.utf8Size_pos c
      rwa [← String.utf8ByteSize_singleton, ← String.size_toByteArray, String.toByteArray_singleton]
        at hpos
    omega

/-- A reading that there is, of a clock that shows a year of four digits. -/
structure Readable (i : Instant) : Prop where
  reading : Instant.ofReading? i.seconds i.nanos = some i
  year_nonneg : 0 ≤ i.clock.date.year
  year_le : i.clock.date.year ≤ 9999

theorem toList_write_yearText {places : Nat} (hp : 0 < places) (i : Instant) :
    (write places i).toList =
      (yearText i.clock.date.year).toList ++ '-' :: ((padded 2 i.clock.date.month).toList ++
        '-' :: ((padded 2 i.clock.date.day).toList ++ 'T' :: ((padded 2 i.clock.hour).toList ++
          ':' :: ((padded 2 i.clock.minute).toList ++ ':' :: ((padded 2 i.clock.second).toList ++
            '.' :: ((padded places (i.clock.nanos / 10 ^ (9 - places))).toList ++ ['Z'])))))) := by
  have hp0 : places ≠ 0 := by omega
  have hmarks : "-".toList = ['-'] ∧ "T".toList = ['T'] ∧ ":".toList = [':'] ∧ ".".toList = ['.'] ∧
      "Z".toList = ['Z'] := by decide
  simp only [write, dateText, if_neg hp0, String.toList_append, hmarks, List.append_assoc,
    List.cons_append, List.nil_append, Nat.pow_eq]

/-- Only a year of four digits is read back. -/
theorem year_of_read_write {places : Nat} (hp : 0 < places) {i j : Instant} (h : read (write places i) = .ok j) :
    0 ≤ i.clock.date.year ∧ i.clock.date.year ≤ 9999 := by
  refine Classical.byContradiction fun hyear => ?_
  have hsign : ∃ c cs, (write places i).toList = c :: cs ∧ Digits.value? c = none := by
    rw [toList_write_yearText hp, yearText, if_neg hyear, String.toList_append]
    split
    · exact ⟨'-', _, rfl, by decide⟩
    · exact ⟨'+', _, rfl, by decide⟩
  obtain ⟨c, cs, hcs, hc⟩ := hsign
  unfold read at h
  split at h
  · cases h
  · obtain ⟨_, hdigits, _⟩ := Outcome.bind_eq_ok_iff.mp h
    rw [hcs, readDigits, hc] at hdigits
    cases hdigits

theorem yearText_of_le {year : Int} (h0 : 0 ≤ year) (h : year ≤ 9999) : yearText year = padded 4 year.toNat :=
  if_pos ⟨h0, h⟩

theorem toList_write {places : Nat} (hp : 0 < places) {i : Instant} (hi : Readable i) :
    (write places i).toList =
      (padded 4 i.clock.date.year.toNat).toList ++ '-' :: ((padded 2 i.clock.date.month).toList ++
        '-' :: ((padded 2 i.clock.date.day).toList ++ 'T' :: ((padded 2 i.clock.hour).toList ++
          ':' :: ((padded 2 i.clock.minute).toList ++ ':' :: ((padded 2 i.clock.second).toList ++
            '.' :: ((padded places (i.clock.nanos / 10 ^ (9 - places))).toList ++ ['Z'])))))) := by
  rw [toList_write_yearText hp i, yearText_of_le hi.year_nonneg hi.year_le]

theorem Readable.nanos {i : Instant} (hi : Readable i) :
    i.nanos < Instant.nanosPerSecond ∨
      Instant.nanosPerSecond ≤ i.nanos ∧ i.nanos < 2 * Instant.nanosPerSecond ∧ i.seconds % 60 = 59 := by
  have hr := hi.reading
  unfold Instant.ofReading? at hr
  split at hr
  · cases hr
  · split at hr
    · exact .inl ‹_›
    · split at hr
      next h => exact .inr ⟨by omega, h⟩
      · cases hr

/-- What a clock shows makes up the instant again, as far as its nanoseconds are kept. -/
theorem ofClock_clock {i : Instant} (hi : Readable i) {k q : Nat} (hk : 10 ^ 9 = k * q) (hk0 : 0 < k) :
    Instant.ofClock { i.clock with nanos := i.clock.nanos / k * k } 0 =
      { i with nanos := i.nanos / k * k } := by
  have hday : (Date.ofDays (i.seconds / 86400)).toDays = i.seconds / 86400 := Date.toDays_ofDays _
  have hinDay : ((i.seconds % 86400).toNat : Int) = i.seconds % 86400 := by omega
  have hminute := Int.emod_emod_of_dvd i.seconds (show (60 : Int) ∣ 86400 by omega)
  rcases hi.nanos with hn | ⟨hn, hn2, hs⟩
  · have hleap : ¬ Instant.nanosPerSecond ≤ i.nanos := by omega
    have hsecond : (i.seconds % 86400).toNat % 60 ≠ 60 := by omega
    simp only [Instant.ofClock, Instant.clock, Instant.secondsPerDay, hleap, if_false, hsecond, hday,
      Instant.mk.injEq, and_true]
    omega
  · have hsecond : (i.seconds % 86400).toNat % 60 + 1 = 60 := by omega
    have hk' : Instant.nanosPerSecond = k * q := hk
    have hdiv : (i.nanos - k * q) / k + q = i.nanos / k := by
      rw [hk'] at hn
      conv => rhs; rw [← Nat.sub_add_cancel hn, Nat.add_mul_div_left _ _ hk0]
    simp only [Instant.ofClock, Instant.clock, Instant.secondsPerDay, hn, if_true, hsecond, hday,
      Instant.mk.injEq]
    refine ⟨by omega, ?_⟩
    rw [hk', ← hdiv, Nat.add_mul, Nat.mul_comm k q]

theorem length_padded (width : Nat) {n : Nat} (hw : 0 < width) (h : n < 10 ^ width) :
    (padded width n).toList.length = width := by
  rw [toList_padded hw h, List.length_map, length_lastDigits]

section
variable {i : Instant} (hi : Readable i)
include hi

theorem Readable.year_lt : i.clock.date.year.toNat < 10 ^ 4 := by
  have hyear := hi.year_le
  omega

omit hi in
theorem clock_lt (i : Instant) : i.clock.date.month < 10 ^ 2 ∧ i.clock.date.day < 10 ^ 2 ∧
    i.clock.hour ≤ 23 ∧ i.clock.minute ≤ 59 ∧ i.clock.second ≤ 60 := by
  have hdate := Date.le_of_isValid (Date.isValid_ofDays (i.seconds / Instant.secondsPerDay))
  have hinDay : (i.seconds % Instant.secondsPerDay).toNat < 86400 := by
    simp only [Instant.secondsPerDay]
    omega
  simp only [Instant.clock]
  refine ⟨by omega, by omega, by omega, by omega, ?_⟩
  split <;> omega

theorem Readable.fraction_lt {places : Nat} (hp9 : places ≤ 9) :
    i.clock.nanos / 10 ^ (9 - places) < 10 ^ places := by
  rw [Nat.div_lt_iff_lt_mul (Nat.pow_pos (by omega)), ← Nat.pow_add, Nat.add_sub_cancel' hp9]
  have hn := hi.nanos
  have hsecond : Instant.nanosPerSecond = 10 ^ 9 := rfl
  by_cases hleap : Instant.nanosPerSecond ≤ i.nanos
  · simp only [Instant.clock, hleap, if_true]
    omega
  · simp only [Instant.clock, hleap, if_false]
    omega

/-- An instant that a clock shows is read back from its text, to the places of its text. -/
theorem read_write {places : Nat} (hp : 0 < places) (hp9 : places ≤ 9) : read (write places i) =
    .ok { i with nanos := i.nanos / 10 ^ (9 - places) * 10 ^ (9 - places) } := by
  obtain ⟨hmonth, hday, hhour, hminute, hsecond⟩ := clock_lt i
  have hhour2 : i.clock.hour < 10 ^ 2 := by omega
  have hminute2 : i.clock.minute < 10 ^ 2 := by omega
  have hsecond2 : i.clock.second < 10 ^ 2 := by omega
  have hvalid : i.clock.date.isValid = true := Date.isValid_ofDays _
  have hdate : (⟨(i.clock.date.year.toNat : Nat), i.clock.date.month, i.clock.date.day⟩ : Date) =
      i.clock.date := by
    rw [Int.toNat_of_nonneg hi.year_nonneg]
  have hsize : ¬ (write places i).utf8ByteSize < leastSize := by
    have hlen := length_le_utf8ByteSize (write places i)
    rw [toList_write hp hi] at hlen
    simp only [List.length_append, List.length_cons, length_padded 4 (by omega) hi.year_lt,
      length_padded 2 (by omega) hmonth, length_padded 2 (by omega) hday,
      length_padded 2 (by omega) hhour2, length_padded 2 (by omega) hminute2,
      length_padded 2 (by omega) hsecond2] at hlen
    simp only [leastSize]
    omega
  have hnanos := readNanos_padded hp hp9 (hi.fraction_lt hp9) (c := 'Z') (by decide) []
  have hback := ofClock_clock hi (k := 10 ^ (9 - places)) (q := 10 ^ places)
    (by rw [← Nat.pow_add, Nat.sub_add_cancel hp9]) (Nat.pow_pos (by omega))
  have hrange : ¬ (23 < i.clock.hour ∨ 59 < i.clock.minute ∨ 60 < i.clock.second) := by omega
  simp only [read, if_neg hsize, toList_write hp hi, readDigits_padded 4 (by omega) hi.year_lt,
    readDigits_padded 2 (by omega) hmonth, readDigits_padded 2 (by omega) hday,
    readDigits_padded 2 (by omega) hhour2,
    readDigits_padded 2 (by omega) hminute2,
    readDigits_padded 2 (by omega) hsecond2, readMark, isDateMark, decide_true, eq_self,
    Bool.true_or, Bool.not_true, Bool.false_eq_true, if_true, if_false, hdate, hvalid, hnanos, bind,
    Except.bind, pure, Except.pure, if_neg hrange]
  simp [readOffset, isOffset, Instant.secondsPerDay, hback]

/-- A time is stored to the millisecond, and as such it is read back. -/
theorem read_write_millis : read (write 3 i) = .ok i.toMillis :=
  read_write hi (by omega) (by omega)

end

theorem write_toMillis (i : Instant) : write 3 i.toMillis = write 3 i := by
  have hleap : Instant.nanosPerSecond ≤ i.nanos / 1000000 * 1000000 ↔ Instant.nanosPerSecond ≤ i.nanos := by
    simp only [Instant.nanosPerSecond]
    omega
  have hsecond : Instant.nanosPerSecond = 1000 * 1000000 := rfl
  simp only [write, Instant.clock, Instant.toMillis, hleap, Nat.pow_eq]
  by_cases h : Instant.nanosPerSecond ≤ i.nanos
  · have hnanos : (i.nanos / 1000000 * 1000000 - Instant.nanosPerSecond) / 10 ^ (9 - 3) =
        (i.nanos - Instant.nanosPerSecond) / 10 ^ (9 - 3) := by
      omega
    simp only [h, if_true, hnanos]
  · have hnanos : i.nanos / 1000000 * 1000000 / 10 ^ (9 - 3) = i.nanos / 10 ^ (9 - 3) := by omega
    simp only [h, if_false, hnanos]

end TagStore.Rfc3339
