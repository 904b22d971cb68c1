import Mathlib.Order.Monotone.Basic
import TagStore.Proofs.Dates
import TagStore.Time.Instant

namespace TagStore

namespace Date

/-- How many months lie between a date's month and the March of year 0. -/
def monthNumber (d : Date) : Int := 12 * d.year + d.month - 3

/-- The day number of a month's first day. -/
def monthStart (month : Int) : Int :=
  let year := month / 12
  365 * year + year / 4 - year / 100 + year / 400 + (153 * (month % 12) + 2) / 5 - epochDay

variable {d e : Date}

theorem toDays_eq (h1 : 1 ≤ d.month) (h12 : d.month ≤ 12) :
    d.toDays = monthStart d.monthNumber + d.day - 1 := by
  have hyear : (if d.month ≤ 2 then d.year - 1 else d.year) = d.monthNumber / 12 := by
    unfold monthNumber
    split <;> omega
  have hmonth : ((d.month : Int) + 9) % 12 = d.monthNumber % 12 := by
    unfold monthNumber
    omega
  rw [toDays, monthStart, hyear, hmonth]
  omega

/-- One more year has 365 days, or 366 if the February at its end has a leap day. -/
theorem leapDays_succ (year : Int) :
    (year + 1) / 4 - (year + 1) / 100 + (year + 1) / 400 =
      year / 4 - year / 100 + year / 400 + if isLeap (year + 1) then 1 else 0 := by
  have h4 : (year + 1) / 4 = year / 4 + if (year + 1) % 4 = 0 then 1 else 0 := by split <;> omega
  have h100 : (year + 1) / 100 = year / 100 + if (year + 1) % 100 = 0 then 1 else 0 := by split <;> omega
  have h400 : (year + 1) / 400 = year / 400 + if (year + 1) % 400 = 0 then 1 else 0 := by split <;> omega
  have hleap : isLeap (year + 1) = true ↔
      (year + 1) % 4 = 0 ∧ ((year + 1) % 100 ≠ 0 ∨ (year + 1) % 400 = 0) := by
    simp [isLeap]
  rw [h4, h100, h400]
  simp only [hleap]
  split <;> split <;> split <;> split <;> omega

/-- A month has as many days as lie between its first day and that of the next month. -/
theorem monthStart_succ (h1 : 1 ≤ d.month) (h12 : d.month ≤ 12) :
    monthStart (d.monthNumber + 1) = monthStart d.monthNumber + daysInMonth d.year d.month := by
  obtain ⟨year, month, day⟩ := d
  dsimp only at h1 h12 ⊢
  simp only [monthNumber, monthStart, daysInMonth]
  by_cases hfebruary : month = 2
  · -- a year that is counted from March ends here
    subst hfebruary
    have hleap := leapDays_succ (year - 1)
    have hyear : (12 * year + (2 : Nat) - 3) / 12 = year - 1 := by omega
    have hnext : (12 * year + (2 : Nat) - 3 + 1) / 12 = year := by omega
    rw [Int.sub_add_cancel] at hleap
    simp only [hyear, hnext, if_true]
    cases h : isLeap year with
    | true =>
      simp only [h, if_true] at hleap ⊢
      omega
    | false =>
      simp only [h, Bool.false_eq_true, if_false] at hleap ⊢
      omega
  · have hnext : (12 * year + month - 3 + 1) / 12 = (12 * year + month - 3) / 12 := by omega
    have hmonth : (12 * year + month - 3 + 1) % 12 = (12 * year + month - 3) % 12 + 1 := by omega
    simp only [hnext, hmonth, if_neg hfebruary]
    have hindex : (12 * year + month - 3) % 12 = (month + 9) % 12 := by omega
    have hcases : month = 1 ∨ month = 3 ∨ month = 4 ∨ month = 5 ∨ month = 6 ∨ month = 7 ∨ month = 8 ∨
        month = 9 ∨ month = 10 ∨ month = 11 ∨ month = 12 := by omega
    rw [hindex]
    rcases hcases with rfl | rfl | rfl | rfl | rfl | rfl | rfl | rfl | rfl | rfl | rfl <;> simp <;> omega

theorem monthStart_le {m n : Int} (h : m ≤ n) : monthStart m ≤ monthStart n := by
  have hstep : ∀ n : Int, monthStart n ≤ monthStart (n + 1) := by
    intro n
    -- every number is that of a month in some year
    have hn : n = monthNumber ⟨(n + 2) / 12, ((n + 2) % 12 + 1).toNat, 1⟩ := by
      simp only [monthNumber]
      omega
    rw [hn, monthStart_succ (by simp only; omega) (by simp only; omega)]
    omega
  exact monotone_int_of_le_succ hstep h

/-- Dates come one after the other as their years, months and days do. -/
def Earlier (d e : Date) : Prop :=
  d.year < e.year ∨ d.year = e.year ∧ (d.month < e.month ∨ d.month = e.month ∧ d.day < e.day)

theorem Earlier.toDays_lt (hd : d.isValid = true) (he : e.isValid = true) (h : d.Earlier e) :
    d.toDays < e.toDays := by
  simp only [isValid, Bool.and_eq_true, decide_eq_true_eq] at hd he
  obtain ⟨⟨⟨hd1, hd12⟩, hday1⟩, hday⟩ := hd
  obtain ⟨⟨⟨he1, he12⟩, heday1⟩, _⟩ := he
  rw [toDays_eq hd1 hd12, toDays_eq he1 he12]
  have hmonth : d.monthNumber < e.monthNumber ∨ d.monthNumber = e.monthNumber ∧ d.day < e.day := by
    simp only [monthNumber]
    rcases h with h | ⟨h, h' | ⟨h', h''⟩⟩ <;> omega
  rcases hmonth with hlt | ⟨heq, hlt⟩
  · have hend := monthStart_succ (d := d) hd1 hd12
    have hle : monthStart (d.monthNumber + 1) ≤ monthStart e.monthNumber := monthStart_le hlt
    omega
  · rw [heq]
    omega

theorem earlier_or_eq_or_later (d e : Date) : d.Earlier e ∨ d = e ∨ e.Earlier d := by
  obtain ⟨year, month, day⟩ := d
  obtain ⟨year', month', day'⟩ := e
  simp only [Earlier, Date.mk.injEq]
  omega

theorem toDays_lt_iff (hd : d.isValid = true) (he : e.isValid = true) : d.toDays < e.toDays ↔ d.Earlier e := by
  refine ⟨fun hlt => ?_, fun h => h.toDays_lt hd he⟩
  rcases earlier_or_eq_or_later d e with h | rfl | h
  · exact h
  · omega
  · have hgt := h.toDays_lt he hd
    omega

theorem ofDays_earlier_iff (m n : Int) : (ofDays m).Earlier (ofDays n) ↔ m < n := by
  rw [← toDays_lt_iff (isValid_ofDays m) (isValid_ofDays n), toDays_ofDays, toDays_ofDays]

theorem ofDays_inj {m n : Int} : ofDays m = ofDays n ↔ m = n := by
  constructor
  · intro h
    rw [← toDays_ofDays m, h, toDays_ofDays]
  · exact congrArg ofDays

theorem year_ofDays_le {m n : Int} (h : m ≤ n) : (ofDays m).year ≤ (ofDays n).year := by
  rcases Int.lt_or_eq_of_le h with hlt | rfl
  · have hearlier := (ofDays_earlier_iff m n).mpr hlt
    simp only [Earlier] at hearlier
    omega
  · exact Int.le_refl _

end Date

/-- What a clock shows below the years, from months to nanoseconds. -/
def ClockTime.parts (t : ClockTime) : List Nat :=
  [t.date.month, t.date.day, t.hour, t.minute, t.second, t.nanos]

namespace Instant

/-- Whether an instant is in an ordinary second, or in a leap second at the end of a minute. -/
structure Sound (i : Instant) : Prop where
  nanos_lt : i.nanos < 2 * nanosPerSecond
  leap : nanosPerSecond ≤ i.nanos → i.seconds % 60 = 59

variable {i j : Instant}

/-- Within a day, clocks show times one after the other; a leap second comes after the second that it
is counted with. -/
theorem clock_time_lt_iff (hi : i.Sound) (hj : j.Sound) :
    [i.clock.hour, i.clock.minute, i.clock.second, i.clock.nanos] <
        [j.clock.hour, j.clock.minute, j.clock.second, j.clock.nanos] ↔
      i.seconds % secondsPerDay < j.seconds % secondsPerDay ∨
        i.seconds % secondsPerDay = j.seconds % secondsPerDay ∧ i.nanos < j.nanos := by
  obtain ⟨hi2, hileap⟩ := hi
  obtain ⟨hj2, hjleap⟩ := hj
  have hiday : ((i.seconds % secondsPerDay).toNat : Int) = i.seconds % secondsPerDay := by
    simp only [secondsPerDay]; omega
  have hjday : ((j.seconds % secondsPerDay).toNat : Int) = j.seconds % secondsPerDay := by
    simp only [secondsPerDay]; omega
  have himinute : nanosPerSecond ≤ i.nanos → (i.seconds % secondsPerDay).toNat % 60 = 59 := by
    simp only [secondsPerDay]; omega
  have hjminute : nanosPerSecond ≤ j.nanos → (j.seconds % secondsPerDay).toNat % 60 = 59 := by
    simp only [secondsPerDay]; omega
  simp only [clock, List.cons_lt_cons_iff, List.not_lt_nil, and_false, or_false]
  rw [← hiday, ← hjday]
  generalize (i.seconds % secondsPerDay).toNat = a at *
  generalize (j.seconds % secondsPerDay).toNat = b at *
  clear hileap hjleap hiday hjday
  split <;> split <;> omega

/-- Instants come one after the other as clocks show them. -/
theorem before_iff (hi : i.Sound) (hj : j.Sound) : i.before j = true ↔
    i.clock.date.year < j.clock.date.year ∨
      i.clock.date.year = j.clock.date.year ∧ i.clock.parts < j.clock.parts := by
  have hsplit : i.before j = true ↔ i.seconds / secondsPerDay < j.seconds / secondsPerDay ∨
      i.seconds / secondsPerDay = j.seconds / secondsPerDay ∧
        (i.seconds % secondsPerDay < j.seconds % secondsPerDay ∨
          i.seconds % secondsPerDay = j.seconds % secondsPerDay ∧ i.nanos < j.nanos) := by
    simp only [before, secondsPerDay, Bool.or_eq_true, Bool.and_eq_true, decide_eq_true_eq]
    omega
  have hdate : ∀ k : Instant, k.clock.date = Date.ofDays (k.seconds / secondsPerDay) := fun _ => rfl
  have hparts : i.clock.parts < j.clock.parts ↔ i.clock.date.month < j.clock.date.month ∨
      i.clock.date.month = j.clock.date.month ∧ (i.clock.date.day < j.clock.date.day ∨
        i.clock.date.day = j.clock.date.day ∧
          [i.clock.hour, i.clock.minute, i.clock.second, i.clock.nanos] <
            [j.clock.hour, j.clock.minute, j.clock.second, j.clock.nanos]) := by
    rw [ClockTime.parts, ClockTime.parts, List.cons_lt_cons_iff, List.cons_lt_cons_iff]
  rw [hsplit, hparts, ← clock_time_lt_iff hi hj, ← Date.ofDays_earlier_iff, ← Date.ofDays_inj, ← hdate,
    ← hdate]
  generalize i.clock.date = d
  generalize j.clock.date = e
  obtain ⟨year, month, day⟩ := d
  obtain ⟨year', month', day'⟩ := e
  simp only [Date.Earlier, Date.mk.injEq, and_or_left, or_assoc, and_assoc]

theorem before_or_eq_or_after (i j : Instant) : i.before j = true ∨ i = j ∨ j.before i = true := by
  obtain ⟨seconds, nanos⟩ := i
  obtain ⟨seconds', nanos'⟩ := j
  simp only [before, Instant.mk.injEq, Bool.or_eq_true, Bool.and_eq_true, decide_eq_true_eq]
  omega

end Instant

end TagStore
