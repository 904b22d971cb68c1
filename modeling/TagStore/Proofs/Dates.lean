import TagStore.Time.Date

namespace TagStore.Date

/-- Where a day stands in a cycle of 400 years: in which century, group of four years, year and day. -/
theorem cycle_parts {c : Int} (h0 : 0 ≤ c) (h1 : c < 146097) :
    ∃ e k j r : Int, 0 ≤ e ∧ e ≤ 3 ∧ 0 ≤ k ∧ k ≤ 24 ∧ 0 ≤ j ∧ j ≤ 3 ∧ 0 ≤ r ∧ r ≤ 365 ∧
      (r = 365 → j = 3 ∧ (k < 24 ∨ e = 3)) ∧ c = 36524 * e + 1461 * k + 365 * j + r ∧
      (c - c / 1460 + c / 36524 - c / 146096) / 365 = 100 * e + 4 * k + j := by
  by_cases hlast : c = 146096
  · exact ⟨3, 24, 3, 365, by omega⟩
  have h146096 : c / 146096 = 0 := by omega
  obtain ⟨e, s, hc, hs0, hs1⟩ : ∃ e s, c = 36524 * e + s ∧ 0 ≤ s ∧ s < 36524 :=
    ⟨c / 36524, c % 36524, by omega, by omega, by omega⟩
  obtain ⟨k, t, hs, ht0, ht1⟩ : ∃ k t, s = 1461 * k + t ∧ 0 ≤ t ∧ t < 1461 :=
    ⟨s / 1461, s % 1461, by omega, by omega, by omega⟩
  have he0 : 0 ≤ e := by omega
  have he1 : e ≤ 3 := by omega
  have hk0 : 0 ≤ k := by omega
  have hk1 : k ≤ 24 := by omega
  have hcentury : c / 36524 = e := by omega
  have hgroups : c / 1460 = 25 * e + k + (24 * e + k + t) / 1460 := by omega
  have hextra : (24 * e + k + t) / 1460 = 0 ∧ t < 1460 ∨ (24 * e + k + t) / 1460 = 1 ∧ 1340 ≤ t := by omega
  rw [h146096, hcentury, hgroups]
  clear h146096 hcentury hgroups
  generalize (24 * e + k + t) / 1460 = x at *
  refine ⟨e, k, (t - x) / 365, t - 365 * ((t - x) / 365), he0, he1, hk0, hk1, by omega, by omega,
    by omega, by omega, ?_, by omega, by omega⟩
  intro h
  omega

theorem year_days {q e k j : Int} (he0 : 0 ≤ e) (he1 : e ≤ 3) (hk0 : 0 ≤ k) (hk1 : k ≤ 24)
    (hj0 : 0 ≤ j) (hj1 : j ≤ 3) :
    365 * (400 * q + (100 * e + 4 * k + j)) + (400 * q + (100 * e + 4 * k + j)) / 4 -
      (400 * q + (100 * e + 4 * k + j)) / 100 + (400 * q + (100 * e + 4 * k + j)) / 400 =
      146097 * q + 36524 * e + 1461 * k + 365 * j := by
  have h4 : (400 * q + (100 * e + 4 * k + j)) / 4 = 100 * q + 25 * e + k := by omega
  have h100 : (400 * q + (100 * e + 4 * k + j)) / 100 = 4 * q + e := by omega
  have h400 : (400 * q + (100 * e + 4 * k + j)) / 400 = q := by omega
  rw [h4, h100, h400]
  omega

theorem cycle_day {e k j r : Int} (hk0 : 0 ≤ k) (hk1 : k ≤ 24) (hj0 : 0 ≤ j) (hj1 : j ≤ 3) :
    36524 * e + 1461 * k + 365 * j + r - (365 * (100 * e + 4 * k + j) + (100 * e + 4 * k + j) / 4 -
      (100 * e + 4 * k + j) / 100) = r := by
  have h4 : (100 * e + 4 * k + j) / 4 = 25 * e + k := by omega
  have h100 : (100 * e + 4 * k + j) / 100 = e := by omega
  rw [h4, h100]
  omega

theorem month_le_two {mi : Int} {a b : Int} (h0 : 0 ≤ mi) (h1 : mi ≤ 11) :
    (if (if mi < 10 then mi + 3 else mi - 9) ≤ 2 then a else b) = if mi < 10 then b else a := by
  by_cases hm : mi < 10
  · rw [if_pos hm, if_neg (by omega), if_pos hm]
  · rw [if_neg hm, if_pos (by omega), if_neg hm]

/-- The parts of the date that `ofDays` finds. -/
theorem ofDays_parts (days : Int) : ∃ q e k j r mi : Int, 0 ≤ e ∧ e ≤ 3 ∧ 0 ≤ k ∧ k ≤ 24 ∧ 0 ≤ j ∧
    j ≤ 3 ∧ 0 ≤ r ∧ r ≤ 365 ∧ (r = 365 → j = 3 ∧ (k < 24 ∨ e = 3)) ∧
    days + epochDay = 146097 * q + (36524 * e + 1461 * k + 365 * j + r) ∧ mi = (5 * r + 2) / 153 ∧
    ofDays days =
      ⟨if mi < 10 then 400 * q + (100 * e + 4 * k + j) else 400 * q + (100 * e + 4 * k + j) + 1,
        (if mi < 10 then mi + 3 else mi - 9).toNat, (r - (153 * mi + 2) / 5 + 1).toNat⟩ := by
  have h0 := Int.emod_nonneg (days + epochDay) (b := 146097) (by omega)
  have h1 := Int.emod_lt_of_pos (days + epochDay) (b := 146097) (by omega)
  obtain ⟨e, k, j, r, he0, he1, hk0, hk1, hj0, hj1, hr0, hr1, hleap, hc, hy⟩ := cycle_parts h0 h1
  have hdays := Int.mul_ediv_add_emod (days + epochDay) 146097
  have hr : (days + epochDay) % 146097 - (365 * (100 * e + 4 * k + j) + (100 * e + 4 * k + j) / 4 -
      (100 * e + 4 * k + j) / 100) = r := by
    rw [hc]
    exact cycle_day hk0 hk1 hj0 hj1
  rw [hc] at hdays
  refine ⟨(days + epochDay) / 146097, e, k, j, r, (5 * r + 2) / 153, he0, he1, hk0, hk1, hj0, hj1,
    hr0, hr1, hleap, hdays.symm, rfl, ?_⟩
  simp only [ofDays, hy, hr]
  clear hr hy hc h0 h1 hdays
  rw [month_le_two (by omega) (by omega)]

theorem toDays_ofDays (days : Int) : (ofDays days).toDays = days := by
  obtain ⟨q, e, k, j, r, mi, he0, he1, hk0, hk1, hj0, hj1, hr0, hr1, _, hdays, hmi, hd⟩ :=
    ofDays_parts days
  have hyear := year_days (q := q) he0 he1 hk0 hk1 hj0 hj1
  have hm0 : 0 ≤ mi := by omega
  have hm1 : mi ≤ 11 := by omega
  have hday : ((r - (153 * mi + 2) / 5 + 1).toNat : Int) = r - (153 * mi + 2) / 5 + 1 := by omega
  rw [hd, toDays]
  generalize 400 * q + (100 * e + 4 * k + j) = year at hyear ⊢
  clear hd
  by_cases hm : mi < 10
  · have hmonth : (((mi + 3).toNat : Int) + 9) % 12 = mi := by omega
    simp only [if_pos hm, hmonth, hday]
    rw [if_neg (by omega), hyear]
    omega
  · have hmonth : (((mi - 9).toNat : Int) + 9) % 12 = mi := by omega
    simp only [if_neg hm, hmonth, hday]
    rw [if_pos (by omega), Int.add_sub_cancel, hyear]
    omega

theorem isLeap_after {q e k j : Int} (hk0 : 0 ≤ k) (hk1 : k ≤ 24)
    (hj : j = 3) (h : k < 24 ∨ e = 3) : isLeap (400 * q + (100 * e + 4 * k + j) + 1) = true := by
  have h4 : (400 * q + (100 * e + 4 * k + j) + 1) % 4 = 0 := by omega
  have h100 : (400 * q + (100 * e + 4 * k + j) + 1) % 100 ≠ 0 ∨
      (400 * q + (100 * e + 4 * k + j) + 1) % 400 = 0 := by omega
  simpa [isLeap, h4] using h100

theorem isValid_ofDays (days : Int) : (ofDays days).isValid = true := by
  obtain ⟨q, e, k, j, r, mi, _, _, hk0, hk1, _, _, hr0, hr1, hleap, _, hmi, hd⟩ :=
    ofDays_parts days
  have hleap' : r = 365 → isLeap (400 * q + (100 * e + 4 * k + j) + 1) = true := fun h =>
    isLeap_after hk0 hk1 (hleap h).1 (hleap h).2
  rw [hd]
  clear hd hleap
  generalize 400 * q + (100 * e + 4 * k + j) = year at hleap' ⊢
  simp only [isValid, Bool.and_eq_true, decide_eq_true_eq]
  -- day by day of the year, the months from March on
  have hcases : mi = 0 ∨ mi = 1 ∨ mi = 2 ∨ mi = 3 ∨ mi = 4 ∨ mi = 5 ∨ mi = 6 ∨ mi = 7 ∨ mi = 8 ∨
      mi = 9 ∨ mi = 10 ∨ mi = 11 := by omega
  rcases hcases with rfl | rfl | rfl | rfl | rfl | rfl | rfl | rfl | rfl | rfl | rfl | rfl
  all_goals
    simp only [daysInMonth, Int.reduceLT, Int.reduceAdd, Int.reduceSub, Int.reduceMul, Int.reduceDiv,
      Int.reduceToNat, if_true, if_false, Nat.reduceEqDiff, or_false, or_true, Nat.reduceLeDiff,
      true_and]
  case inr.inr.inr.inr.inr.inr.inr.inr.inr.inr.inr =>
    by_cases h365 : r = 365
    · rw [if_pos (hleap' h365)]
      omega
    · have hle : (r - 337 + 1).toNat ≤ 28 := by omega
      split <;> omega
  all_goals omega

theorem le_of_isValid {d : Date} (h : d.isValid = true) : d.month ≤ 12 ∧ d.day ≤ 31 := by
  have hdays : daysInMonth d.year d.month ≤ 31 := by
    unfold daysInMonth
    repeat' split
    all_goals omega
  simp only [isValid, Bool.and_eq_true, decide_eq_true_eq] at h
  omega

end TagStore.Date
