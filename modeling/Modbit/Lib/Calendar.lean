import Mathlib.Data.Nat.Basic

/-!
# The Gregorian calendar

`dateOf` counts the days one by one, each the morrow of the one before; the epoch is the first of
January 1970.  `civil` computes the date of a day: its years begin on the first of March, so that a
leap day is the last of its year, and 400 of them are an era of 146097 days.

`dateOf_eq_civil`: the two agree on every day.  The proof is that `civil` takes the next day to the
morrow (`civil_succ`), year by year (`year_succ`) and month by month (`month_succ`).  `dateFrom`
counts from the year 0 on, and `before_iff` is the order of its dates.  `exists_day` finds a day by
its month, its number and its day of the week.
-/

namespace Modbit.Lib

structure Date where
  year : Nat
  month : Nat
  day : Nat
  deriving DecidableEq

namespace Calendar

def leap (year : Nat) : Nat :=
  if year % 4 = 0 ∧ (year % 100 ≠ 0 ∨ year % 400 = 0) then 1 else 0

theorem leap_le_one (year : Nat) : leap year ≤ 1 := by
  unfold leap
  split_ifs
  all_goals decide

def monthLength (year month : Nat) : Nat :=
  if month = 2 then 28 + leap year
  else if month = 4 ∨ month = 6 ∨ month = 9 ∨ month = 11 then 30 else 31

theorem monthLength_le (year month : Nat) : monthLength year month ≤ 31 := by
  have hleap := leap_le_one year
  unfold monthLength
  split_ifs
  all_goals omega

end Calendar

open Calendar

def Date.tomorrow (d : Date) : Date :=
  if d.day < monthLength d.year d.month then ⟨d.year, d.month, d.day + 1⟩
  else if d.month < 12 then ⟨d.year, d.month + 1, 1⟩
  else ⟨d.year + 1, 1, 1⟩

def dateOf : Nat → Date
  | 0 => ⟨1970, 1, 1⟩
  | n + 1 => (dateOf n).tomorrow

namespace Calendar

/-! ### Years that begin in March -/

def plainDays (doe : Nat) : Nat := doe - doe / 1460 + doe / 36524 - doe / 146096

def yearOfEra (doe : Nat) : Nat := plainDays doe / 365

def firstDay (year : Nat) : Nat := 365 * year + year / 4 - year / 100 + year / 400

theorem firstDay_succ (year : Nat) :
    firstDay (year + 1) = firstDay year + 365 + leap (year + 1) := by
  have hquarter : (year + 1) / 4 = _ := Nat.succ_div
  have hcentury : (year + 1) / 100 = _ := Nat.succ_div
  have hera : (year + 1) / 400 = _ := Nat.succ_div
  simp only [Nat.dvd_iff_mod_eq_zero] at hquarter hcentury hera
  have hle : year / 100 ≤ 365 * year := by omega
  have hfour : (year + 1) % 100 = 0 → (year + 1) % 4 = 0 := by omega
  have hhundred : (year + 1) % 400 = 0 → (year + 1) % 100 = 0 := by omega
  unfold firstDay leap
  rw [hquarter, hcentury, hera]
  generalize (year + 1) % 4 = q, (year + 1) % 100 = c, (year + 1) % 400 = e at hfour hhundred ⊢
  generalize year / 100 = c' at hle ⊢
  split_ifs
  all_goals omega

theorem plainDays_succ {doe : Nat} (h : doe + 1 < 146097) : plainDays doe ≤ plainDays (doe + 1) := by
  by_cases hlast : doe + 1 = 146096
  · obtain rfl : doe = 146095 := by omega
    decide
  · have hfour : (doe + 1) / 1460 ≤ doe / 1460 + 1 := by omega
    have hcentury : doe / 36524 ≤ (doe + 1) / 36524 := by omega
    have hera : doe / 146096 = 0 ∧ (doe + 1) / 146096 = 0 := by omega
    have hle : doe / 1460 ≤ doe := by omega
    unfold plainDays
    omega

variable {a b : Nat}

theorem plainDays_mono (hle : a ≤ b) (hb : b < 146097) : plainDays a ≤ plainDays b := by
  induction b, hle using Nat.le_induction with
  | base => exact Nat.le_refl _
  | succ b hle ih => exact Nat.le_trans (ih (by omega)) (plainDays_succ hb)

theorem plainDays_firstDay : ∀ y < 400,
    plainDays (firstDay (y + 1) - 1) < 365 * (y + 1) ∧ 365 * y ≤ plainDays (firstDay y) := by
  decide +kernel

theorem firstDay_le : ∀ y < 401, firstDay y ≤ 146097 := by
  decide +kernel

theorem yearOfEra_spec {doe : Nat} (h : doe < 146097) : yearOfEra doe < 400 ∧
    firstDay (yearOfEra doe) ≤ doe ∧ doe < firstDay (yearOfEra doe + 1) := by
  have htop : plainDays doe ≤ 145999 := plainDays_mono (by omega) (by decide : 146096 < 146097)
  have hyear : yearOfEra doe < 400 := by
    unfold yearOfEra
    omega
  have hdiv : plainDays doe / 365 = yearOfEra doe := rfl
  refine ⟨hyear, ?_, ?_⟩
  · -- a day before the year has too few days before it
    by_contra hbefore
    cases hy : yearOfEra doe with
    | zero =>
      rw [hy] at hbefore
      exact hbefore (Nat.zero_le _)
    | succ y =>
      rw [hy] at hbefore hyear hdiv
      have hlast := (plainDays_firstDay y (by omega)).1
      have hend := firstDay_le (y + 1) (by omega)
      have hmono := plainDays_mono (by omega : doe ≤ firstDay (y + 1) - 1) (by omega)
      omega
  · by_contra hafter
    by_cases hlast : yearOfEra doe + 1 < 400
    · have hfirst := (plainDays_firstDay _ hlast).2
      have hmono := plainDays_mono (by omega : firstDay (yearOfEra doe + 1) ≤ doe) h
      omega
    · have hy : yearOfEra doe + 1 = 400 := by omega
      rw [hy] at hafter
      exact hafter h

def yearOf (z : Nat) : Nat := yearOfEra (z % 146097) + z / 146097 * 400

def dayOf (z : Nat) : Nat :=
  z % 146097 - (365 * yearOfEra (z % 146097) + yearOfEra (z % 146097) / 4
    - yearOfEra (z % 146097) / 100)

theorem firstDay_add_eras (y era : Nat) : firstDay (y + era * 400) = firstDay y + era * 146097 := by
  have hle : y / 100 ≤ 365 * y := by omega
  have hfour : (y + era * 400) / 4 = y / 4 + era * 100 := by omega
  have hcentury : (y + era * 400) / 100 = y / 100 + era * 4 := by omega
  have hera : (y + era * 400) / 400 = y / 400 + era := by omega
  unfold firstDay
  omega

theorem yearOf_spec (z : Nat) :
    firstDay (yearOf z) + dayOf z = z ∧ dayOf z < 365 + leap (yearOf z + 1) := by
  obtain ⟨hyear, hfirst, hlast⟩ := yearOfEra_spec (Nat.mod_lt z (by decide : 0 < 146097))
  have hday : firstDay (yearOf z) + dayOf z = z := by
    have hsplit := Nat.div_add_mod z 146097
    have hera : yearOfEra (z % 146097) / 400 = 0 := Nat.div_eq_of_lt hyear
    have hfrom : firstDay (yearOfEra (z % 146097)) = 365 * yearOfEra (z % 146097)
        + yearOfEra (z % 146097) / 4 - yearOfEra (z % 146097) / 100 := by
      rw [firstDay, hera, Nat.add_zero]
    rw [yearOf, firstDay_add_eras, dayOf, ← hfrom]
    omega
  refine ⟨hday, ?_⟩
  have hnext := firstDay_succ (yearOf z)
  have hnext' : firstDay (yearOf z + 1) = firstDay (yearOfEra (z % 146097) + 1) + z / 146097 * 146097 := by
    rw [yearOf, Nat.add_right_comm, firstDay_add_eras]
  have hsplit := Nat.div_add_mod z 146097
  omega

theorem firstDay_mono (h : a ≤ b) : firstDay a ≤ firstDay b := by
  induction b, h using Nat.le_induction with
  | base => exact Nat.le_refl _
  | succ b _ ih =>
    rw [firstDay_succ]
    omega

theorem year_unique {a b i j : Nat} (heq : firstDay a + i = firstDay b + j)
    (hi : i < 365 + leap (a + 1)) (hj : j < 365 + leap (b + 1)) : a = b ∧ i = j := by
  have hless : ∀ {a b i j : Nat}, firstDay a + i = firstDay b + j → i < 365 + leap (a + 1) →
      ¬ a < b := by
    intro a b i j heq hi hlt
    have hmono : firstDay (a + 1) ≤ firstDay b := firstDay_mono hlt
    have hnext := firstDay_succ a
    omega
  obtain rfl : a = b := by
    have hab := hless heq hi
    have hba := hless heq.symm hj
    omega
  exact ⟨rfl, Nat.add_left_cancel heq⟩

theorem year_succ (z : Nat) :
    (dayOf z + 1 < 365 + leap (yearOf z + 1) ∧ yearOf (z + 1) = yearOf z ∧
      dayOf (z + 1) = dayOf z + 1) ∨
    (dayOf z + 1 = 365 + leap (yearOf z + 1) ∧ yearOf (z + 1) = yearOf z + 1 ∧
      dayOf (z + 1) = 0) := by
  obtain ⟨hday, hlt⟩ := yearOf_spec z
  obtain ⟨hday', hlt'⟩ := yearOf_spec (z + 1)
  by_cases hin : dayOf z + 1 < 365 + leap (yearOf z + 1)
  · obtain ⟨hyear, hd⟩ := year_unique (by omega : _ = firstDay (yearOf z) + (dayOf z + 1)) hlt' hin
    exact .inl ⟨hin, hyear, hd⟩
  · have hnext := firstDay_succ (yearOf z)
    obtain ⟨hyear, hd⟩ := year_unique (by omega : _ = firstDay (yearOf z + 1) + 0) hlt' (by omega)
    exact .inr ⟨by omega, hyear, hd⟩

/-! ### Months -/

def monthOf (doy : Nat) : Nat := (5 * doy + 2) / 153

def dayOfMonth (doy : Nat) : Nat := doy - (153 * monthOf doy + 2) / 5 + 1

def monthNumber (mp : Nat) : Nat := if mp < 10 then mp + 3 else mp - 9

theorem month_succ : ∀ doy < 365,
    (monthOf (doy + 1) = monthOf doy ∧ dayOfMonth (doy + 1) = dayOfMonth doy + 1 ∧
      (monthOf doy < 11 ∧ dayOfMonth doy < monthLength 0 (monthNumber (monthOf doy)) ∨
        monthOf doy = 11 ∧ dayOfMonth doy + 336 = doy)) ∨
    (monthOf (doy + 1) = monthOf doy + 1 ∧ dayOfMonth (doy + 1) = 1 ∧ monthOf doy < 11 ∧
      dayOfMonth doy = monthLength 0 (monthNumber (monthOf doy))) := by
  decide +kernel

theorem monthLength_eq {mp : Nat} (h : mp < 11) (year : Nat) :
    monthLength year (monthNumber mp) = monthLength 0 (monthNumber mp) := by
  have hfeb : monthNumber mp ≠ 2 := by
    unfold monthNumber
    split_ifs
    all_goals omega
  rw [monthLength, monthLength, if_neg hfeb, if_neg hfeb]

/-- The date of a day since the first of March of the year 0. -/
def civil (z : Nat) : Date :=
  let m := monthNumber (monthOf (dayOf z))
  ⟨if m ≤ 2 then yearOf z + 1 else yearOf z, m, dayOfMonth (dayOf z)⟩

theorem civil_succ (z : Nat) : civil (z + 1) = (civil z).tomorrow := by
  have hleap := leap_le_one (yearOf z + 1)
  rcases year_succ z with ⟨hin, hyear, hday⟩ | ⟨hend, hyear, hday⟩
  · rcases month_succ (dayOf z) (by omega) with ⟨hmonth, hdom, hlen⟩ | ⟨hmonth, hdom, hlt, hlen⟩
    · have hshort : (civil z).day < monthLength (civil z).year (civil z).month := by
        rcases hlen with ⟨hlt, hlen⟩ | ⟨hfeb, hlen⟩
        · exact Nat.lt_of_lt_of_eq hlen (monthLength_eq hlt _).symm
        · simp only [civil, hfeb]
          show _ < 28 + leap (yearOf z + 1)
          omega
      rw [Date.tomorrow, if_pos hshort]
      simp only [civil, hyear, hday, hmonth, hdom]
    · have hfull : ¬ (civil z).day < monthLength (civil z).year (civil z).month := by
        rw [show monthLength _ (civil z).month = _ from monthLength_eq hlt _, ← hlen]
        exact Nat.lt_irrefl _
      rw [Date.tomorrow, if_neg hfull]
      simp only [civil, hyear, hday, hmonth, hdom]
      unfold monthNumber
      split_ifs
      all_goals first | rfl | omega | (congr 1; omega)
  · obtain ⟨hfeb, hdom⟩ : monthOf (dayOf z) = 11 ∧ dayOfMonth (dayOf z) + 336 = dayOf z := by
      obtain hd | hd : dayOf z = 364 ∨ dayOf z = 365 := by omega
      all_goals
        rw [hd]
        decide
    have hfull : ¬ (civil z).day < monthLength (civil z).year (civil z).month := by
      simp only [civil, hfeb]
      show ¬ _ < 28 + leap (yearOf z + 1)
      omega
    rw [Date.tomorrow, if_neg hfull]
    simp only [civil, hyear, hday, hfeb]
    rfl

/-- **The computed date is the date.** -/
theorem dateOf_eq_civil (n : Nat) : dateOf n = civil (n + 719468) := by
  induction n with
  | zero => decide
  | succ n ih =>
    rw [dateOf, ih, Nat.add_right_comm n 1]
    exact (civil_succ _).symm

/-! ### From the year 0 on -/

/-- The date of a day since the first of January of the year 0. -/
def dateFrom : Nat → Date
  | 0 => ⟨0, 1, 1⟩
  | n + 1 => (dateFrom n).tomorrow

theorem leap_add_era (year : Nat) : leap (year + 400) = leap year := by
  have hquarter : (year + 400) % 4 = year % 4 := by omega
  have hcentury : (year + 400) % 100 = year % 100 := by omega
  have hera : (year + 400) % 400 = year % 400 := by omega
  rw [leap, leap, hquarter, hcentury, hera]

theorem civil_dateFrom (n : Nat) : civil (n + 146037)
    = ⟨(dateFrom n).year + 400, (dateFrom n).month, (dateFrom n).day⟩ := by
  induction n with
  | zero => decide
  | succ n ih =>
    rw [Nat.add_right_comm, civil_succ, ih, dateFrom, Date.tomorrow, Date.tomorrow, monthLength,
      monthLength, leap_add_era]
    split_ifs
    all_goals rfl

theorem dateFrom_eq {n year month day : Nat} (h : civil (n + 146037) = ⟨year + 400, month, day⟩) :
    dateFrom n = ⟨year, month, day⟩ := by
  have hcivil := civil_dateFrom n
  rw [h] at hcivil
  obtain ⟨hyear, hmonth, hday⟩ := Date.mk.inj hcivil
  rw [Nat.add_right_cancel hyear, hmonth, hday]

theorem dateFrom_epoch : dateFrom 719528 = ⟨1970, 1, 1⟩ := dateFrom_eq (by decide)

theorem dateFrom_dateOf (n : Nat) : dateFrom (n + 719528) = dateOf n := by
  induction n with
  | zero => rw [Nat.zero_add, dateFrom_epoch, dateOf]
  | succ n ih => rw [Nat.add_right_comm, dateFrom, ih, dateOf]

/-- **Every date is one of the calendar.** -/
theorem dateFrom_valid (n : Nat) : (1 ≤ (dateFrom n).month ∧ (dateFrom n).month ≤ 12)
    ∧ 1 ≤ (dateFrom n).day
    ∧ (dateFrom n).day ≤ monthLength (dateFrom n).year (dateFrom n).month := by
  have hlong : ∀ year month, 1 ≤ monthLength year month := by
    intro year month
    unfold monthLength
    split_ifs
    all_goals omega
  induction n with
  | zero => decide
  | succ n ih =>
    rw [dateFrom, Date.tomorrow]
    split_ifs with hday hmonth
    · exact ⟨ih.1, Nat.le_add_left 1 _, hday⟩
    · exact ⟨⟨Nat.le_add_left 1 _, hmonth⟩, Nat.le_refl 1, hlong _ _⟩
    · exact ⟨⟨Nat.le_refl 1, Nat.le_add_left 1 11⟩, Nat.le_refl 1, hlong _ _⟩

def Before (d d' : Date) : Prop :=
  d.year < d'.year ∨ d.year = d'.year ∧ (d.month < d'.month ∨ d.month = d'.month ∧ d.day < d'.day)

theorem before_tomorrow (d : Date) : Before d d.tomorrow := by
  rw [Date.tomorrow]
  split_ifs
  · exact .inr ⟨rfl, .inr ⟨rfl, Nat.lt_succ_self _⟩⟩
  · exact .inr ⟨rfl, .inl (Nat.lt_succ_self _)⟩
  · exact .inl (Nat.lt_succ_self _)

theorem Before.trans {d d' d'' : Date} (h : Before d d') (h' : Before d' d'') : Before d d'' := by
  unfold Before at *
  omega

variable {m n : Nat}

theorem before_of_lt (h : m < n) : Before (dateFrom m) (dateFrom n) := by
  induction n, h using Nat.le_induction with
  | base => exact before_tomorrow _
  | succ n _ ih => exact ih.trans (before_tomorrow _)

theorem not_before_self (d : Date) : ¬ Before d d := by
  unfold Before
  omega

/-- **Dates are in the order of their days.** -/
theorem before_iff : Before (dateFrom m) (dateFrom n) ↔ m < n := by
  refine ⟨fun h => ?_, before_of_lt⟩
  rcases Nat.lt_trichotomy m n with hlt | rfl | hlt
  · exact hlt
  · exact absurd h (not_before_self _)
  · exact absurd (h.trans (before_of_lt hlt)) (not_before_self _)

theorem dateFrom_inj : dateFrom m = dateFrom n ↔ m = n := by
  refine ⟨fun h => ?_, congrArg dateFrom⟩
  rcases Nat.lt_trichotomy m n with hlt | rfl | hlt
  · exact absurd (h ▸ before_of_lt hlt) (not_before_self _)
  · rfl
  · exact absurd (h ▸ before_of_lt hlt) (not_before_self _)

/-! ### Days of the week -/

theorem dateOf_add (hfirst : (dateOf n).day = 1) {k : Nat} (hk : k < 28) :
    dateOf (n + k) = ⟨(dateOf n).year, (dateOf n).month, k + 1⟩ := by
  induction k with
  | zero => rw [Nat.add_zero, Nat.zero_add, ← hfirst]
  | succ k ih =>
    have hlong : k + 1 < monthLength (dateOf n).year (dateOf n).month := by
      unfold monthLength
      split_ifs
      all_goals omega
    rw [← Nat.add_assoc, dateOf, ih (Nat.lt_of_succ_lt hk), Date.tomorrow, if_pos hlong]

theorem civil_first {year mp : Nat} (hmp : mp < 12) :
    (civil (firstDay year + (153 * mp + 2) / 5)).month = monthNumber mp ∧
      (civil (firstDay year + (153 * mp + 2) / 5)).day = 1 := by
  obtain ⟨hsum, hlt⟩ := yearOf_spec (firstDay year + (153 * mp + 2) / 5)
  have hday : dayOf (firstDay year + (153 * mp + 2) / 5) = (153 * mp + 2) / 5 :=
    (year_unique hsum hlt (by omega)).2
  have hmonth : ∀ mp < 12, monthOf ((153 * mp + 2) / 5) = mp ∧ dayOfMonth ((153 * mp + 2) / 5) = 1 := by
    decide
  unfold civil
  rw [hday]
  exact ⟨congrArg monthNumber (hmonth mp hmp).1, (hmonth mp hmp).2⟩

theorem exists_year : ∀ mp < 12, ∀ w < 7, ∃ y < 28,
    (firstDay (y + 1970) + (153 * mp + 2) / 5 - 719464) % 7 = w := by
  decide +kernel

/-- **A day that every month has falls on every day of the week.** -/
theorem exists_day {month day weekday : Nat} (hmonth : 1 ≤ month ∧ month ≤ 12)
    (hday : 1 ≤ day ∧ day ≤ 28) (hweekday : weekday < 7) :
    ∃ n < 13000, (dateOf n).month = month ∧ (dateOf n).day = day ∧ (n + 4) % 7 = weekday := by
  obtain ⟨mp, hmp, hnumber⟩ : ∃ mp < 12, monthNumber mp = month := by
    refine ⟨if month < 3 then month + 9 else month - 3, by split_ifs; all_goals omega, ?_⟩
    unfold monthNumber
    split_ifs
    all_goals omega
  obtain ⟨y, hy, hw⟩ := exists_year mp hmp ((weekday + 35 - (day - 1)) % 7)
    (Nat.mod_lt _ (by decide))
  obtain ⟨hm, hfirst⟩ := @civil_first (y + 1970) mp hmp
  have hlow : firstDay 1970 ≤ firstDay (y + 1970) := firstDay_mono (by omega)
  have hhigh : firstDay (y + 1970) ≤ firstDay 1998 := firstDay_mono (by omega)
  rw [show firstDay 1970 = 719527 from by decide] at hlow
  rw [show firstDay 1998 = 729754 from by decide] at hhigh
  obtain ⟨n, hn⟩ : ∃ n, firstDay (y + 1970) + (153 * mp + 2) / 5 = n + 719468 :=
    ⟨_, (Nat.sub_add_cancel (by omega)).symm⟩
  rw [hn, ← dateOf_eq_civil] at hm hfirst
  rw [hn] at hw
  have hdate := dateOf_add hfirst (by omega : day - 1 < 28)
  refine ⟨n + (day - 1), by omega, ?_, ?_, by omega⟩
  · rw [hdate, ← hnumber, ← hm]
  · rw [hdate]
    exact Nat.sub_add_cancel hday.1

end Calendar

end Modbit.Lib
