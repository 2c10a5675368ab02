import Arkeion.Sql.Datetime

/-!
Dates, days and text of an instant are inverse to each other.

A date is split once into era, century, four years, year and day of a year that begins in March;
both closed forms are then read off.
-/

namespace Arkeion.Sql.Datetime

open Arkeion.Lib

/-! ### Days and dates -/

section Dates
variable {y m d z era c q r w mp : ℤ}

/-- The quotient cut towards zero, of a number made smaller if it is below zero, is the one rounded
down. -/
lemma tdiv_floor {b : ℤ} (hb : 0 < b) (z : ℤ) :
    (if 0 ≤ z then z else z - (b - 1)).tdiv b = z / b := by
  split_ifs with hz
  · exact Int.tdiv_eq_ediv_of_nonneg hz
  · have hneg : z - (b - 1) = -(b - 1 - z) := by ring
    have hquot : (b - 1 - z) / b = -(z / b) := by
      have hmod := Int.emod_add_mul_ediv z b
      have hnonneg := Int.emod_nonneg z hb.ne'
      have hlt := Int.emod_lt_of_pos z hb
      refine ediv_eq_of_bounds hb ?_ ?_ <;> nlinarith
    rw [hneg, Int.neg_tdiv, Int.tdiv_eq_ediv_of_nonneg (by omega), hquot, neg_neg]

/-- The first day of a month, counted from March. -/
def monthStart (mp : ℤ) : ℤ := (153 * mp + 2) / 5

/-- The month counted from March, and the year it counts for. -/
def fromMarch (m : ℤ) : ℤ := if 2 < m then m - 3 else m + 9

def marchYear (y m : ℤ) : ℤ := if m ≤ 2 then y - 1 else y

lemma fromMarch_bounds (hm : 1 ≤ m) (hm' : m ≤ 12) : 0 ≤ fromMarch m ∧ fromMarch m ≤ 11 := by
  unfold fromMarch
  split_ifs <;> omega

lemma asU32_eq {n : ℤ} (h0 : 0 ≤ n) (h : n < 2 ^ 32) : (asU32 n : ℤ) = n := by
  rw [asU32, Int.emod_eq_of_lt h0 h, Int.toNat_of_nonneg h0]

/-- The days of a date by its place in the era. -/
lemma daysFromCivil_eq (hm : 1 ≤ m) (hm' : m ≤ 12) (h : InEra c q r w)
    (hy : marchYear y m = 400 * era + (100 * c + 4 * q + r)) :
    daysFromCivil y m d = 146097 * era + (36524 * c + 1461 * q + 365 * r)
      + (monthStart (fromMarch m) + d - 1) - 719468 := by
  have hstart := yearStart_eq h
  obtain ⟨hc, hq, hr, -, -⟩ := h
  have hera : (if 0 ≤ marchYear y m then marchYear y m else marchYear y m - 399).tdiv 400 = era := by
    have hfloor := tdiv_floor (b := 400) (by norm_num) (marchYear y m)
    norm_num only at hfloor
    rw [hfloor]
    exact ediv_eq_of_bounds (by norm_num) (by omega) (by omega)
  have hyoe : marchYear y m - era * 400 = 100 * c + 4 * q + r := by omega
  have hmonth := (fromMarch_bounds hm hm').1
  have hdays : daysFromCivil y m d
      = (if 0 ≤ marchYear y m then marchYear y m else marchYear y m - 399).tdiv 400 * 146097
        + ((marchYear y m - (if 0 ≤ marchYear y m then marchYear y m
            else marchYear y m - 399).tdiv 400 * 400) * 365
          + (marchYear y m - (if 0 ≤ marchYear y m then marchYear y m
            else marchYear y m - 399).tdiv 400 * 400).tdiv 4
          - (marchYear y m - (if 0 ≤ marchYear y m then marchYear y m
            else marchYear y m - 399).tdiv 400 * 400).tdiv 100
          + ((153 * fromMarch m + 2).tdiv 5 + d - 1)) - 719468 := rfl
  rw [hdays, hera, hyoe, Int.tdiv_eq_ediv_of_nonneg (by omega), Int.tdiv_eq_ediv_of_nonneg (by omega),
    Int.tdiv_eq_ediv_of_nonneg (by omega)]
  rw [yearStart] at hstart
  unfold monthStart
  omega

/-- The month, counted from March, of a day of the year. -/
lemma monthOf_eq (h0 : 0 ≤ mp) (h1 : mp ≤ 11) (hlo : monthStart mp ≤ w)
    (hhi : w < monthStart (mp + 1)) : (5 * w + 2) / 153 = mp := by
  unfold monthStart at hlo hhi
  interval_cases mp <;> omega

lemma exists_month (h0 : 0 ≤ w) (h1 : w ≤ 365) :
    ∃ mp, 0 ≤ mp ∧ mp ≤ 11 ∧ monthStart mp ≤ w ∧ w < monthStart (mp + 1) := by
  refine ⟨(5 * w + 2) / 153, by omega, by omega, ?_, ?_⟩ <;> unfold monthStart <;> omega

/-- The date of a day by its place in the era. -/
lemma civilFromDays_eq (h : InEra c q r w) (hz : z + 719468
      = 146097 * era + (36524 * c + 1461 * q + 365 * r + w)) (h0 : 0 ≤ mp) (h1 : mp ≤ 11)
    (hlo : monthStart mp ≤ w) (hhi : w < monthStart (mp + 1)) :
    civilFromDays z = (400 * era + (100 * c + 4 * q + r) + (if mp < 10 then 0 else 1),
      asU32 (if mp < 10 then mp + 3 else mp - 9), asU32 (w - monthStart mp + 1)) := by
  have hyear : ∀ doe, doe = 36524 * c + 1461 * q + 365 * r + w →
      (doe - doe / 1460 + doe / 36524 - doe / 146096) / 365 = 100 * c + 4 * q + r :=
    fun _ hdoe => yearOf_eq h hdoe
  have hstart := yearStart_eq h
  have hmonth := monthOf_eq h0 h1 hlo hhi
  obtain ⟨hc, hq, hr, hw, hlast⟩ := h
  obtain ⟨doe, hdoe⟩ : ∃ doe, doe = 36524 * c + 1461 * q + 365 * r + w := ⟨_, rfl⟩
  have hera : (if 0 ≤ z + 719468 then z + 719468 else z + 719468 - 146096).tdiv 146097 = era := by
    have hfloor := tdiv_floor (b := 146097) (by norm_num) (z + 719468)
    norm_num only at hfloor
    rw [hfloor]
    exact ediv_eq_of_bounds (by norm_num) (by omega) (by omega)
  have hday : z + 719468 - era * 146097 = doe := by omega
  have hyoe : (doe - doe.tdiv 1460 + doe.tdiv 36524 - doe.tdiv 146096).tdiv 365
      = 100 * c + 4 * q + r := by
    have hpos : 0 ≤ doe := by omega
    rw [Int.tdiv_eq_ediv_of_nonneg hpos, Int.tdiv_eq_ediv_of_nonneg hpos,
      Int.tdiv_eq_ediv_of_nonneg hpos, Int.tdiv_eq_ediv_of_nonneg (by omega)]
    exact hyear doe hdoe
  have hdoy : doe - (365 * (100 * c + 4 * q + r) + (100 * c + 4 * q + r).tdiv 4
      - (100 * c + 4 * q + r).tdiv 100) = w := by
    rw [yearStart] at hstart
    rw [Int.tdiv_eq_ediv_of_nonneg (by omega), Int.tdiv_eq_ediv_of_nonneg (by omega)]
    omega
  have hmp : (5 * w + 2).tdiv 153 = mp := by
    rw [Int.tdiv_eq_ediv_of_nonneg (by omega), hmonth]
  have hfirst : (153 * mp + 2).tdiv 5 = monthStart mp := by
    rw [Int.tdiv_eq_ediv_of_nonneg (by omega), monthStart]
  unfold civilFromDays
  dsimp only
  rw [hera, hday, hyoe, hdoy, hmp, hfirst]
  refine Prod.ext ?_ rfl
  dsimp only
  by_cases hlate : mp < 10
  · rw [if_pos hlate, if_pos hlate, if_neg (by omega)]
    ring
  · rw [if_neg hlate, if_neg hlate, if_pos (by omega)]
    ring

lemma exists_era (z : ℤ) : ∃ era c q r w, InEra c q r w
    ∧ z + 719468 = 146097 * era + (36524 * c + 1461 * q + 365 * r + w) := by
  obtain ⟨c, q, r, w, h, hdoe⟩ := @exists_inEra ((z + 719468) % 146097) (by omega) (by omega)
  exact ⟨(z + 719468) / 146097, c, q, r, w, h, by omega⟩

/-- The month counted from March, and a month of the calendar. -/
lemma month_of_march (h0 : 0 ≤ mp) (h1 : mp ≤ 11) :
    1 ≤ (if mp < 10 then mp + 3 else mp - 9) ∧ (if mp < 10 then mp + 3 else mp - 9) ≤ 12
      ∧ fromMarch (if mp < 10 then mp + 3 else mp - 9) = mp
      ∧ ∀ y, marchYear (y + (if mp < 10 then 0 else 1)) (if mp < 10 then mp + 3 else mp - 9) = y := by
  unfold fromMarch marchYear
  split_ifs <;> refine ⟨by omega, by omega, by omega, fun y => by omega⟩

/-- A date of a day in an era exists, for the last day of the year is a leap day. -/
lemma valid_of_era (h : InEra c q r w) (h0 : 0 ≤ mp) (h1 : mp ≤ 11) (hlo : monthStart mp ≤ w)
    (hhi : w < monthStart (mp + 1)) :
    ValidDate (400 * era + (100 * c + 4 * q + r) + (if mp < 10 then 0 else 1))
      (if mp < 10 then mp + 3 else mp - 9) (w - monthStart mp + 1) := by
  obtain ⟨hm, hm', -, -⟩ := month_of_march h0 h1
  have hleap := isLeap_next h era
  refine ⟨hm, hm', by omega, ?_⟩
  obtain ⟨-, -, -, -, hlast⟩ := h
  by_cases hfeb : mp = 11
  · subst hfeb
    have hdays : daysInMonth (400 * era + (100 * c + 4 * q + r) + 1) 2
        = if r = 3 ∧ (q < 24 ∨ c = 3) then 29 else 28 := by
      unfold daysInMonth
      simp only [hleap, if_true]
    norm_num only [if_false]
    rw [hdays]
    unfold monthStart
    split_ifs <;> omega
  · unfold daysInMonth monthStart at *
    have hcases : mp = 0 ∨ mp = 1 ∨ mp = 2 ∨ mp = 3 ∨ mp = 4 ∨ mp = 5 ∨ mp = 6 ∨ mp = 7 ∨ mp = 8
      ∨ mp = 9 ∨ mp = 10 := by omega
    rcases hcases with rfl | rfl | rfl | rfl | rfl | rfl | rfl | rfl | rfl | rfl | rfl <;>
      norm_num <;> omega

/-- The date of a day exists, and has that day. -/
lemma days_civil (z : ℤ) : ∃ y m d, civilFromDays z = (y, m, d) ∧ ValidDate y m d
    ∧ daysFromCivil y m d = z := by
  obtain ⟨era, c, q, r, w, h, hz⟩ := exists_era z
  obtain ⟨mp, h0, h1, hlo, hhi⟩ := @exists_month w h.day_nonneg (by have := h.day_le; omega)
  obtain ⟨hm, hm', hmarch, hyear⟩ := month_of_march h0 h1
  have hvalid := @valid_of_era era c q r w mp h h0 h1 hlo hhi
  have hday : w - monthStart mp + 1 < 2 ^ 32 := by
    have := h.day_le
    unfold monthStart
    omega
  refine ⟨_, _, _, civilFromDays_eq h hz h0 h1 hlo hhi, ?_, ?_⟩
  · rw [asU32_eq (by omega) (by omega), asU32_eq (by have := hvalid.day_pos; omega) hday]
    exact hvalid
  · rw [asU32_eq (by omega) (by omega), asU32_eq (by have := hvalid.day_pos; omega) hday,
      daysFromCivil_eq hm hm' h (hyear _), hmarch]
    omega

/-- A date that exists has its place in an era. -/
lemma era_of_valid (h : ValidDate y m d) : ∃ era c q r w, InEra c q r w
    ∧ marchYear y m = 400 * era + (100 * c + 4 * q + r) ∧ w = monthStart (fromMarch m) + d - 1
    ∧ w < monthStart (fromMarch m + 1) := by
  obtain ⟨hm, hm', hd, hd'⟩ := h
  obtain ⟨yoe, hyoe⟩ : ∃ yoe, yoe = marchYear y m % 400 := ⟨_, rfl⟩
  have hsplit : marchYear y m = 400 * (marchYear y m / 400) + (100 * (yoe / 100)
      + 4 * (yoe % 100 / 4) + yoe % 4) := by omega
  have hplace : InEra (yoe / 100) (yoe % 100 / 4) (yoe % 4) 0 :=
    ⟨by omega, by omega, by omega, le_rfl, by omega⟩
  have hleap := isLeap_next hplace (marchYear y m / 400)
  rw [← hsplit] at hleap
  have hbounds : monthStart (fromMarch m) + d - 1 < monthStart (fromMarch m + 1)
      ∧ (monthStart (fromMarch m) + d - 1 ≤ 364 ∨ monthStart (fromMarch m) + d - 1 = 365
        ∧ yoe % 4 = 3 ∧ (yoe % 100 / 4 < 24 ∨ yoe / 100 = 3)) ∧ 0 ≤ monthStart (fromMarch m) := by
    unfold daysInMonth at hd'
    by_cases hfeb : m = 2
    · subst hfeb
      have hnext : marchYear y 2 + 1 = y := by
        unfold marchYear
        norm_num
      rw [hnext] at hleap
      rw [if_pos rfl] at hd'
      have hmarch : fromMarch 2 = 11 := rfl
      rw [hmarch]
      unfold monthStart
      split_ifs at hd' with hy
      · have := hleap.1 hy
        omega
      · omega
    · rw [if_neg hfeb] at hd'
      unfold fromMarch monthStart
      have hcases : m = 1 ∨ m = 3 ∨ m = 4 ∨ m = 5 ∨ m = 6 ∨ m = 7 ∨ m = 8 ∨ m = 9 ∨ m = 10
        ∨ m = 11 ∨ m = 12 := by omega
      rcases hcases with rfl | rfl | rfl | rfl | rfl | rfl | rfl | rfl | rfl | rfl | rfl <;>
        norm_num at hd' ⊢ <;> omega
  obtain ⟨hlt, hlast, hstart⟩ := hbounds
  exact ⟨marchYear y m / 400, yoe / 100, yoe % 100 / 4, yoe % 4, monthStart (fromMarch m) + d - 1,
    ⟨hplace.century, hplace.four, hplace.year, by omega, hlast⟩, hsplit, rfl, hlt⟩

/-- A date that exists comes back from its day. -/
lemma civil_days (h : ValidDate y m d) :
    civilFromDays (daysFromCivil y m d) = (y, m.toNat, d.toNat) := by
  obtain ⟨era, c, q, r, w, hin, hy, hw, hlt⟩ := era_of_valid h
  obtain ⟨hm, hm', hd, hd'⟩ := h
  obtain ⟨h0, h1⟩ := fromMarch_bounds hm hm'
  have hz : daysFromCivil y m d + 719468
      = 146097 * era + (36524 * c + 1461 * q + 365 * r + w) := by
    rw [daysFromCivil_eq hm hm' hin hy]
    omega
  have hmonth : (if fromMarch m < 10 then fromMarch m + 3 else fromMarch m - 9) = m := by
    unfold fromMarch
    split_ifs <;> omega
  have hyear : 400 * era + (100 * c + 4 * q + r) + (if fromMarch m < 10 then 0 else 1) = y := by
    rw [← hy]
    unfold marchYear fromMarch
    split_ifs <;> omega
  have hday : w - monthStart (fromMarch m) + 1 = d := by omega
  have hsmall : d < 2 ^ 32 := by
    have hlast := hin.day_le
    have hstart : 0 ≤ monthStart (fromMarch m) := by
      unfold monthStart
      omega
    omega
  rw [civilFromDays_eq hin hz h0 h1 (by omega) hlt, hmonth, hyear, hday]
  refine Prod.ext rfl (Prod.ext ?_ ?_)
  · have := asU32_eq (n := m) (by omega) (by omega)
    dsimp only
    omega
  · have := asU32_eq (n := d) (by omega) hsmall
    dsimp only
    omega

/-- The days before a year that begins in March. -/
def daysBefore (y : ℤ) : ℤ := 365 * y + y / 4 - y / 100 + y / 400

lemma daysFromCivil_floor (hm : 1 ≤ m) (hm' : m ≤ 12) : daysFromCivil y m d
    = daysBefore (marchYear y m) + (monthStart (fromMarch m) + d - 1) - 719468 := by
  obtain ⟨yoe, hyoe⟩ : ∃ yoe, yoe = marchYear y m % 400 := ⟨_, rfl⟩
  have hplace : InEra (yoe / 100) (yoe % 100 / 4) (yoe % 4) 0 :=
    ⟨by omega, by omega, by omega, le_rfl, by omega⟩
  have hera : marchYear y m
      = 400 * (marchYear y m / 400) + (100 * (yoe / 100) + 4 * (yoe % 100 / 4) + yoe % 4) := by omega
  rw [daysFromCivil_eq hm hm' hplace hera, daysBefore]
  omega

/-- A year has a day more if it ends in a leap year. -/
lemma daysBefore_succ (y : ℤ) :
    daysBefore (y + 1) = daysBefore y + 365 + (if IsLeap (y + 1) then 1 else 0) := by
  unfold daysBefore IsLeap
  split_ifs <;> omega

lemma daysBefore_mono {a b : ℤ} (h : a ≤ b) : daysBefore a ≤ daysBefore b := by
  refine monotone_int_of_le_succ (fun n => ?_) h
  rw [daysBefore_succ]
  split_ifs <;> omega

/-- The day after a date is the next day. -/
lemma days_next (h : ValidDate y m d) :
    daysFromCivil (nextDate y m d).1 (nextDate y m d).2.1 (nextDate y m d).2.2
      = daysFromCivil y m d + 1 := by
  obtain ⟨hm, hm', hd, hd'⟩ := h
  unfold nextDate
  split_ifs with hday hmonth <;> dsimp only
  · rw [daysFromCivil_floor hm hm', daysFromCivil_floor hm hm']
    ring
  · have hlast : d = daysInMonth y m := by omega
    rw [daysFromCivil_floor (by omega) (by omega), daysFromCivil_floor hm hm', hlast]
    by_cases hfeb : m = 2
    · -- a year from March ends
      subst hfeb
      have hsucc := daysBefore_succ (y - 1)
      rw [sub_add_cancel] at hsucc
      have hyear : marchYear y (2 + 1) = y ∧ marchYear y 2 = y - 1 := ⟨rfl, rfl⟩
      have hmarch : fromMarch (2 + 1) = 0 ∧ fromMarch 2 = 11 := ⟨rfl, rfl⟩
      rw [hyear.1, hyear.2, hmarch.1, hmarch.2, hsucc]
      unfold daysInMonth monthStart
      rw [if_pos rfl]
      split_ifs <;> omega
    · have hyear : marchYear y (m + 1) = marchYear y m := by
        unfold marchYear
        split_ifs <;> omega
      rw [hyear]
      unfold daysInMonth monthStart fromMarch
      have hcases : m = 1 ∨ m = 3 ∨ m = 4 ∨ m = 5 ∨ m = 6 ∨ m = 7 ∨ m = 8 ∨ m = 9 ∨ m = 10
        ∨ m = 11 := by omega
      rcases hcases with rfl | rfl | rfl | rfl | rfl | rfl | rfl | rfl | rfl | rfl <;>
        norm_num <;> omega
  · have hdec : m = 12 := by omega
    subst hdec
    have hlast : d = 31 := by
      have hlen : daysInMonth y 12 = 31 := rfl
      omega
    rw [daysFromCivil_floor (by norm_num) (by norm_num), daysFromCivil_floor hm hm', hlast]
    have hyear : marchYear (y + 1) 1 = y ∧ marchYear y 12 = y := by
      unfold marchYear
      norm_num
    rw [hyear.1, hyear.2]
    have hmarch : fromMarch 1 = 10 ∧ fromMarch 12 = 9 := ⟨rfl, rfl⟩
    rw [hmarch.1, hmarch.2]
    unfold monthStart
    omega

lemma days_epoch : daysFromCivil 1970 1 1 = 0 := by decide

end Dates

end Arkeion.Sql.Datetime
