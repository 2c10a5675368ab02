import Mathlib.Tactic.Linarith
import Mathlib.Tactic.Ring

/-!
The Gregorian calendar, also before it was in use.

Years that begin in March repeat in eras of 400: four centuries of 36524 days and the day of the last
leap year, each of 25 times four years of 1461 days, but for the last day of the first three.
-/

namespace Arkeion.Lib

def IsLeap (y : ℤ) : Prop := y % 4 = 0 ∧ (y % 100 ≠ 0 ∨ y % 400 = 0)

instance : DecidablePred IsLeap := fun _ => inferInstanceAs (Decidable (_ ∧ _))

def daysInMonth (y m : ℤ) : ℤ :=
  if m = 2 then (if IsLeap y then 29 else 28)
  else if m = 4 ∨ m = 6 ∨ m = 9 ∨ m = 11 then 30
  else 31

/-- A day of the calendar. -/
structure ValidDate (y m d : ℤ) : Prop where
  month_pos : 1 ≤ m
  month_le : m ≤ 12
  day_pos : 1 ≤ d
  day_le : d ≤ daysInMonth y m

instance (y m d : ℤ) : Decidable (ValidDate y m d) :=
  decidable_of_iff (1 ≤ m ∧ m ≤ 12 ∧ 1 ≤ d ∧ d ≤ daysInMonth y m)
    ⟨fun h => ⟨h.1, h.2.1, h.2.2.1, h.2.2.2⟩, fun h => ⟨h.1, h.2, h.3, h.4⟩⟩

/-- The day after. -/
def nextDate (y m d : ℤ) : ℤ × ℤ × ℤ :=
  if d < daysInMonth y m then (y, m, d + 1)
  else if m < 12 then (y, m + 1, 1)
  else (y + 1, 1, 1)

/-! ### Days of an era -/

/-- The first day of a year of an era. -/
def yearStart (yoe : ℤ) : ℤ := 365 * yoe + yoe / 4 - yoe / 100

/-- A century, four years of it, one of those, and a day of the year. -/
structure InEra (c q r w : ℤ) : Prop where
  century : 0 ≤ c ∧ c ≤ 3
  four : 0 ≤ q ∧ q ≤ 24
  year : 0 ≤ r ∧ r ≤ 3
  day_nonneg : 0 ≤ w
  day_le : w ≤ 364 ∨ w = 365 ∧ r = 3 ∧ (q < 24 ∨ c = 3)

section Era
variable {a b c k q r w doe : ℤ}

lemma ediv_eq_of_bounds (hb : 0 < b) (hlo : k * b ≤ a) (hhi : a < (k + 1) * b) : a / b = k :=
  le_antisymm (Int.lt_add_one_iff.1 (Int.ediv_lt_of_lt_mul hb hhi)) (Int.le_ediv_of_mul_le hb hlo)

lemma yearStart_eq (h : InEra c q r w) :
    yearStart (100 * c + 4 * q + r) = 36524 * c + 1461 * q + 365 * r := by
  obtain ⟨hc, hq, hr, -, -⟩ := h
  have h4 : (100 * c + 4 * q + r) / 4 = 25 * c + q :=
    ediv_eq_of_bounds (by norm_num) (by omega) (by omega)
  have h100 : (100 * c + 4 * q + r) / 100 = c :=
    ediv_eq_of_bounds (by norm_num) (by omega) (by omega)
  rw [yearStart, h4, h100]
  ring

/-- The year of a day of an era in closed form. -/
lemma yearOf_eq (h : InEra c q r w) (hdoe : doe = 36524 * c + 1461 * q + 365 * r + w) :
    (doe - doe / 1460 + doe / 36524 - doe / 146096) / 365 = 100 * c + 4 * q + r := by
  obtain ⟨hc, hq, hr, hw, hlast⟩ := h
  -- four years have a day more than 1460, which shows on the last day of the fourth
  have h1460 : (doe / 1460 = 25 * c + q ∧ w ≤ 364) ∨ (doe / 1460 = 25 * c + q + 1 ∧ 1 ≤ w) := by
    rcases lt_or_ge (24 * c + q + 365 * r + w) 1460 with hlt | hge
    · exact Or.inl ⟨ediv_eq_of_bounds (by norm_num) (by omega) (by omega), by omega⟩
    · exact Or.inr ⟨ediv_eq_of_bounds (by norm_num) (by omega) (by omega), by omega⟩
  have hcentury : doe / 36524 - doe / 146096 = c := by
    rcases lt_or_ge doe 146096 with hlt | hge
    · have h1 : doe / 36524 = c := ediv_eq_of_bounds (by norm_num) (by omega) (by omega)
      have h2 : doe / 146096 = 0 := ediv_eq_of_bounds (by norm_num) (by omega) (by omega)
      omega
    · have h1 : doe / 36524 = c + 1 := ediv_eq_of_bounds (by norm_num) (by omega) (by omega)
      have h2 : doe / 146096 = 1 := ediv_eq_of_bounds (by norm_num) (by omega) (by omega)
      omega
  exact ediv_eq_of_bounds (by norm_num) (by omega) (by omega)

lemma exists_inEra (h0 : 0 ≤ doe) (h1 : doe ≤ 146096) :
    ∃ c q r w, InEra c q r w ∧ doe = 36524 * c + 1461 * q + 365 * r + w := by
  obtain ⟨c, hc0, hc3, hlo, hhi⟩ :
      ∃ c, 0 ≤ c ∧ c ≤ 3 ∧ 36524 * c ≤ doe ∧ (doe < 36524 * (c + 1) ∨ c = 3) :=
    ⟨min (doe / 36524) 3, by omega, by omega, by omega, by omega⟩
  obtain ⟨q, hq0, hq, hqlo, hqhi⟩ :
      ∃ q, 0 ≤ q ∧ q ≤ 24 ∧ 1461 * q ≤ doe - 36524 * c ∧ doe - 36524 * c < 1461 * (q + 1) :=
    ⟨(doe - 36524 * c) / 1461, by omega, by omega, by omega, by omega⟩
  obtain ⟨r, hr0, hr3, hrlo, hrhi⟩ : ∃ r, 0 ≤ r ∧ r ≤ 3 ∧ 365 * r ≤ doe - 36524 * c - 1461 * q
      ∧ (doe - 36524 * c - 1461 * q < 365 * (r + 1) ∨ r = 3) :=
    ⟨min ((doe - 36524 * c - 1461 * q) / 365) 3, by omega, by omega, by omega, by omega⟩
  exact ⟨c, q, r, doe - 36524 * c - 1461 * q - 365 * r,
    ⟨⟨hc0, hc3⟩, ⟨hq0, hq⟩, ⟨hr0, hr3⟩, by omega, by omega⟩, by ring⟩

/-- The year after, which has the end of February, is a leap year. -/
lemma isLeap_next (h : InEra c q r w) (era : ℤ) :
    IsLeap (400 * era + (100 * c + 4 * q + r) + 1) ↔ r = 3 ∧ (q < 24 ∨ c = 3) := by
  obtain ⟨hc, hq, hr, -, -⟩ := h
  unfold IsLeap
  omega

end Era

end Arkeion.Lib
