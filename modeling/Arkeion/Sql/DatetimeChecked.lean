import Arkeion.Fts.Index
import Arkeion.RecordWalk
import Arkeion.Sql.DatetimeSpec
import Arkeion.Sql.Window

/-!
Words and slices with the checks of a debug build: a number that leaves its word and a place outside
of a slice end the process.

The text of an instant with these checks, which never fire: every number on the way from the
milliseconds to a date and back to the day of the year stays within its word.
-/

namespace Arkeion.Sql.Scalar

open Arkeion.Lib Catalog

def addI64 (a b : ℤ) : Result ℤ := isize (a + b) "attempt to add with overflow"

def subI64 (a b : ℤ) : Result ℤ := isize (a - b) "attempt to subtract with overflow"

def mulI64 (a b : ℤ) : Result ℤ := isize (a * b) "attempt to multiply with overflow"

def mulU64 (a b : ℕ) : Result ℕ := do
  require (a * b < 2 ^ 64) (.panic "attempt to multiply with overflow")
  .ok (a * b)

/-- `xs[b..e]` -/
def slice {α : Type} (xs : List α) (b e : ℕ) : Result (List α) := do
  require (b ≤ e) (.panic "slice index starts after its end")
  require (e ≤ xs.length) (.panic "range end index out of range for slice")
  .ok ((xs.take e).drop b)

/-- `xs[i]` -/
def index {α : Type} (xs : List α) (i : ℕ) : Result α := okOr xs[i]? (.panic "index out of bounds")

/-- `repeat` of one character of one byte; a buffer has less than 2^63 bytes. -/
def repeatChar (c : Char) (n : ℕ) : Result (List Char) := do
  require (n < 2 ^ 63) (.panic "capacity overflow")
  .ok (List.replicate n c)

def unreachable {α : Type} : Result α := .error (.panic "internal error: entered unreachable code")

section Rules
variable {a b : ℤ} {n m i : ℕ} {msg : String} {α β : Type} {xs : List α}

/-- A word of 64 bits with its sign. -/
def InI64 (n : ℤ) : Prop := -2 ^ 63 ≤ n ∧ n < 2 ^ 63

instance (n : ℤ) : Decidable (InI64 n) := inferInstanceAs (Decidable (_ ∧ _))

lemma inI64_toInt (n : Int64) : InI64 n.toInt := ⟨n.le_toInt, n.toInt_lt⟩

lemma isize_ok (h : InI64 a) : isize a msg = .ok a := by
  unfold InI64 at h
  rw [isize, require_pos h]
  rfl

lemma panics_require {p : Prop} [Decidable p] : Panics (require p (.panic msg)) ↔ ¬ p := by
  unfold require
  split_ifs with hp
  · simp [hp]
  · simp [hp, Error.IsPanic]

lemma panics_isize : Panics (isize a msg) ↔ ¬ InI64 a := by
  rw [isize, panics_bind, panics_require]
  simp [InI64]

lemma isize_eq_ok {c : ℤ} : isize a msg = .ok c ↔ InI64 a ∧ c = a := by
  rw [isize, bind_eq_ok]
  constructor
  · rintro ⟨u, hu, hc⟩
    cases hc
    exact ⟨require_eq_ok.1 hu, rfl⟩
  · rintro ⟨h, rfl⟩
    exact ⟨(), require_eq_ok.2 h, rfl⟩

lemma addI64_ok (h : -2 ^ 63 ≤ a + b) (h' : a + b < 2 ^ 63) : addI64 a b = .ok (a + b) :=
  isize_ok ⟨h, h'⟩

lemma subI64_ok (h : -2 ^ 63 ≤ a - b) (h' : a - b < 2 ^ 63) : subI64 a b = .ok (a - b) :=
  isize_ok ⟨h, h'⟩

lemma mulI64_ok (h : -2 ^ 63 ≤ a * b) (h' : a * b < 2 ^ 63) : mulI64 a b = .ok (a * b) :=
  isize_ok ⟨h, h'⟩

lemma index_ok (h : i < xs.length) : index xs i = .ok (xs.get ⟨i, h⟩) := by
  rw [index, List.getElem?_eq_getElem h]
  rfl

lemma slice_ok (h : n ≤ m) (hm : m ≤ xs.length) : slice xs n m = .ok ((xs.take m).drop n) := by
  rw [slice, require_pos h, require_pos hm]
  rfl

end Rules

end Arkeion.Sql.Scalar

namespace Arkeion.Sql.Datetime

open Arkeion.Lib Scalar

/-! ### The source with its checks -/

def marchYearChecked (y m : ℤ) : Result ℤ := if m ≤ 2 then subI64 y 1 else .ok y

def fromMarchChecked (m : ℤ) : Result ℤ := if 2 < m then subI64 m 3 else addI64 m 9

def toMarchChecked (mp : ℤ) : Result ℤ := if mp < 10 then addI64 mp 3 else subI64 mp 9

/-- A number made smaller by `k` if it is below zero. -/
def lowered (k z : ℤ) : Result ℤ := if 0 ≤ z then .ok z else subI64 z k

def daysFromCivilChecked (y m d : ℤ) : Result ℤ := do
  let y ← marchYearChecked y m
  let z ← lowered 399 y
  let era := z.tdiv 400
  let start ← mulI64 era 400
  let yoe ← subI64 y start
  let mp ← fromMarchChecked m
  let month ← mulI64 153 mp
  let month ← addI64 month 2
  let doy ← addI64 (month.tdiv 5) d
  let doy ← subI64 doy 1
  let days ← mulI64 yoe 365
  let days ← addI64 days (yoe.tdiv 4)
  let days ← subI64 days (yoe.tdiv 100)
  let doe ← addI64 days doy
  let eras ← mulI64 era 146097
  let n ← addI64 eras doe
  subI64 n 719468

/-- The year of an era, by its day. -/
def yearOfEraChecked (doe : ℤ) : Result ℤ := do
  let years ← subI64 doe (doe.tdiv 1460)
  let years ← addI64 years (doe.tdiv 36524)
  let years ← subI64 years (doe.tdiv 146096)
  .ok (years.tdiv 365)

def dayOfYearChecked (doe yoe : ℤ) : Result ℤ := do
  let days ← mulI64 365 yoe
  let days ← addI64 days (yoe.tdiv 4)
  let days ← subI64 days (yoe.tdiv 100)
  subI64 doe days

/-- The day of the month, and the month. -/
def dayAndMonthChecked (doy : ℤ) : Result (ℤ × ℤ) := do
  let five ← mulI64 5 doy
  let five ← addI64 five 2
  let mp := five.tdiv 153
  let month ← mulI64 153 mp
  let month ← addI64 month 2
  let d ← subI64 doy (month.tdiv 5)
  let d ← addI64 d 1
  let m ← toMarchChecked mp
  .ok (d, m)

def civilFromDaysChecked (z : ℤ) : Result (ℤ × ℕ × ℕ) := do
  let z ← addI64 z 719468
  let w ← lowered 146096 z
  let era := w.tdiv 146097
  let start ← mulI64 era 146097
  let doe ← subI64 z start
  let yoe ← yearOfEraChecked doe
  let eras ← mulI64 era 400
  let y ← addI64 yoe eras
  let doy ← dayOfYearChecked doe yoe
  let (d, m) ← dayAndMonthChecked doy
  let y ← addI64 y (if m ≤ 2 then 1 else 0)
  .ok (y, asU32 m, asU32 d)

/-- Rounded down by `div_euclid`, of which only `MIN / -1` would leave the word. -/
def msToPartsChecked (ms : ℤ) : Result Parts := do
  let secs := ms / 1000
  let tod := secs % 86400
  let (y, mo, d) ← civilFromDaysChecked (secs / 86400)
  .ok ⟨y, mo, d, asU32 (tod.tdiv 3600), asU32 ((tod.tmod 3600).tdiv 60), asU32 (tod.tmod 60)⟩

def strftimeCodeChecked (p : Parts) (c : Char) : Result (List Char) :=
  if c = 'j' then do
    let day ← daysFromCivilChecked p.year p.month p.day
    let first ← daysFromCivilChecked p.year 1 1
    let doy ← subI64 day first
    let doy ← addI64 doy 1
    .ok (fmtInt 3 doy)
  else .ok (strftimeCode p c)

def strftimePartsChecked (p : Parts) : List Char → Result (List Char)
  | [] => .ok []
  | '%' :: c :: fmt => do
    let code ← strftimeCodeChecked p c
    let rest ← strftimePartsChecked p fmt
    .ok (code ++ rest)
  | c :: fmt => do
    let rest ← strftimePartsChecked p fmt
    .ok (c :: rest)

def strftimeChecked (fmt : List Char) (ms : ℤ) : Result (List Char) := do
  let p ← msToPartsChecked ms
  strftimePartsChecked p fmt

/-! ### The checks do not fire -/

section Ranges
variable {y m d z ms : ℤ} {p : Parts} {c : Char} {fmt : List Char}

lemma ite_ok {α : Type} {q : Prop} [Decidable q] {x y : α} :
    (if q then (.ok x : Result α) else .ok y) = .ok (if q then x else y) := by
  split_ifs <;> rfl

/-- The checked steps towards an era: it is the quotient rounded down, and what is left of the number
is not negative. -/
lemma era_bounds {b : ℤ} (hb : 0 < b) (z : ℤ) :
    (if 0 ≤ z then z else z - (b - 1)).tdiv b = z / b ∧ 0 ≤ z - z / b * b ∧ z - z / b * b < b := by
  have hmod := Int.emod_add_mul_ediv z b
  have hnonneg := Int.emod_nonneg z hb.ne'
  have hlt := Int.emod_lt_of_pos z hb
  rw [mul_comm] at hmod
  exact ⟨tdiv_floor hb z, by omega, by omega⟩

/-- A date of a year that is not too far away. -/
lemma daysFromCivilChecked_eq (hy : y.natAbs < 2 ^ 50) (hm : 0 ≤ m) (hm' : m < 2 ^ 32) (hd : 0 ≤ d)
    (hd' : d < 2 ^ 32) : daysFromCivilChecked y m d = .ok (daysFromCivil y m d) ∧
      (daysFromCivil y m d).natAbs < 2 ^ 61 := by
  obtain ⟨w, hw⟩ : ∃ w, w = if m ≤ 2 then y - 1 else y := ⟨_, rfl⟩
  obtain ⟨mp, hmp⟩ : ∃ mp, mp = if 2 < m then m - 3 else m + 9 := ⟨_, rfl⟩
  have hyear : marchYearChecked y m = .ok w := by
    rw [marchYearChecked, hw, subI64_ok (by omega) (by omega), ite_ok]
  have hmonth : fromMarchChecked m = .ok mp := by
    rw [fromMarchChecked, hmp, subI64_ok (by omega) (by omega), addI64_ok (by omega) (by omega), ite_ok]
  have hw1 : w.natAbs ≤ 2 ^ 50 := by
    rw [hw]
    split_ifs <;> omega
  have hmp1 : 0 ≤ mp ∧ mp < 2 ^ 32 + 9 := by
    rw [hmp]
    split_ifs <;> omega
  have hshift : lowered 399 w = .ok (if 0 ≤ w then w else w - 399) := by
    rw [lowered, subI64_ok (by omega) (by omega), ite_ok]
  obtain ⟨hera, hyoe, hyoe'⟩ := era_bounds (b := 400) (by norm_num) w
  norm_num only at hera
  have hquot : (w - w / 400 * 400).tdiv 4 = (w - w / 400 * 400) / 4 :=
    Int.tdiv_eq_ediv_of_nonneg hyoe
  have hcent : (w - w / 400 * 400).tdiv 100 = (w - w / 400 * 400) / 100 :=
    Int.tdiv_eq_ediv_of_nonneg hyoe
  have hday : (153 * mp + 2).tdiv 5 = (153 * mp + 2) / 5 := Int.tdiv_eq_ediv_of_nonneg (by omega)
  have hplain : daysFromCivil y m d = w / 400 * 146097 + ((w - w / 400 * 400) * 365
      + (w - w / 400 * 400) / 4 - (w - w / 400 * 400) / 100 + ((153 * mp + 2) / 5 + d - 1)) - 719468 := by
    rw [← hday, ← hquot, ← hcent, ← hera, hmp, hw]
    rfl
  rw [daysFromCivilChecked, hyear, hmonth, ok_bind, hshift, hplain]
  refine ⟨?_, by omega⟩
  simp (disch := omega) only [ok_bind, hera, mulI64_ok, subI64_ok, addI64_ok, hday, hquot, hcent]

lemma yearOfEraChecked_eq {doe : ℤ} (h : 0 ≤ doe) (h' : doe < 146097) :
    yearOfEraChecked doe = .ok ((doe - doe.tdiv 1460 + doe.tdiv 36524 - doe.tdiv 146096).tdiv 365) ∧
      0 ≤ (doe - doe.tdiv 1460 + doe.tdiv 36524 - doe.tdiv 146096).tdiv 365 ∧
      (doe - doe.tdiv 1460 + doe.tdiv 36524 - doe.tdiv 146096).tdiv 365 < 400 := by
  have h1460 : doe.tdiv 1460 = doe / 1460 := Int.tdiv_eq_ediv_of_nonneg h
  have h36524 : doe.tdiv 36524 = doe / 36524 := Int.tdiv_eq_ediv_of_nonneg h
  have h146096 : doe.tdiv 146096 = doe / 146096 := Int.tdiv_eq_ediv_of_nonneg h
  have hyears : (doe - doe / 1460 + doe / 36524 - doe / 146096).tdiv 365
      = (doe - doe / 1460 + doe / 36524 - doe / 146096) / 365 :=
    Int.tdiv_eq_ediv_of_nonneg (by omega)
  rw [yearOfEraChecked, h1460, h36524, h146096, hyears]
  refine ⟨?_, by omega, by omega⟩
  simp (disch := omega) only [subI64_ok, addI64_ok, ok_bind, hyears]

lemma dayOfYearChecked_eq {doe yoe : ℤ} (h : 0 ≤ doe) (h' : doe < 146097) (hy : 0 ≤ yoe)
    (hy' : yoe < 400) :
    dayOfYearChecked doe yoe = .ok (doe - (365 * yoe + yoe.tdiv 4 - yoe.tdiv 100)) ∧
      (doe - (365 * yoe + yoe.tdiv 4 - yoe.tdiv 100)).natAbs < 2 ^ 20 := by
  have hquot : yoe.tdiv 4 = yoe / 4 := Int.tdiv_eq_ediv_of_nonneg hy
  have hcent : yoe.tdiv 100 = yoe / 100 := Int.tdiv_eq_ediv_of_nonneg hy
  rw [dayOfYearChecked, hquot, hcent]
  refine ⟨?_, by omega⟩
  simp (disch := omega) only [subI64_ok, addI64_ok, mulI64_ok, ok_bind]

lemma dayAndMonthChecked_eq {doy mp : ℤ} (h : doy.natAbs < 2 ^ 20) (hmp : mp = (5 * doy + 2).tdiv 153) :
    dayAndMonthChecked doy
      = .ok (doy - (153 * mp + 2).tdiv 5 + 1, if mp < 10 then mp + 3 else mp - 9) := by
  have hmp0 := Int.natAbs_tdiv_le_natAbs (5 * doy + 2) 153
  have hstart := Int.natAbs_tdiv_le_natAbs (153 * mp + 2) 5
  rw [← hmp] at hmp0
  have hmonth : toMarchChecked mp = .ok (if mp < 10 then mp + 3 else mp - 9) := by
    rw [toMarchChecked, subI64_ok (by omega) (by omega), addI64_ok (by omega) (by omega), ite_ok]
  rw [dayAndMonthChecked]
  simp (disch := omega) only [subI64_ok, addI64_ok, mulI64_ok, ok_bind, ← hmp, hmonth]

/-- A day that is not too far away. -/
lemma civilFromDaysChecked_eq (hz : -2 ^ 40 ≤ z) (hz' : z ≤ 2 ^ 40) :
    civilFromDaysChecked z = .ok (civilFromDays z) ∧ (civilFromDays z).1.natAbs < 2 ^ 50 := by
  obtain ⟨w, hw⟩ : ∃ w, w = z + 719468 := ⟨_, rfl⟩
  have hshift : lowered 146096 w = .ok (if 0 ≤ w then w else w - 146096) := by
    rw [lowered, subI64_ok (by omega) (by omega), ite_ok]
  obtain ⟨hera, hdoe, hdoe'⟩ := era_bounds (b := 146097) (by norm_num) w
  norm_num only at hera
  obtain ⟨doe, hdoe_eq⟩ : ∃ doe, doe = w - w / 146097 * 146097 := ⟨_, rfl⟩
  rw [← hdoe_eq] at hdoe hdoe'
  obtain ⟨hyoe, hyoe0, hyoe1⟩ := yearOfEraChecked_eq hdoe hdoe'
  obtain ⟨yoe, hyoe_eq⟩ : ∃ yoe, yoe
    = (doe - doe.tdiv 1460 + doe.tdiv 36524 - doe.tdiv 146096).tdiv 365 := ⟨_, rfl⟩
  rw [← hyoe_eq] at hyoe hyoe0 hyoe1
  obtain ⟨hdoy, hdoy0⟩ := dayOfYearChecked_eq hdoe hdoe' hyoe0 hyoe1
  obtain ⟨doy, hdoy_eq⟩ : ∃ doy, doy = doe - (365 * yoe + yoe.tdiv 4 - yoe.tdiv 100) := ⟨_, rfl⟩
  rw [← hdoy_eq] at hdoy hdoy0
  have hmonth := dayAndMonthChecked_eq hdoy0 rfl
  obtain ⟨mp, hmp⟩ : ∃ mp, mp = (5 * doy + 2).tdiv 153 := ⟨_, rfl⟩
  obtain ⟨m, hm⟩ : ∃ m, m = if mp < 10 then mp + 3 else mp - 9 := ⟨_, rfl⟩
  rw [← hmp, ← hm] at hmonth
  have hturn : (0 : ℤ) ≤ (if m ≤ 2 then 1 else 0) ∧ (if m ≤ 2 then (1 : ℤ) else 0) ≤ 1 := by
    split_ifs <;> omega
  have hplain : civilFromDays z = (yoe + w / 146097 * 400 + (if m ≤ 2 then 1 else 0), asU32 m,
      asU32 (doy - (153 * mp + 2).tdiv 5 + 1)) := by
    rw [hm, hmp, hdoy_eq, hyoe_eq, hdoe_eq, ← hera, hw]
    rfl
  rw [hplain]
  refine ⟨?_, by dsimp only; omega⟩
  rw [civilFromDaysChecked, addI64_ok (by omega) (by omega), ok_bind, ← hw, hshift]
  simp (disch := omega) only [ok_bind, hera, mulI64_ok, subI64_ok, ← hdoe_eq, hyoe, addI64_ok, hdoy,
    hmonth]

lemma asU32_lt (n : ℤ) : (asU32 n : ℤ) < 2 ^ 32 := by
  unfold asU32
  omega

lemma civilFromDays_lt (z : ℤ) :
    ((civilFromDays z).2.1 : ℤ) < 2 ^ 32 ∧ ((civilFromDays z).2.2 : ℤ) < 2 ^ 32 :=
  ⟨asU32_lt _, asU32_lt _⟩

/-- The fields of a date that an instant gives. -/
structure Parts.Near (p : Parts) : Prop where
  year : p.year.natAbs < 2 ^ 50
  month : (p.month : ℤ) < 2 ^ 32
  day : (p.day : ℤ) < 2 ^ 32

lemma msToPartsChecked_eq (h : InI64 ms) :
    msToPartsChecked ms = .ok (msToParts ms) ∧ (msToParts ms).Near := by
  obtain ⟨hlo, hhi⟩ := h
  obtain ⟨hdays, hyear⟩ := civilFromDaysChecked_eq (z := ms / 1000 / 86400) (by omega) (by omega)
  obtain ⟨hmonth, hday⟩ := civilFromDays_lt (ms / 1000 / 86400)
  rw [msToPartsChecked]
  exact ⟨by rw [hdays]; rfl, hyear, hmonth, hday⟩

lemma strftimeCodeChecked_eq (hp : p.Near) : strftimeCodeChecked p c = .ok (strftimeCode p c) := by
  rw [strftimeCodeChecked]
  split_ifs with hc
  · obtain ⟨hday, hday0⟩ := daysFromCivilChecked_eq hp.year (Int.natCast_nonneg p.month)
      hp.month (Int.natCast_nonneg p.day) hp.day
    have hone : (1 : ℤ) < 2 ^ 32 := by norm_num
    obtain ⟨hfirst, hfirst0⟩ := daysFromCivilChecked_eq hp.year zero_le_one hone zero_le_one hone
    rw [hday, hfirst, ok_bind, ok_bind, subI64_ok (by omega) (by omega), ok_bind,
      addI64_ok (by omega) (by omega), hc]
    rfl
  · rfl

lemma strftimePartsChecked_eq (hp : p.Near) :
    strftimePartsChecked p fmt = .ok (strftimeParts p fmt) := by
  induction fmt using strftimeParts.induct with
  | case1 => rfl
  | case2 c fmt ih =>
    rw [strftimePartsChecked, strftimeCodeChecked_eq hp, ih]
    rfl
  | case3 c fmt hc ih =>
    rw [strftimePartsChecked, ih, strftimeParts]
    · rfl
    · exact hc
    · exact hc

/-- No check fires for an instant in milliseconds of 64 bits. -/
lemma strftimeChecked_eq (h : InI64 ms) : strftimeChecked fmt ms = .ok (strftime fmt ms) := by
  obtain ⟨hparts, hnear⟩ := msToPartsChecked_eq h
  rw [strftimeChecked, hparts]
  exact strftimePartsChecked_eq hnear

end Ranges

end Arkeion.Sql.Datetime
