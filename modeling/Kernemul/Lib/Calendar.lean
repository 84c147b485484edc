import Mathlib.Data.Int.Basic
import Mathlib.Data.Int.ConditionallyCompleteOrder
import Mathlib.Tactic.Common
import Mathlib.Tactic.SplitIfs
import Mathlib.Tactic.Ring
import Mathlib.Tactic.IntervalCases
import Mathlib.Data.Prod.Lex

/-!
# The Gregorian calendar

Dates and the days since 1 January 1970, of any year before and after. Years are taken to begin in March, so that the
leap day is the last of its year. The two directions are inverse, and the next day is the next date: so these are the
dates of the calendar, and in its order.
-/

namespace Calendar

structure Date where
  year : ℤ
  month : ℤ
  day : ℤ
  deriving DecidableEq, Repr

def IsLeap (year : ℤ) : Prop := year % 4 = 0 ∧ (year % 100 ≠ 0 ∨ year % 400 = 0)

instance (year : ℤ) : Decidable (IsLeap year) := inferInstanceAs (Decidable (_ ∧ _))

def daysInMonth (year month : ℤ) : ℤ :=
  if month = 2 then if IsLeap year then 29 else 28
  else if month = 4 ∨ month = 6 ∨ month = 9 ∨ month = 11 then 30 else 31

structure Date.Valid (d : Date) : Prop where
  month : 1 ≤ d.month ∧ d.month ≤ 12
  day : 1 ≤ d.day ∧ d.day ≤ daysInMonth d.year d.month

def Date.next (d : Date) : Date :=
  if d.day < daysInMonth d.year d.month then { d with day := d.day + 1 }
  else if d.month < 12 then ⟨d.year, d.month + 1, 1⟩
  else ⟨d.year + 1, 1, 1⟩

/-! ## Years that begin in March -/

def yearStart (y : ℤ) : ℤ := 365 * y + y / 4 - y / 100 + y / 400

def monthStart (m : ℤ) : ℤ := (153 * m + 2) / 5

def yearOf (n : ℤ) : ℤ :=
  let era := n / 146097
  let day := n % 146097
  let century := min (day / 36524) 3
  let day := day - 36524 * century
  let quad := day / 1461
  let day := day - 1461 * quad
  let year := min (day / 365) 3
  400 * era + 100 * century + 4 * quad + year

theorem yearStart_digits {e c q r : ℤ} (hc : 0 ≤ c ∧ c ≤ 3) (hq : 0 ≤ q ∧ q ≤ 24) (hr : 0 ≤ r ∧ r ≤ 3) :
    yearStart (400 * e + 100 * c + 4 * q + r) = 146097 * e + 36524 * c + 1461 * q + 365 * r := by
  have h4 : (400 * e + 100 * c + 4 * q + r) / 4 = 100 * e + 25 * c + q := by omega
  have h100 : (400 * e + 100 * c + 4 * q + r) / 100 = 4 * e + c := by omega
  have h400 : (400 * e + 100 * c + 4 * q + r) / 400 = e := by omega
  rw [yearStart, h4, h100, h400]
  ring

/-- Where a day is in the cycles. Only the last of four years has a day more, and of a hundred years the last has one
only if it is the last of four hundred. -/
structure Place (n e c q r k : ℤ) : Prop where
  day : n = 146097 * e + 36524 * c + 1461 * q + 365 * r + k
  century : 0 ≤ c ∧ c ≤ 3
  quad : 0 ≤ q ∧ q ≤ 24
  year : 0 ≤ r ∧ r ≤ 3
  offset : 0 ≤ k ∧ k ≤ 365
  leap : k = 365 → r = 3 ∧ (q = 24 → c = 3)

theorem exists_place (n : ℤ) : ∃ e c q r k, Place n e c q r k ∧ yearOf n = 400 * e + 100 * c + 4 * q + r := by
  have he : n = 146097 * (n / 146097) + n % 146097 := by omega
  have hday : 0 ≤ n % 146097 ∧ n % 146097 < 146097 := by omega
  unfold yearOf
  dsimp only
  generalize n / 146097 = e at *
  generalize n % 146097 = a at *
  have hc : 0 ≤ min (a / 36524) 3 ∧ min (a / 36524) 3 ≤ 3 ∧ 0 ≤ a - 36524 * min (a / 36524) 3 ∧
      (a - 36524 * min (a / 36524) 3 < 36524 ∨
        a - 36524 * min (a / 36524) 3 = 36524 ∧ min (a / 36524) 3 = 3) := by omega
  generalize hcentury : min (a / 36524) 3 = c at *
  have hb : a = 36524 * c + (a - 36524 * c) := by omega
  generalize a - 36524 * c = b at *
  have hq : 0 ≤ b / 1461 ∧ b / 1461 ≤ 24 ∧ 0 ≤ b - 1461 * (b / 1461) ∧ b - 1461 * (b / 1461) < 1461 := by omega
  generalize b / 1461 = q at *
  have hd : b = 1461 * q + (b - 1461 * q) := by omega
  generalize b - 1461 * q = d at *
  have hr : 0 ≤ min (d / 365) 3 ∧ min (d / 365) 3 ≤ 3 ∧ 0 ≤ d - 365 * min (d / 365) 3 ∧
      (d - 365 * min (d / 365) 3 < 365 ∨ d - 365 * min (d / 365) 3 = 365 ∧ min (d / 365) 3 = 3) := by omega
  generalize min (d / 365) 3 = r at *
  refine ⟨e, c, q, r, d - 365 * r, ⟨?_, ?_, ?_, ?_, ?_, ?_⟩, rfl⟩
  all_goals omega

theorem yearOf_spec (n : ℤ) : yearStart (yearOf n) ≤ n ∧ n < yearStart (yearOf n + 1) := by
  obtain ⟨e, c, q, r, k, h, hyear⟩ := exists_place n
  rw [hyear]
  have hstart := yearStart_digits (e := e) h.century h.quad h.year
  obtain ⟨hday, hcentury, hquad, hr, hoffset, hleap⟩ := h
  refine ⟨by omega, ?_⟩
  unfold yearStart at *
  omega

theorem yearStart_succ (y : ℤ) : yearStart (y + 1) = yearStart y + if IsLeap (y + 1) then 366 else 365 := by
  unfold yearStart IsLeap
  split_ifs <;> omega

theorem yearStart_strictMono : StrictMono yearStart := by
  refine strictMono_int_of_lt_succ fun y => ?_
  rw [yearStart_succ]
  split_ifs <;> omega

theorem yearOf_eq {n y : ℤ} (hle : yearStart y ≤ n) (hlt : n < yearStart (y + 1)) : yearOf n = y := by
  obtain ⟨hle', hlt'⟩ := yearOf_spec n
  have hfirst := yearStart_strictMono.lt_iff_lt.mp (lt_of_le_of_lt hle hlt')
  have hlast := yearStart_strictMono.lt_iff_lt.mp (lt_of_le_of_lt hle' hlt)
  omega

theorem monthStart_spec (k m : ℤ) : (5 * k + 2) / 153 = m ↔ monthStart m ≤ k ∧ k < monthStart (m + 1) := by
  unfold monthStart
  omega

def Date.ofMarch (y m day : ℤ) : Date := ⟨if m < 10 then y else y + 1, if m < 10 then m + 3 else m - 9, day⟩

def Date.marchYear (d : Date) : ℤ := if d.month ≤ 2 then d.year - 1 else d.year

def Date.marchMonth (d : Date) : ℤ := if d.month ≤ 2 then d.month + 9 else d.month - 3

theorem marchYear_ofMarch {m : ℤ} (h : 0 ≤ m ∧ m ≤ 11) (y day : ℤ) : (Date.ofMarch y m day).marchYear = y := by
  unfold Date.marchYear Date.ofMarch
  dsimp only
  split_ifs <;> omega

theorem marchMonth_ofMarch {m : ℤ} (h : 0 ≤ m ∧ m ≤ 11) (y day : ℤ) : (Date.ofMarch y m day).marchMonth = m := by
  unfold Date.marchMonth Date.ofMarch
  dsimp only
  split_ifs <;> omega

theorem ofMarch_march {d : Date} (h : 1 ≤ d.month ∧ d.month ≤ 12) :
    Date.ofMarch d.marchYear d.marchMonth d.day = d := by
  obtain ⟨year, month, day⟩ := d
  unfold Date.marchYear Date.marchMonth Date.ofMarch
  dsimp only at h ⊢
  rw [Date.mk.injEq]
  refine ⟨?_, ?_, rfl⟩ <;> split_ifs <;> omega

theorem daysInMonth_ofMarch {m : ℤ} (h : 0 ≤ m ∧ m ≤ 11) (y day : ℤ) :
    let d := Date.ofMarch y m day
    daysInMonth d.year d.month = min (monthStart (m + 1)) (yearStart (y + 1) - yearStart y) - monthStart m := by
  obtain ⟨hfirst, hlast⟩ := h
  rw [yearStart_succ]
  unfold Date.ofMarch daysInMonth monthStart
  dsimp only
  interval_cases m <;> split_ifs <;> omega

/-! ## Dates and days -/

def civilFromDays (days : ℤ) : Date :=
  let n := days + 719468
  let y := yearOf n
  let k := n - yearStart y
  let m := (5 * k + 2) / 153
  .ofMarch y m (k - monthStart m + 1)

def daysFromCivil (d : Date) : ℤ := yearStart d.marchYear + monthStart d.marchMonth + d.day - 1 - 719468

structure InMonth (n y m : ℤ) : Prop where
  year : yearOf n = y
  month : (5 * (n - yearStart y) + 2) / 153 = m
  months : 0 ≤ m ∧ m ≤ 11
  day : monthStart m ≤ n - yearStart y ∧ n - yearStart y < min (monthStart (m + 1)) (yearStart (y + 1) - yearStart y)

theorem exists_inMonth (n : ℤ) : ∃ y m, InMonth n y m := by
  obtain ⟨hle, hlt⟩ := yearOf_spec n
  refine ⟨yearOf n, _, rfl, rfl, ?_, ?_⟩
  · rw [yearStart_succ] at hlt
    split_ifs at hlt <;> omega
  · obtain ⟨hfirst, hlast⟩ := (monthStart_spec (n - yearStart (yearOf n)) _).mp rfl
    exact ⟨hfirst, lt_min hlast (by omega)⟩

theorem civilFromDays_eq {z y m : ℤ} (h : InMonth (z + 719468) y m) :
    civilFromDays z = .ofMarch y m (z + 719468 - yearStart y - monthStart m + 1) := by
  unfold civilFromDays
  dsimp only
  rw [h.year, h.month]

theorem valid_civil (z : ℤ) : (civilFromDays z).Valid := by
  obtain ⟨y, m, h⟩ := exists_inMonth (z + 719468)
  rw [civilFromDays_eq h]
  refine ⟨?_, ?_⟩
  · have hm := h.months
    unfold Date.ofMarch
    dsimp only
    split_ifs <;> omega
  · rw [daysInMonth_ofMarch h.months]
    have hday := h.day
    show 1 ≤ z + 719468 - yearStart y - monthStart m + 1 ∧ z + 719468 - yearStart y - monthStart m + 1 ≤ _
    omega

theorem days_civil (z : ℤ) : daysFromCivil (civilFromDays z) = z := by
  obtain ⟨y, m, h⟩ := exists_inMonth (z + 719468)
  rw [civilFromDays_eq h, daysFromCivil, marchYear_ofMarch h.months, marchMonth_ofMarch h.months]
  show yearStart y + monthStart m + (z + 719468 - yearStart y - monthStart m + 1) - 1 - 719468 = z
  omega

theorem marchMonth_bounds {d : Date} (h : d.Valid) : 0 ≤ d.marchMonth ∧ d.marchMonth ≤ 11 := by
  obtain ⟨hmonth, -⟩ := h
  unfold Date.marchMonth
  split_ifs <;> omega

theorem civil_days {d : Date} (h : d.Valid) : civilFromDays (daysFromCivil d) = d := by
  have hm := marchMonth_bounds h
  have hday := h.day
  have hlength := daysInMonth_ofMarch hm d.marchYear d.day
  rw [ofMarch_march h.month] at hlength
  dsimp only at hlength
  rw [hlength] at hday
  have hfirst : 0 ≤ monthStart d.marchMonth := by
    unfold monthStart
    omega
  have hn : daysFromCivil d + 719468 = yearStart d.marchYear + monthStart d.marchMonth + d.day - 1 := by
    unfold daysFromCivil
    omega
  have hyear : yearOf (daysFromCivil d + 719468) = d.marchYear := yearOf_eq (by omega) (by omega)
  have hin : InMonth (daysFromCivil d + 719468) d.marchYear d.marchMonth := by
    refine ⟨hyear, (monthStart_spec _ _).mpr ?_, hm, ?_⟩
    · omega
    · omega
  rw [civilFromDays_eq hin, hn]
  have hd : yearStart d.marchYear + monthStart d.marchMonth + d.day - 1 - yearStart d.marchYear -
      monthStart d.marchMonth + 1 = d.day := by omega
  rw [hd, ofMarch_march h.month]

theorem valid_next {d : Date} (h : d.Valid) : d.next.Valid := by
  obtain ⟨hmonth, hday⟩ := h
  unfold Date.next
  split_ifs with hsame hyear
  · exact ⟨hmonth, by dsimp only; omega⟩
  · refine ⟨by dsimp only; omega, ?_⟩
    unfold daysInMonth
    dsimp only
    split_ifs <;> omega
  · refine ⟨⟨by norm_num, by norm_num⟩, le_refl 1, ?_⟩
    show (1 : ℤ) ≤ daysInMonth (d.year + 1) 1
    unfold daysInMonth
    norm_num

theorem monthEnd {d : Date} (h : d.Valid) (hlast : d.day = daysInMonth d.year d.month) :
    daysFromCivil d = yearStart d.marchYear +
      min (monthStart (d.marchMonth + 1)) (yearStart (d.marchYear + 1) - yearStart d.marchYear) - 1 - 719468 := by
  have hlength := daysInMonth_ofMarch (marchMonth_bounds h) d.marchYear d.day
  rw [ofMarch_march h.month] at hlength
  dsimp only at hlength
  rw [daysFromCivil, hlast, hlength]
  omega

theorem days_next {d : Date} (h : d.Valid) : daysFromCivil d.next = daysFromCivil d + 1 := by
  by_cases hsame : d.day < daysInMonth d.year d.month
  · rw [Date.next, if_pos hsame]
    unfold daysFromCivil Date.marchYear Date.marchMonth
    dsimp only
    omega
  · rw [monthEnd h (le_antisymm h.day.2 (not_lt.mp hsame)), Date.next, if_neg hsame]
    obtain ⟨hmonth, hday⟩ := h
    obtain ⟨year, month, day⟩ := d
    unfold daysFromCivil Date.marchYear Date.marchMonth monthStart
    dsimp only at hmonth ⊢
    have hyear := yearStart_succ (year - 1)
    have hyear' := yearStart_succ year
    rw [Int.sub_add_cancel] at hyear
    obtain ⟨hfirst, hlast⟩ := hmonth
    interval_cases month <;> norm_num <;> split_ifs at * <;> omega

theorem civil_succ (z : ℤ) : civilFromDays (z + 1) = (civilFromDays z).next := by
  have hnext := days_next (valid_civil z)
  rw [days_civil] at hnext
  rw [← hnext, civil_days (valid_next (valid_civil z))]

def Date.key (d : Date) : ℤ ×ₗ ℤ ×ₗ ℤ := toLex (d.year, toLex (d.month, d.day))

theorem key_lt_next (d : Date) : d.key < d.next.key := by
  unfold Date.key Date.next
  rw [Prod.Lex.toLex_lt_toLex, Prod.Lex.toLex_lt_toLex]
  split_ifs
  · exact .inr ⟨rfl, .inr ⟨rfl, by dsimp only; omega⟩⟩
  · exact .inr ⟨rfl, .inl (by dsimp only; omega)⟩
  · exact .inl (by dsimp only; omega)

theorem key_civil_strictMono : StrictMono fun z => (civilFromDays z).key := by
  refine strictMono_int_of_lt_succ fun z => ?_
  rw [civil_succ]
  exact key_lt_next _

end Calendar
