import Vhrn.Foundations.Gregorian
import Vhrn.Proxy.DenialLog

/-!
# The times of denial records

The conversion of a time to a date, which computes with signed machine integers and truncating
divisions from the days of an era of 400 years that begins in March. No operation overflows
(`civilTimeI64_eq`), the date is one of the calendar and stands for the given time, and times and
their texts have the same order.
-/

namespace Vhrn.Proxy

open Gregorian

/-! ## Machine integers -/

/-- The result of an operation on signed 64-bit integers, unless it overflows. -/
def i64 (n : ℤ) : Option ℤ := if -2 ^ 63 ≤ n ∧ n < 2 ^ 63 then some n else none

/-- An operation that does not overflow. -/
theorem i64_bind {α : Type} {n m : ℤ} {f : ℤ → Option α} {result : Option α} (h : n = m)
    (hm : -2 ^ 63 ≤ m ∧ m < 2 ^ 63) (hf : f m = result) : (i64 n >>= f) = result := by
  rw [h, i64, if_pos hm]
  exact hf

/-- A 64-bit number as a signed one, the largest of them when it does not fit. -/
def i64OfU64 (n : UInt64) : ℤ := if n.toNat < 2 ^ 63 then n.toNat else 2 ^ 63 - 1

/-- The conversion with every operation checked for overflow. -/
def civilTimeI64 (seconds : UInt64) : Option CivilTime := do
  let days := i64OfU64 (seconds / 86400)
  let time := seconds % 86400
  let z ← i64 (days + 719468)
  let shifted ← if 0 ≤ z then some z else i64 (z - 146096)
  let era := shifted.tdiv 146097
  let doe ← i64 (z - (← i64 (era * 146097)))
  let yoe ← i64 (doe - doe.tdiv 1460)
  let yoe ← i64 (yoe + doe.tdiv 36524)
  let yoe ← i64 (yoe - doe.tdiv 146096)
  let yoe := yoe.tdiv 365
  let year ← i64 (yoe + (← i64 (era * 400)))
  let past ← i64 ((← i64 (365 * yoe)) + yoe.tdiv 4)
  let past ← i64 (past - yoe.tdiv 100)
  let doy ← i64 (doe - past)
  let mp ← i64 ((← i64 (5 * doy)) + 2)
  let mp := mp.tdiv 153
  let first ← i64 ((← i64 (153 * mp)) + 2)
  let day ← i64 (doy - first.tdiv 5)
  let day ← i64 (day + 1)
  let month ← i64 (mp + if mp < 10 then 3 else -9)
  let year ← i64 (year + if month ≤ 2 then 1 else 0)
  return {
    year, month, day
    hour := (time / 3600).toNat
    minute := (time / 60 % 60).toNat
    second := (time % 60).toNat }

/-! ## What the conversion computes -/

/-- The era, the day of the era, the year of the era and the day of the year of a day after the
epoch, with the divisions as they are on numbers that are not negative. -/
structure EraDay (days : ℤ) where
  era : ℤ
  doe : ℤ
  yoe : ℤ
  doy : ℤ
  era_nonneg : 0 ≤ era
  day : era * 146097 + doe = days + 719468
  doe_nonneg : 0 ≤ doe
  doe_lt : doe < 146097
  year : yoe = (doe - doe / 1460 + doe / 36524 - doe / 146096) / 365
  yoe_nonneg : 0 ≤ yoe
  yoe_lt : yoe < 400
  dayOfYear : doy = doe - (365 * yoe + yoe / 4 - yoe / 100)
  doy_nonneg : 0 ≤ doy
  doy_le : doy ≤ 364 + leapDay (yoe + 1)

namespace EraDay

variable {days : ℤ}

def ofDays (h : 0 ≤ days) : EraDay days :=
  let doe := (days + 719468) % 146097
  let yoe := (doe - doe / 1460 + doe / 36524 - doe / 146096) / 365
  have h0 : 0 ≤ doe := Int.emod_nonneg _ (by decide)
  have hlt : doe < 146097 := Int.emod_lt_of_pos _ (by decide)
  have hmarch := march_of_era h0 hlt (show yoe = _ from rfl)
  { era := (days + 719468) / 146097
    doe
    yoe
    doy := doe - (365 * yoe + yoe / 4 - yoe / 100)
    era_nonneg := by omega
    day := by omega
    doe_nonneg := h0
    doe_lt := hlt
    year := rfl
    yoe_nonneg := hmarch.1.1
    yoe_lt := hmarch.1.2
    dayOfYear := rfl
    doy_nonneg := hmarch.2.1
    doy_le := hmarch.2.2 }

/-- The month of the date, from January. -/
def month (d : EraDay days) : ℤ := monthOfMarch (marchMonth d.doy)

/-- The year of the date. -/
def fullYear (d : EraDay days) : ℤ := yearOfMarch (d.yoe + d.era * 400) d.month

theorem leapDay_era (d : EraDay days) :
    leapDay (d.yoe + d.era * 400 + 1) = leapDay (d.yoe + 1) := by
  unfold leapDay IsLeap
  congr 1
  rw [eq_iff_iff]
  omega

/-- **The date is one of the calendar**, and its number is that of the day. -/
theorem isDate (d : EraDay days) : IsDate d.fullYear d.month (dayOfMarch d.doy) ∧
    dayNumber d.fullYear d.month (dayOfMarch d.doy) = days := by
  have hday := d.day
  have hdoy := d.dayOfYear
  have hle := d.doy_le
  have hyear := d.yoe_nonneg
  have hyear' := d.yoe_lt
  rw [← d.leapDay_era] at hle
  obtain ⟨hdate, hnumber⟩ := dayNumber_march d.doy_nonneg hle
  refine ⟨hdate, hnumber.trans ?_⟩
  omega

/-- The truncating divisions of the conversion are of numbers that are not negative. -/
structure Quotients (d : EraDay days) : Prop where
  era : (days + 719468).tdiv 146097 = d.era
  doe : days + 719468 - d.era * 146097 = d.doe
  years : d.doe.tdiv 1460 = d.doe / 1460
  centuries : d.doe.tdiv 36524 = d.doe / 36524
  last : d.doe.tdiv 146096 = d.doe / 146096
  yoe : (d.doe - d.doe / 1460 + d.doe / 36524 - d.doe / 146096).tdiv 365 = d.yoe
  leaps : d.yoe.tdiv 4 = d.yoe / 4
  skipped : d.yoe.tdiv 100 = d.yoe / 100
  month : (5 * d.doy + 2).tdiv 153 = marchMonth d.doy
  before : (153 * marchMonth d.doy + 2).tdiv 5 = (153 * marchMonth d.doy + 2) / 5

theorem marchMonth_bounds (d : EraDay days) : 0 ≤ marchMonth d.doy ∧ marchMonth d.doy ≤ 11 := by
  have h0 := d.doy_nonneg
  have hle := d.doy_le
  have hleap := leapDay_le (d.yoe + 1)
  unfold marchMonth
  omega

theorem quotients (h : 0 ≤ days) (d : EraDay days) : d.Quotients := by
  have hera := d.era_nonneg
  have hday := d.day
  have hdoe := d.doe_nonneg
  have hlt := d.doe_lt
  have hdoy := d.doy_nonneg
  have hmonth := d.marchMonth_bounds
  refine ⟨?_, by omega, Int.tdiv_eq_ediv_of_nonneg hdoe, Int.tdiv_eq_ediv_of_nonneg hdoe,
    Int.tdiv_eq_ediv_of_nonneg hdoe, ?_, Int.tdiv_eq_ediv_of_nonneg d.yoe_nonneg,
    Int.tdiv_eq_ediv_of_nonneg d.yoe_nonneg, Int.tdiv_eq_ediv_of_nonneg (by omega),
    Int.tdiv_eq_ediv_of_nonneg (by omega)⟩
  · rw [Int.tdiv_eq_ediv_of_nonneg (by omega)]
    omega
  · rw [Int.tdiv_eq_ediv_of_nonneg (by omega)]
    exact d.year.symm

end EraDay

section

variable {seconds : ℕ}

/-- The date and time of a number of seconds, by the day of its era. -/
def EraDay.civil (d : EraDay ((seconds / 86400 : ℕ) : ℤ)) : CivilTime where
  year := d.fullYear
  month := d.month
  day := dayOfMarch d.doy
  hour := seconds % 86400 / 3600
  minute := seconds % 86400 / 60 % 60
  second := seconds % 86400 % 60

theorem civilTime_era (d : EraDay ((seconds / 86400 : ℕ) : ℤ)) : civilTime seconds = d.civil := by
  have hq := d.quotients (by omega)
  have hz : (0 : ℤ) ≤ (seconds / 86400 : ℕ) + 719468 := by omega
  have hdays : (seconds : ℤ) / 86400 = (seconds / 86400 : ℕ) := by omega
  unfold civilTime
  simp only [hdays, if_pos hz, hq.era, hq.doe, hq.years, hq.centuries, hq.last, hq.yoe, hq.leaps,
    hq.skipped, ← d.dayOfYear, hq.month, hq.before]
  rfl

end

/-- **No operation of the conversion overflows.** -/
theorem civilTimeI64_eq (seconds : UInt64) :
    civilTimeI64 seconds = some (civilTime seconds.toNat) := by
  have hlt := seconds.toNat_lt
  obtain ⟨d⟩ : Nonempty (EraDay ((seconds.toNat / 86400 : ℕ) : ℤ)) := ⟨.ofDays (by omega)⟩
  have hq := d.quotients (by omega)
  have hera := d.era_nonneg
  have hday := d.day
  have hdoe := d.doe_nonneg
  have hdoe' := d.doe_lt
  have hyoe := d.yoe_nonneg
  have hyoe' := d.yoe_lt
  have hdoy := d.doy_nonneg
  have hdoy' := d.dayOfYear
  have hz : (0 : ℤ) ≤ (seconds.toNat / 86400 : ℕ) + 719468 := by omega
  have hdays : i64OfU64 (seconds / 86400) = (seconds.toNat / 86400 : ℕ) := by
    have hdiv : (seconds / 86400).toNat = seconds.toNat / 86400 := UInt64.toNat_div _ _
    rw [i64OfU64, hdiv, if_pos (by omega)]
  have hmonth := d.marchMonth_bounds
  have hmonth' : d.month = marchMonth d.doy + if marchMonth d.doy < 10 then 3 else -9 := rfl
  have hyear' : d.fullYear = d.yoe + d.era * 400 + if d.month ≤ 2 then 1 else 0 := rfl
  have hdom : dayOfMarch d.doy = d.doy - (153 * marchMonth d.doy + 2) / 5 + 1 := rfl
  rw [civilTime_era d, civilTimeI64, hdays]
  refine i64_bind rfl ⟨by omega, by omega⟩ ?_
  rw [if_pos hz]
  refine (Option.bind_some _ _).trans ?_
  refine @i64_bind _ _ (d.era * 146097) _ _ (by rw [hq.era]) ⟨by omega, by omega⟩ ?_
  refine @i64_bind _ _ d.doe _ _ hq.doe ⟨by omega, by omega⟩ ?_
  refine @i64_bind _ _ (d.doe - d.doe / 1460) _ _ (by rw [hq.years]) ⟨by omega, by omega⟩ ?_
  refine @i64_bind _ _ (d.doe - d.doe / 1460 + d.doe / 36524) _ _ (by rw [hq.centuries])
    ⟨by omega, by omega⟩ ?_
  refine @i64_bind _ _ (d.doe - d.doe / 1460 + d.doe / 36524 - d.doe / 146096) _ _
    (by rw [hq.last]) ⟨by omega, by omega⟩ ?_
  rw [hq.yoe]
  refine @i64_bind _ _ (d.era * 400) _ _ (by rw [hq.era]) ⟨by omega, by omega⟩ ?_
  refine i64_bind rfl ⟨by omega, by omega⟩ ?_
  refine i64_bind rfl ⟨by omega, by omega⟩ ?_
  refine @i64_bind _ _ (365 * d.yoe + d.yoe / 4) _ _ (by rw [hq.leaps]) ⟨by omega, by omega⟩ ?_
  refine @i64_bind _ _ (365 * d.yoe + d.yoe / 4 - d.yoe / 100) _ _ (by rw [hq.skipped])
    ⟨by omega, by omega⟩ ?_
  refine @i64_bind _ _ d.doy _ _ d.dayOfYear.symm ⟨by omega, by omega⟩ ?_
  refine i64_bind rfl ⟨by omega, by omega⟩ ?_
  refine i64_bind rfl ⟨by omega, by omega⟩ ?_
  rw [hq.month]
  refine i64_bind rfl ⟨by omega, by omega⟩ ?_
  refine i64_bind rfl ⟨by omega, by omega⟩ ?_
  refine @i64_bind _ _ (d.doy - (153 * marchMonth d.doy + 2) / 5) _ _ (by rw [hq.before])
    ⟨by omega, by omega⟩ ?_
  refine @i64_bind _ _ (dayOfMarch d.doy) _ _ rfl ⟨by omega, by omega⟩ ?_
  refine @i64_bind _ _ d.month _ _ rfl ⟨by split at hmonth' <;> omega, by split at hmonth' <;> omega⟩ ?_
  refine @i64_bind _ _ d.fullYear _ _ rfl ⟨by split at hyear' <;> omega, by split at hyear' <;> omega⟩ ?_
  rfl

/-! ## The date and time of a number of seconds -/

namespace CivilTime

/-- A date of the calendar and a time of the day. -/
structure Valid (t : CivilTime) : Prop where
  date : IsDate t.year t.month t.day
  hour : t.hour < 24
  minute : t.minute < 60
  second : t.second < 60

/-- The seconds from the epoch. -/
noncomputable def toSeconds (t : CivilTime) : ℤ :=
  dayNumber t.year t.month t.day * 86400 + (t.hour * 3600 + (t.minute * 60 + t.second))

/-- The units of a time, largest first. -/
def key (t : CivilTime) : ℤ ×ₗ ℤ ×ₗ ℤ ×ₗ ℕ ×ₗ ℕ ×ₗ ℕ :=
  toLex (t.year, toLex (t.month, toLex (t.day, toLex (t.hour, toLex (t.minute, t.second)))))

theorem key_injective {t t' : CivilTime} (h : t.key = t'.key) : t = t' := by
  simp only [key, toLex_inj, Prod.mk.injEq] at h
  cases t
  cases t'
  obtain ⟨rfl, rfl, rfl, rfl, rfl, rfl⟩ := h
  rfl

/-- A later time is more seconds away. -/
theorem toSeconds_lt {t t' : CivilTime} (h : t.Valid) (h' : t'.Valid) (hlt : t.key < t'.key) :
    t.toSeconds < t'.toSeconds := by
  have hhour := h.hour
  have hminute := h.minute
  have hsecond := h.second
  have hminute' := h'.minute
  have hday (hdate : toLex (t.year, toLex (t.month, t.day)) <
      toLex (t'.year, toLex (t'.month, t'.day))) : t.toSeconds < t'.toSeconds := by
    have hnumber := dayNumber_lt h.date h'.date hdate
    unfold toSeconds
    omega
  simp only [key, Prod.Lex.toLex_lt_toLex] at hlt hday
  rcases hlt with hyear | ⟨hyear, hmonth | ⟨hmonth, hlt | ⟨heq, hlt⟩⟩⟩
  · exact hday (.inl hyear)
  · exact hday (.inr ⟨hyear, .inl hmonth⟩)
  · exact hday (.inr ⟨hyear, .inr ⟨hmonth, hlt⟩⟩)
  · unfold toSeconds
    rw [hyear, hmonth, heq]
    omega

/-- **A valid time is determined by its seconds.** -/
theorem toSeconds_injective {t t' : CivilTime} (h : t.Valid) (h' : t'.Valid)
    (heq : t.toSeconds = t'.toSeconds) : t = t' := by
  rcases lt_trichotomy t.key t'.key with hlt | hkey | hlt
  · exact absurd heq (toSeconds_lt h h' hlt).ne
  · exact key_injective hkey
  · exact absurd heq (toSeconds_lt h' h hlt).ne'

end CivilTime

/-- **The conversion gives a valid time**, which is as many seconds from the epoch. -/
theorem civilTime_exact (seconds : ℕ) :
    (civilTime seconds).Valid ∧ (civilTime seconds).toSeconds = seconds := by
  have d : EraDay ((seconds / 86400 : ℕ) : ℤ) := .ofDays (by omega)
  obtain ⟨hdate, hnumber⟩ := d.isDate
  rw [civilTime_era d]
  refine ⟨⟨hdate, ?_, ?_, ?_⟩, ?_⟩
  · show seconds % 86400 / 3600 < 24
    omega
  · exact Nat.mod_lt _ (by decide)
  · exact Nat.mod_lt _ (by decide)
  · have h : d.civil.toSeconds = (seconds / 86400 : ℕ) * 86400 + ((seconds % 86400 / 3600 : ℕ) * 3600 +
        ((seconds % 86400 / 60 % 60 : ℕ) * 60 + (seconds % 86400 % 60 : ℕ))) := by
      rw [CivilTime.toSeconds, ← hnumber]
      rfl
    rw [h]
    omega

/-- **A later time has a later date.** -/
theorem civilTime_lt_iff (seconds seconds' : ℕ) :
    (civilTime seconds).key < (civilTime seconds').key ↔ seconds < seconds' := by
  obtain ⟨hvalid, hseconds⟩ := civilTime_exact seconds
  obtain ⟨hvalid', hseconds'⟩ := civilTime_exact seconds'
  constructor
  · intro hlt
    have h := CivilTime.toSeconds_lt hvalid hvalid' hlt
    omega
  · intro hlt
    rcases lt_trichotomy (civilTime seconds).key (civilTime seconds').key with h | h | h
    · exact h
    · rw [CivilTime.key_injective h, hseconds'] at hseconds
      omega
    · have := CivilTime.toSeconds_lt hvalid' hvalid h
      omega

/-! ## The texts of times -/

/-- Texts that differ in parts of the same length are in the order of the parts. -/
theorem append_lt_append {s t : Bytes} (hlen : s.length = t.length) (h : s < t) (u v : Bytes) :
    s ++ u < t ++ v := by
  induction s generalizing t with
  | nil =>
    obtain rfl := List.length_eq_zero_iff.mp hlen.symm
    exact absurd h (List.lt_irrefl [])
  | cons b s ih =>
    obtain ⟨c, t, rfl⟩ := List.exists_cons_of_length_eq_add_one hlen.symm
    rw [List.length_cons, List.length_cons, Nat.add_right_cancel_iff] at hlen
    rw [List.cons_append, List.cons_append, List.cons_lt_cons_iff]
    rcases List.cons_lt_cons_iff.mp h with hbc | ⟨rfl, hst⟩
    · exact .inl hbc
    · exact .inr ⟨rfl, ih hlen hst⟩

theorem value_padded (width n : ℕ) : Numerals.value 10 (padded width n) = n := by
  rw [padded, Numerals.value_replicate_zero]
  exact Numerals.value_numeral (by decide) (by decide) n

theorem length_padded {width n : ℕ} (hw : 1 ≤ width) (h : n < 10 ^ width) :
    (padded width n).length = width := by
  have hle : (Numerals.decimal n).length ≤ width := Numerals.length_numeral_le (by decide) hw h
  rw [padded, List.length_append, List.length_replicate]
  omega

/-- Padded numbers, and what follows them, are in the order of the numbers. -/
theorem padded_lt {width n m : ℕ} (hw : 1 ≤ width) (h : m < 10 ^ width) {u v : Bytes}
    (hlt : n < m ∨ n = m ∧ u < v) : padded width n ++ u < padded width m ++ v := by
  have hdigits (k : ℕ) : (padded width k).all Ascii.isDigit = true :=
    List.all_eq_true.mpr fun _ hb => isDigit_of_mem_padded hb
  rcases hlt with hlt | ⟨rfl, huv⟩
  · have hlen : (padded width n).length = (padded width m).length := by
      rw [length_padded hw h, length_padded hw (hlt.trans h)]
    refine append_lt_append hlen (Numerals.lt_of_value_lt (hdigits n) (hdigits m) hlen ?_) u v
    rwa [value_padded, value_padded]
  · exact List.append_left_lt huv

theorem paddedInt_of_nonneg {width : ℕ} {n : ℤ} (h : 0 ≤ n) :
    paddedInt width n = padded width n.toNat := by
  rw [paddedInt, if_neg (by omega)]
  congr 1
  omega

theorem paddedInt_lt {width : ℕ} {n m : ℤ} (hw : 1 ≤ width) (h0 : 0 ≤ n) (hm0 : 0 ≤ m)
    (h : m < 10 ^ width) {u v : Bytes} (hlt : n < m ∨ n = m ∧ u < v) :
    paddedInt width n ++ u < paddedInt width m ++ v := by
  rw [paddedInt_of_nonneg h0, paddedInt_of_nonneg hm0]
  have hbound : m.toNat < 10 ^ width := by
    zify
    rw [Int.toNat_of_nonneg hm0]
    exact_mod_cast h
  refine padded_lt hw hbound ?_
  rcases hlt with hlt | ⟨rfl, huv⟩
  · exact .inl (by omega)
  · exact .inr ⟨rfl, huv⟩

/-- The year of a time is not before the epoch. -/
theorem civilTime_year (seconds : ℕ) : 1970 ≤ (civilTime seconds).year := by
  obtain ⟨hvalid, hseconds⟩ := civilTime_exact seconds
  have hhour := hvalid.hour
  have hminute := hvalid.minute
  have hsecond := hvalid.second
  by_contra h
  have hepoch : dayNumber 1970 1 1 = 0 := by simp [dayNumber, daysBeforeYear, daysBeforeMonth]
  have hfirst : IsDate 1970 1 1 := ⟨by decide, by decide, by decide, by decide⟩
  have hlt := dayNumber_lt hvalid.date hfirst
    (Prod.Lex.toLex_lt_toLex.mpr (.inl (show (civilTime seconds).year < 1970 by omega)))
  rw [CivilTime.toSeconds] at hseconds
  omega

/-- **The texts of times are in the order of the times**, up to the year 9999. -/
theorem rfc3339_lt {seconds seconds' : ℕ} (hlt : seconds < seconds')
    (hyear : (civilTime seconds').year ≤ 9999) : rfc3339 seconds < rfc3339 seconds' := by
  have hkey := (civilTime_lt_iff seconds seconds').mpr hlt
  have hvalid := (civilTime_exact seconds).1
  have hvalid' := (civilTime_exact seconds').1
  have hepoch := civilTime_year seconds
  have hepoch' := civilTime_year seconds'
  have hmonth := hvalid.date.month_pos
  have hmonth' := hvalid'.date.month_pos
  have hmonth12 := hvalid'.date.month_le
  have hday := hvalid.date.day_pos
  have hday' := hvalid'.date.day_pos
  have hday31 := hvalid'.date.day_le_31
  have hhour := hvalid'.hour
  have hminute := hvalid'.minute
  have hsecond := hvalid'.second
  have cons_lt {b : UInt8} {u v : Bytes} (h : u < v) : b :: u < b :: v :=
    List.cons_lt_cons_iff.mpr (.inr ⟨rfl, h⟩)
  simp only [CivilTime.key, Prod.Lex.toLex_lt_toLex] at hkey
  unfold rfc3339
  -- the units are compared from the largest down
  rcases hkey with h | ⟨h, hkey⟩
  · exact paddedInt_lt (by decide) (by omega) (by omega) (by omega) (.inl h)
  refine paddedInt_lt (by decide) (by omega) (by omega) (by omega) (.inr ⟨h, cons_lt ?_⟩)
  rcases hkey with h | ⟨h, hkey⟩
  · exact paddedInt_lt (by decide) (by omega) (by omega) (by omega) (.inl h)
  refine paddedInt_lt (by decide) (by omega) (by omega) (by omega) (.inr ⟨h, cons_lt ?_⟩)
  rcases hkey with h | ⟨h, hkey⟩
  · exact paddedInt_lt (by decide) (by omega) (by omega) (by omega) (.inl h)
  refine paddedInt_lt (by decide) (by omega) (by omega) (by omega) (.inr ⟨h, cons_lt ?_⟩)
  rcases hkey with h | ⟨h, hkey⟩
  · exact padded_lt (by decide) (by omega) (.inl h)
  refine padded_lt (by decide) (by omega) (.inr ⟨h, cons_lt ?_⟩)
  rcases hkey with h | ⟨h, hkey⟩
  · exact padded_lt (by decide) (by omega) (.inl h)
  refine padded_lt (by decide) (by omega) (.inr ⟨h, cons_lt ?_⟩)
  exact padded_lt (by decide) (by omega) (.inl hkey)

/-! ## The conversion -/

/-- What the conversion of times promises. -/
structure CivilTimeLaw : Prop where
  /-- Without overflow, it returns the one valid date and time that is as many seconds from the
  epoch. -/
  exact : ∀ seconds : UInt64, ∃ t, civilTimeI64 seconds = some t ∧ t.Valid ∧
    t.toSeconds = seconds.toNat ∧ ∀ t' : CivilTime, t'.Valid → t'.toSeconds = seconds.toNat → t' = t
  /-- More seconds give a later date and time. -/
  strictMono : ∀ {seconds seconds' : UInt64} {t t' : CivilTime}, civilTimeI64 seconds = some t →
    civilTimeI64 seconds' = some t' → (seconds < seconds' ↔ t.key < t'.key)
  /-- The texts of times sort as the times do, for years of up to four digits. -/
  sorted : ∀ {seconds seconds' : UInt64} {t' : CivilTime}, seconds < seconds' →
    civilTimeI64 seconds' = some t' → t'.year ≤ 9999 →
      rfc3339 seconds.toNat < rfc3339 seconds'.toNat

/-- **The conversion of times is exact.** -/
theorem civil_time_exact : CivilTimeLaw where
  exact seconds := by
    obtain ⟨hvalid, hseconds⟩ := civilTime_exact seconds.toNat
    refine ⟨_, civilTimeI64_eq seconds, hvalid, hseconds, fun t' ht' heq => ?_⟩
    exact CivilTime.toSeconds_injective ht' hvalid (heq.trans hseconds.symm)
  strictMono h h' := by
    rw [civilTimeI64_eq, Option.some.injEq] at h h'
    rw [← h, ← h', civilTime_lt_iff, UInt64.lt_iff_toNat_lt]
  sorted hlt h' hyear := by
    rw [civilTimeI64_eq, Option.some.injEq] at h'
    exact rfc3339_lt (UInt64.lt_iff_toNat_lt.mp hlt) (h' ▸ hyear)

example : rfc3339 951782400 = ascii "2000-02-29T00:00:00Z" := by decide

end Vhrn.Proxy
