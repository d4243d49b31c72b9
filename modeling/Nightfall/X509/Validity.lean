import Mathlib.Tactic.Linarith
import Nightfall.Data.Calendar
import Nightfall.X509.DerElements

/-!
# The validity of a certificate

A certificate has two dates, in the two elements behind the third sequence at depth 2.  The contract
reads the digits of the year, the month and the day, and computes the number of the day by a formula
with truncating divisions, which gives the days since 1970 for every date of the calendar
(`days_eq`).  The time of day is left out, and all years are taken to be of the century of 2000.

So the dates of a certificate are respected only if they are of 2000 to 2049 and the first one is at
midnight (`validity_dates_iff`).
-/

namespace Nightfall

namespace X509

namespace Der

open Evm Calendar

/-! ### The contract -/

/-- `SECONDS_PER_DAY`. -/
def SECONDS_PER_DAY : ℕ := 24 * 60 * 60

/-- `OFFSET19700101`. -/
def OFFSET19700101 : ℤ := 2440588

/-- `uint8(utcTime[i]) - 48`. -/
def digit (utcTime : Bytes) (i : ℕ) : Except Revert ℕ := do
  let b ← index utcTime i
  checkedSub b.toNat 48

/-- The number of two digits. -/
def twoDigits (utcTime : Bytes) (i : ℕ) : Except Revert ℕ := do
  let tens ← digit utcTime i
  let ones ← digit utcTime (i + 1)
  return tens * 10 + ones

/-- `__days`: the divisions truncate toward zero. -/
def days (year month day : ℤ) : ℤ :=
  day - 32075 + (1461 * (year + 4800 + (month - 14).tdiv 12)).tdiv 4 +
    (367 * (month - 2 - (month - 14).tdiv 12 * 12)).tdiv 12 -
    (3 * (year + 4900 + (month - 14).tdiv 12).tdiv 100).tdiv 4 - OFFSET19700101

/-- `timestampFromDate`. -/
def timestampFromDate (utcTime : Bytes) : Except Revert ℕ := do
  let year ← twoDigits utcTime 0
  let year := year + 2000
  let month ← twoDigits utcTime 2
  let day ← twoDigits utcTime 4
  require (1970 ≤ year) ""
  -- the conversion to an unsigned word, and the checked product
  let seconds := (days year month day % 2 ^ 256).toNat * SECONDS_PER_DAY
  if seconds < 2 ^ 256 then return seconds else .error .overflow

/-- The element is a sequence at depth 2. -/
def isField (t : DecodedTlv) : Bool := decide (t.tag.tagType = 0x10 ∧ t.depth = 2)

/-- The loop of `checkDates`: the index of the third sequence at depth 2, from the index `i` and the
count `j` on. -/
def thirdField : List DecodedTlv → ℕ → ℕ → ℕ
  | [], i, _ => i
  | t :: tlvs, i, j =>
    let j := if isField t = true then j + 1 else j
    if j = 3 then i else thirdField tlvs (i + 1) j

/-- `checkDates`: the expiry. -/
def checkDates (timestamp : ℕ) (tlvs : List DecodedTlv) : Except Revert ℕ := do
  let i := thirdField tlvs 0 0
  let notBefore ← index tlvs (i + 1)
  require (notBefore.tag.tagType = 0x17) "X509: First tag was not in fact a UTC time"
  let notAfter ← index tlvs (i + 2)
  require (notAfter.tag.tagType = 0x17) "X509: Second tag was not in fact a UTC time"
  let start ← timestampFromDate notBefore.value
  require (start < timestamp) "X509: It is too early to use this certificate"
  let expiry ← timestampFromDate notAfter.value
  require (timestamp < expiry) "X509: This certificate has expired"
  return expiry

/-! ### The day number -/

theorem number_epoch : (Date.epoch.number : ℤ) = 719528 := by
  have h := daysBeforeYear_eq 1970
  have hnumber : Date.epoch.number = daysBeforeYear 1970 := by
    simp only [Date.number, Date.epoch, daysBeforeMonth, Nat.sub_self, Nat.add_zero]
  omega

/-- The days before a month, with the year taken to begin in March. -/
theorem daysBeforeMonth_eq (d : Date) :
    (d.month ≤ 2 → daysBeforeMonth d.year d.month + 336 = 367 * (d.month + 10) / 12) ∧
      (3 ≤ d.month → daysBeforeMonth d.year d.month =
        367 * (d.month - 2) / 12 + 29 + if IsLeap d.year then 1 else 0) := by
  have h1 := d.one_le_month
  have h12 := d.month_le
  generalize d.month = m at h1 h12
  by_cases hleap : IsLeap d.year
  · interval_cases m <;> simp [daysBeforeMonth, daysInMonth, hleap]
  · interval_cases m <;> simp [daysBeforeMonth, daysInMonth, hleap]

/-- The leap years of the formula. -/
theorem leapTerms_eq {y : ℤ} (hy : -1 ≤ y) :
    (1461 * (y + 4800)).tdiv 4 - (3 * (y + 4900).tdiv 100).tdiv 4 =
      365 * y + y / 4 + y / 400 - y / 100 + 1753164 := by
  have h100 : (y + 4900).tdiv 100 = y / 100 + 49 := by
    rw [Int.tdiv_eq_ediv_of_nonneg (by omega)]
    omega
  have h400 : y / 400 = y / 100 / 4 := by omega
  rw [h100, h400, Int.tdiv_eq_ediv_of_nonneg (by omega), Int.tdiv_eq_ediv_of_nonneg (by omega)]
  omega

/-- **The formula is right for every date of the calendar.** -/
theorem days_eq (d : Date) : days d.year d.month d.day = d.sinceEpoch := by
  obtain ⟨hearly, hlate⟩ := daysBeforeMonth_eq d
  have h1 := d.one_le_day
  have hm1 := d.one_le_month
  have hnumber : d.number = daysBeforeYear d.year + daysBeforeMonth d.year d.month + (d.day - 1) :=
    rfl
  have hday : ((d.day - 1 : ℕ) : ℤ) = d.day - 1 := by omega
  rw [Date.sinceEpoch, number_epoch, hnumber, days, OFFSET19700101]
  by_cases hm : d.month ≤ 2
  · -- January and February count to the year before
    have ha : ((d.month : ℤ) - 14).tdiv 12 = -1 := by
      have h12 : d.month = 1 ∨ d.month = 2 := by omega
      rcases h12 with h | h <;> rw [h] <;> rfl
    have hyear := daysBeforeYear_eq d.year
    have hterms := leapTerms_eq (y := (d.year : ℤ) - 1) (by omega)
    have hmonth : (367 * ((d.month : ℤ) - 2 - -1 * 12)).tdiv 12 =
        daysBeforeMonth d.year d.month + 336 := by
      rw [Int.tdiv_eq_ediv_of_nonneg (by omega)]
      have h := hearly hm
      omega
    rw [show (d.year : ℤ) - 1 + 4800 = d.year + 4800 + -1 by omega,
      show (d.year : ℤ) - 1 + 4900 = d.year + 4900 + -1 by omega] at hterms
    rw [ha, hmonth, Nat.cast_add, Nat.cast_add, hday]
    linarith
  · have ha : ((d.month : ℤ) - 14).tdiv 12 = 0 := by
      have hm12 := d.month_le
      rw [show (d.month : ℤ) - 14 = -(14 - d.month) by omega, Int.neg_tdiv,
        Int.tdiv_eq_zero_of_lt (by omega) (by omega), neg_zero]
    -- a leap day is both in the month term and in the years before the next year
    have hyear := daysBeforeYear_eq (d.year + 1)
    have hterms := leapTerms_eq (y := (d.year : ℤ)) (by omega)
    have hmonth : (367 * ((d.month : ℤ) - 2 - 0 * 12)).tdiv 12 =
        daysBeforeMonth d.year d.month - 29 - if IsLeap d.year then 1 else 0 := by
      rw [Int.tdiv_eq_ediv_of_nonneg (by omega)]
      have h := hlate (by omega)
      split_ifs at h ⊢ <;> omega
    rw [daysBeforeYear, yearLength] at hyear
    push_cast at hyear
    rw [add_sub_cancel_right] at hyear
    rw [ha, hmonth, Nat.cast_add, Nat.cast_add, hday, add_zero, add_zero]
    split_ifs at hyear ⊢ <;> linarith

/-! ### Times -/

/-- The year that two digits stand for: 1950 to 2049. -/
def rfcYear (yy : ℕ) : ℕ := if yy < 50 then 2000 + yy else 1900 + yy

/-- A time with a year of two digits. -/
structure UtcTime where
  yy : ℕ
  month : ℕ
  day : ℕ
  hour : ℕ
  minute : ℕ
  second : ℕ
  yy_lt : yy < 100
  one_le_month : 1 ≤ month
  month_le : month ≤ 12
  one_le_day : 1 ≤ day
  day_le : day ≤ daysInMonth (rfcYear yy) month
  hour_lt : hour < 24
  minute_lt : minute < 60
  second_lt : second < 60

namespace UtcTime

/-- The date of a time. -/
def date (u : UtcTime) : Date :=
  ⟨rfcYear u.yy, u.month, u.day, u.one_le_month, u.month_le, u.one_le_day, u.day_le⟩

/-- The seconds since midnight. -/
def secondOfDay (u : UtcTime) : ℕ := u.hour * 3600 + u.minute * 60 + u.second

/-- The seconds since 1970. -/
def instant (u : UtcTime) : ℤ := u.date.sinceEpoch * SECONDS_PER_DAY + u.secondOfDay

/-- Two digits. -/
def encodeTwo (n : ℕ) : Bytes := [BitVec.ofNat 8 (48 + n / 10), BitVec.ofNat 8 (48 + n % 10)]

/-- `YYMMDDHHMMSSZ`. -/
def encode (u : UtcTime) : Bytes :=
  encodeTwo u.yy ++ encodeTwo u.month ++ encodeTwo u.day ++ encodeTwo u.hour ++
    encodeTwo u.minute ++ encodeTwo u.second ++ [0x5a]

theorem daysInMonth_rfcYear (u : UtcTime) :
    daysInMonth (rfcYear u.yy) u.month = daysInMonth (2000 + u.yy) u.month := by
  have hleap : IsLeap (rfcYear u.yy) ↔ IsLeap (2000 + u.yy) := by
    have hyy := u.yy_lt
    unfold rfcYear IsLeap
    split_ifs <;> omega
  simp only [daysInMonth, hleap]

/-- The date that the contract reads: every year is of the century of 2000. -/
def readDate (u : UtcTime) : Date :=
  ⟨2000 + u.yy, u.month, u.day, u.one_le_month, u.month_le, u.one_le_day,
    u.day_le.trans_eq u.daysInMonth_rfcYear⟩

theorem readDate_eq {u : UtcTime} (h : u.yy < 50) : u.readDate = u.date := by
  have hyear : 2000 + u.yy = rfcYear u.yy := (if_pos h).symm
  exact Date.ext hyear rfl rfl

/-- A year from 1950 to 1999 is read as a later one. -/
theorem date_before_readDate {u : UtcTime} (h : ¬ u.yy < 50) : u.date.Before u.readDate := by
  have hyear : rfcYear u.yy = 1900 + u.yy := if_neg h
  refine .inl ?_
  change rfcYear u.yy < 2000 + u.yy
  omega

theorem secondOfDay_lt (u : UtcTime) : u.secondOfDay < SECONDS_PER_DAY := by
  have hhour := u.hour_lt
  have hminute := u.minute_lt
  have hsecond := u.second_lt
  rw [secondOfDay, SECONDS_PER_DAY]
  omega

end UtcTime

/-! ### What the contract reads -/

theorem digit_cons {n : ℕ} (h : n < 10) (bs : Bytes) :
    digit (BitVec.ofNat 8 (48 + n) :: bs) 0 = .ok n := by
  have hn : (BitVec.ofNat 8 (48 + n)).toNat = 48 + n := by
    rw [BitVec.toNat_ofNat]
    omega
  have hpos : 0 < (BitVec.ofNat 8 (48 + n) :: bs).length := Nat.zero_lt_succ _
  rw [digit, index, dif_pos hpos, ok_bind, List.getElem_cons_zero, hn, checkedSub,
    if_pos (Nat.le_add_right 48 n), Nat.add_sub_cancel_left]

theorem digit_cons_succ (b : BitVec 8) (bs : Bytes) (i : ℕ) :
    digit (b :: bs) (i + 1) = digit bs i := by
  simp only [digit, index, List.length_cons, Nat.add_lt_add_iff_right, List.getElem_cons_succ]

theorem twoDigits_append_two (n : ℕ) (bs : Bytes) (i : ℕ) :
    twoDigits (UtcTime.encodeTwo n ++ bs) (i + 2) = twoDigits bs i := by
  simp only [twoDigits, UtcTime.encodeTwo, List.cons_append, List.nil_append, digit_cons_succ]

theorem twoDigits_encodeTwo {n : ℕ} (h : n < 100) (bs : Bytes) :
    twoDigits (UtcTime.encodeTwo n ++ bs) 0 = .ok n := by
  rw [twoDigits, UtcTime.encodeTwo, List.cons_append, digit_cons (by omega), ok_bind,
    digit_cons_succ, List.cons_append, digit_cons (by omega), ok_bind]
  exact congrArg Except.ok (by omega)

/-- Midnight of the date that the contract reads. -/
def UtcTime.midnight (u : UtcTime) : ℤ := u.readDate.sinceEpoch * SECONDS_PER_DAY

theorem sinceEpoch_readDate_bounds (u : UtcTime) :
    0 ≤ u.readDate.sinceEpoch ∧ u.readDate.sinceEpoch < 2 ^ 20 := by
  have hbounds : daysBeforeYear (2000 + u.yy) ≤ u.readDate.number ∧
      u.readDate.number < daysBeforeYear (2000 + u.yy + 1) := u.readDate.year_bounds
  have hyy := u.yy_lt
  have hfirst := daysBeforeYear_eq (2000 + u.yy)
  have hnext := daysBeforeYear_eq (2000 + u.yy + 1)
  rw [Date.sinceEpoch, number_epoch]
  push_cast at hfirst hnext
  omega

/-- **The contract reads the date and leaves out the time of day.** -/
theorem timestampFromDate_encode (u : UtcTime) :
    timestampFromDate u.encode = .ok u.midnight.toNat := by
  have hyear : twoDigits u.encode 0 = .ok u.yy := by
    simp only [UtcTime.encode, List.append_assoc]
    exact twoDigits_encodeTwo u.yy_lt _
  have hmonth : twoDigits u.encode 2 = .ok u.month := by
    simp only [UtcTime.encode, List.append_assoc]
    rw [twoDigits_append_two _ _ 0]
    exact twoDigits_encodeTwo (by have h := u.month_le; omega) _
  have hday : twoDigits u.encode 4 = .ok u.day := by
    have hlt : u.day < 100 := by
      have h := u.day_le
      unfold daysInMonth at h
      split_ifs at h <;> omega
    simp only [UtcTime.encode, List.append_assoc]
    rw [twoDigits_append_two _ _ 2, twoDigits_append_two _ _ 0]
    exact twoDigits_encodeTwo hlt _
  have hdays : days (u.yy + 2000 : ℕ) u.month u.day = u.readDate.sinceEpoch := by
    rw [Nat.add_comm]
    exact days_eq u.readDate
  obtain ⟨hlower, hupper⟩ := sinceEpoch_readDate_bounds u
  have hmod : u.readDate.sinceEpoch % 2 ^ 256 = u.readDate.sinceEpoch :=
    Int.emod_eq_of_lt hlower (hupper.trans (by norm_num))
  have hseconds : u.readDate.sinceEpoch.toNat * SECONDS_PER_DAY = u.midnight.toNat := by
    rw [UtcTime.midnight, SECONDS_PER_DAY]
    omega
  have hlt : u.midnight.toNat < 2 ^ 256 := by
    rw [← hseconds, SECONDS_PER_DAY]
    omega
  rw [timestampFromDate, hyear, ok_bind, hmonth, ok_bind, hday, ok_bind, require,
    if_pos (by omega), ok_bind, hdays, hmod, hseconds, if_pos hlt]
  rfl

/-! ### Which times are accepted -/

/-- The two elements behind the third sequence at depth 2 are times. -/
structure HasValidity (tlvs : List DecodedTlv) (notBefore notAfter : UtcTime) : Prop where
  fields : ∃ before sequence start stop after,
    tlvs = before ++ sequence :: start :: stop :: after ∧ before.countP isField = 2 ∧
      isField sequence = true ∧
      (start.tag.tagType = 0x17 ∧ start.value = notBefore.encode) ∧
      stop.tag.tagType = 0x17 ∧ stop.value = notAfter.encode

theorem thirdField_append {before : List DecodedTlv} {sequence : DecodedTlv}
    (hsequence : isField sequence = true) (after : List DecodedTlv) {i j : ℕ}
    (h : j + before.countP isField = 2) :
    thirdField (before ++ sequence :: after) i j = i + before.length := by
  induction before generalizing i j with
  | nil =>
    obtain rfl : j = 2 := h
    rw [List.nil_append, thirdField, if_pos hsequence]
    rfl
  | cons t before ih =>
    rw [List.cons_append, thirdField]
    by_cases ht : isField t = true
    · rw [List.countP_cons_of_pos ht] at h
      rw [if_pos ht, if_neg (by omega), ih (by omega), List.length_cons]
      omega
    · rw [List.countP_cons_of_neg ht] at h
      rw [if_neg ht, if_neg (by omega), ih h, List.length_cons]
      omega

/-- **The days between the two dates are accepted.** -/
theorem checkDates_eq_ok {tlvs : List DecodedTlv} {notBefore notAfter : UtcTime}
    (h : HasValidity tlvs notBefore notAfter) {t expiry : ℕ} :
    checkDates t tlvs = .ok expiry ↔
      notBefore.midnight < t ∧ (t : ℤ) < notAfter.midnight ∧ (expiry : ℤ) = notAfter.midnight := by
  obtain ⟨before, sequence, start, stop, after, rfl, hcount, hsequence, ⟨hstart, hstartValue⟩, hstop,
    hstopValue⟩ := h.fields
  have hthird : thirdField (before ++ sequence :: start :: stop :: after) 0 0 = before.length := by
    rw [thirdField_append hsequence _ (by omega), Nat.zero_add]
  have hone : index (before ++ sequence :: start :: stop :: after) (before.length + 1) =
      .ok start := by
    rw [index_eq_ok_iff_getElem?, List.getElem?_append_right (by omega)]
    simp
  have htwo : index (before ++ sequence :: start :: stop :: after) (before.length + 2) =
      .ok stop := by
    rw [index_eq_ok_iff_getElem?, List.getElem?_append_right (by omega)]
    simp
  have hpos : ∀ u : UtcTime, 0 ≤ u.midnight := by
    intro u
    have hbounds := (sinceEpoch_readDate_bounds u).1
    rw [UtcTime.midnight, SECONDS_PER_DAY]
    omega
  have hnb := hpos notBefore
  have hna := hpos notAfter
  simp only [checkDates, hthird, hone, htwo, ok_bind, hstartValue, hstopValue,
    timestampFromDate_encode, bind_eq_ok, require_eq_ok, pure_eq_ok]
  constructor
  · rintro ⟨-, -, -, -, -, hlt, -, hlt', rfl⟩
    omega
  · rintro ⟨hlt, hlt', hexpiry⟩
    exact ⟨(), hstart, (), hstop, (), by omega, (), by omega, by omega⟩

/-- What the dates of a certificate say: it is accepted from the first instant on and before the
second one, and expires by then. -/
def DatesRespected (tlvs : List DecodedTlv) (notBefore notAfter : UtcTime) : Prop :=
  ∀ t expiry : ℕ, checkDates t tlvs = .ok expiry →
    notBefore.instant ≤ t ∧ (t : ℤ) < notAfter.instant ∧ (expiry : ℤ) ≤ notAfter.instant

/-- No time is accepted, or the first time is at most a second after midnight or of the century
before, and the second one isn't of that century. -/
def DatesRead (notBefore notAfter : UtcTime) : Prop :=
  ¬ notBefore.readDate.Before notAfter.readDate ∨
    (50 ≤ notBefore.yy ∨ notBefore.secondOfDay ≤ 1) ∧ notAfter.yy < 50

/-- The instant of a time of 2000 to 2049. -/
theorem UtcTime.instant_eq {u : UtcTime} (h : u.yy < 50) :
    u.instant = u.midnight + u.secondOfDay := by
  rw [instant, midnight, readDate_eq h]

/-- The instant of a time of 1950 to 1999. -/
theorem UtcTime.instant_lt {u : UtcTime} (h : ¬ u.yy < 50) : u.instant < u.midnight := by
  have hdate := Date.sinceEpoch_lt_iff.2 (date_before_readDate h)
  have hsecond := u.secondOfDay_lt
  rw [SECONDS_PER_DAY] at hsecond
  rw [instant, midnight, SECONDS_PER_DAY]
  omega

theorem datesRespected_iff {tlvs : List DecodedTlv} {notBefore notAfter : UtcTime}
    (h : HasValidity tlvs notBefore notAfter) :
    DatesRespected tlvs notBefore notAfter ↔ DatesRead notBefore notAfter := by
  have hbefore := Date.sinceEpoch_lt_iff (a := notBefore.readDate) (b := notAfter.readDate)
  have hstart := (sinceEpoch_readDate_bounds notBefore).1
  have hmidnight : ∀ u : UtcTime, u.midnight = u.readDate.sinceEpoch * 86400 := fun u => rfl
  have hnb := hmidnight notBefore
  have hna := hmidnight notAfter
  unfold DatesRespected DatesRead
  simp only [checkDates_eq_ok h, ← hbefore]
  constructor
  · intro hall
    by_cases hlt : notBefore.readDate.sinceEpoch < notAfter.readDate.sinceEpoch
    · -- a second after the first midnight
      obtain ⟨hfirst, -, hexpiry⟩ := hall (notBefore.midnight + 1).toNat notAfter.midnight.toNat
        ⟨by omega, by omega, by omega⟩
      refine .inr ⟨?_, ?_⟩
      · by_cases hyy : notBefore.yy < 50
        · rw [UtcTime.instant_eq hyy] at hfirst
          exact .inr (by omega)
        · exact .inl (not_lt.1 hyy)
      · by_contra hyy
        have hlate := UtcTime.instant_lt hyy
        omega
    · exact .inl hlt
  · rintro hread t expiry ⟨hlt, hlt', hexpiry⟩
    obtain ⟨hfirst, hyy⟩ := hread.resolve_left (not_not.2 (by omega))
    rw [UtcTime.instant_eq hyy]
    refine ⟨?_, by omega, by omega⟩
    by_cases hyy' : notBefore.yy < 50
    · rw [UtcTime.instant_eq hyy']
      omega
    · have hearly := UtcTime.instant_lt hyy'
      omega

/-- **When the dates of a certificate are respected.**  Unless no time is accepted at all: if the
first date is of 1950 to 1999 or at most a second after midnight, and the second one of 2000 to 2049.
For the dates of 2000 to 2049 the day number is that of the calendar, and later dates have larger
ones. -/
theorem validity_dates_iff {tlvs : List DecodedTlv} {notBefore notAfter : UtcTime}
    (h : HasValidity tlvs notBefore notAfter) :
    (DatesRespected tlvs notBefore notAfter ↔ DatesRead notBefore notAfter) ∧
      ∀ a : Date, 2000 ≤ a.year ∧ a.year ≤ 2049 →
        days a.year a.month a.day = a.sinceEpoch ∧
          ∀ b : Date, 2000 ≤ b.year ∧ b.year ≤ 2049 → a.Before b →
            days a.year a.month a.day < days b.year b.month b.day := by
  refine ⟨datesRespected_iff h, fun a _ => ⟨days_eq a, fun b _ hab => ?_⟩⟩
  rw [days_eq, days_eq]
  exact Date.sinceEpoch_lt_iff.2 hab

/-- A morning in January 2024. -/
def sampleStart : UtcTime :=
  ⟨24, 1, 15, 8, 30, 0, by decide, by decide, by decide, by decide, by decide, by decide, by decide,
    by decide⟩

/-- Midnight on the leap day of 2028. -/
def sampleEnd : UtcTime :=
  ⟨28, 2, 29, 0, 0, 0, by decide, by decide, by decide, by decide, by decide, by decide, by decide,
    by decide⟩

/-- The last second of 1999. -/
def sampleOld : UtcTime :=
  ⟨99, 12, 31, 23, 59, 59, by decide, by decide, by decide, by decide, by decide, by decide,
    by decide, by decide⟩

/-- A sequence at depth 2. -/
def fieldTlv : DecodedTlv := ⟨0, 2, ⟨true, 0x10⟩, 0, [], [], 2⟩

/-- The element of a time. -/
def timeTlv (u : UtcTime) : DecodedTlv := ⟨0, 2, ⟨false, 0x17⟩, 13, u.encode, [], 3⟩

/-- The elements up to the two times. -/
def validityTlvs (notBefore notAfter : UtcTime) : List DecodedTlv :=
  [fieldTlv, fieldTlv, fieldTlv, timeTlv notBefore, timeTlv notAfter]

theorem hasValidity_validityTlvs (notBefore notAfter : UtcTime) :
    HasValidity (validityTlvs notBefore notAfter) notBefore notAfter :=
  ⟨⟨[fieldTlv, fieldTlv], fieldTlv, _, _, [], rfl, by decide, by decide, ⟨rfl, rfl⟩, rfl,
    rfl⟩⟩

theorem validity_dates_sample :
    DatesRespected (validityTlvs sampleStart sampleEnd) sampleStart sampleEnd ↔
      DatesRead sampleStart sampleEnd :=
  (validity_dates_iff (hasValidity_validityTlvs sampleStart sampleEnd)).1

/-- A certificate from a morning on is accepted in the night before, and one that expired in 1999 is
accepted in 2025. -/
theorem early_and_expired_accepted :
    (checkDates 1705276801 (validityTlvs sampleStart sampleEnd) = .ok 1835395200 ∧
      ¬ sampleStart.instant ≤ 1705276801) ∧
    checkDates 1750000000 (validityTlvs sampleStart sampleOld) = .ok 4102358400 ∧
      ¬ (1750000000 : ℤ) < sampleOld.instant := by
  decide +kernel

end Der

end X509

end Nightfall
