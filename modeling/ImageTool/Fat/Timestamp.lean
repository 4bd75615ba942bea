import ImageTool.Fat.Dirent

/-!
# Time stamps and the calendar

`fatfs_convert_timestamp` subtracts the days of the years and of the months one after the other
and packs what it finds into 32 bits.  Here the bits are read back and dated by the Gregorian
calendar, which is given by its rule for leap years and the lengths of its months.
-/

namespace ImageTool.Fat

/-! ## The calendar -/

/-- The years with a 29th of February. -/
def Leap (year : Nat) : Prop := 4 ∣ year ∧ (¬ 100 ∣ year ∨ 400 ∣ year)

instance (year : Nat) : Decidable (Leap year) :=
  inferInstanceAs (Decidable (4 ∣ year ∧ (¬ 100 ∣ year ∨ 400 ∣ year)))

/-- The days of a year. -/
def yearLength (year : Nat) : Nat := if Leap year then 366 else 365

/-- The days of a month. -/
def monthLength (year month : Nat) : Nat :=
  if month = 2 then (if Leap year then 29 else 28)
  else if month ∈ [4, 6, 9, 11] then 30 else 31

/-- The days from the first day of the year 1 to the first day of a year. -/
def daysBeforeYear (year : Nat) : Nat :=
  365 * (year - 1) + (year - 1) / 4 - (year - 1) / 100 + (year - 1) / 400

/-- The days of a year that are before a month. -/
def daysBeforeMonth (year month : Nat) : Nat :=
  ((List.range (month - 1)).map fun i => monthLength year (i + 1)).sum

theorem isLeapYear_eq (year : Nat) : isLeapYear year = decide (Leap year) := by
  rw [Bool.eq_iff_iff]
  simp [isLeapYear, Leap, Nat.dvd_iff_mod_eq_zero]

/-- Divisions by 4, 100 and 400 count the leap years. -/
theorem daysBeforeYear_succ {year : Nat} (h : 0 < year) :
    daysBeforeYear (year + 1) = daysBeforeYear year + yearLength year := by
  unfold daysBeforeYear yearLength
  by_cases hleap : Leap year
  · rw [if_pos hleap]
    simp only [Leap] at hleap
    omega
  · rw [if_neg hleap]
    simp only [Leap] at hleap
    omega

theorem daysBeforeYear_mono {a b : Nat} (ha : 0 < a) (h : a ≤ b) :
    daysBeforeYear a ≤ daysBeforeYear b := by
  induction b, h using Nat.le_induction with
  | base => exact Nat.le_refl _
  | succ b hab ih =>
      rw [daysBeforeYear_succ (by omega)]
      omega

theorem daysBeforeMonth_succ {month : Nat} (year : Nat) (h : 0 < month) :
    daysBeforeMonth year (month + 1) = daysBeforeMonth year month + monthLength year month := by
  obtain ⟨m, rfl⟩ := Nat.exists_eq_succ_of_ne_zero h.ne'
  simp [daysBeforeMonth, List.range_succ]

theorem daysBeforeMonth_mono (year : Nat) {a b : Nat} (ha : 0 < a) (h : a ≤ b) :
    daysBeforeMonth year a ≤ daysBeforeMonth year b := by
  induction b, h using Nat.le_induction with
  | base => exact Nat.le_refl _
  | succ b hab ih =>
      rw [daysBeforeMonth_succ year (by omega)]
      omega

/-- The months make up the year. -/
theorem daysBeforeMonth_end (year : Nat) : daysBeforeMonth year 13 = yearLength year := by
  unfold yearLength
  split <;> simp_all [daysBeforeMonth, monthLength, List.range_succ]

theorem monthLength_le (year month : Nat) : monthLength year month ≤ 31 := by
  unfold monthLength
  repeat' split <;> try omega

/-! ## The packed value -/

/-- What the bits of a packed value say. -/
structure DosTime where
  year : Nat
  month : Nat
  day : Nat
  hour : Nat
  minute : Nat
  second : Nat
  deriving DecidableEq

/-- The fields of a packed value. -/
def unpack (value : Nat) : DosTime where
  year := 1980 + value / 2 ^ 25 % 128
  month := value / 2 ^ 21 % 16
  day := value / 2 ^ 16 % 32
  hour := value / 2 ^ 11 % 32
  minute := value / 2 ^ 5 % 64
  second := value % 32 * 2

namespace DosTime

/-- Every field is in its range. -/
structure Legal (d : DosTime) : Prop where
  year : 1980 ≤ d.year ∧ d.year ≤ 1980 + 127
  month : 1 ≤ d.month ∧ d.month ≤ 12
  day : 1 ≤ d.day ∧ d.day ≤ monthLength d.year d.month
  time : d.hour < 24 ∧ d.minute < 60 ∧ d.second < 60

/-- The days from the first day of the year 1. -/
def dayNumber (d : DosTime) : Nat :=
  daysBeforeYear d.year + daysBeforeMonth d.year d.month + d.day - 1

/-- The seconds since the first day of 1970. -/
def timestamp (d : DosTime) : Int :=
  86400 * ((d.dayNumber : Int) - daysBeforeYear 1970) + 3600 * d.hour + 60 * d.minute + d.second

end DosTime

/-- The value with given fields. -/
def pack (d : DosTime) : Nat :=
  d.second / 2 + 2 ^ 5 * d.minute + 2 ^ 11 * d.hour + 2 ^ 16 * d.day + 2 ^ 21 * d.month +
    2 ^ 25 * ((d.year - 1980) % 128)

/-- The fields are in their ranges, but for a year that may be too far ahead. -/
structure DosTime.Valid (d : DosTime) : Prop where
  year : 1980 ≤ d.year
  month : 1 ≤ d.month ∧ d.month ≤ 12
  day : 1 ≤ d.day ∧ d.day ≤ monthLength d.year d.month
  time : d.hour < 24 ∧ d.minute < 60 ∧ d.second < 60
  even : d.second % 2 = 0

namespace DosTime.Valid

variable {d d' : DosTime}

theorem legal (h : d.Valid) (hyear : d.year < 2108) : d.Legal where
  year := ⟨h.year, by omega⟩
  month := h.month
  day := h.day
  time := h.time

/-- The year is kept in 7 bits. -/
theorem unpack_pack (h : d.Valid) :
    unpack (pack d) = { d with year := 1980 + (d.year - 1980) % 128 } := by
  have hmonth := h.month
  have hday := h.day.2
  have hlength := monthLength_le d.year d.month
  have htime := h.time
  have heven := h.even
  have hoffset := Nat.mod_lt (d.year - 1980) (show 0 < 128 by decide)
  unfold unpack pack
  generalize (d.year - 1980) % 128 = offset at *
  simp only [DosTime.mk.injEq]
  refine ⟨?_, ?_, ?_, ?_, ?_, ?_⟩ <;> omega

/-- A day of an earlier month of a year is an earlier day. -/
theorem dayNumber_lt_of_month (h : d.Valid) (hyear : d.year = d'.year) (h' : d'.Valid)
    (hmonth : d.month < d'.month) : d.dayNumber < d'.dayNumber := by
  have hsucc := daysBeforeMonth_succ d.year h.month.1
  have hmono := daysBeforeMonth_mono d.year (show 0 < d.month + 1 by omega) hmonth
  have hday := h.day
  have hday' := h'.day
  unfold dayNumber
  rw [← hyear]
  omega

/-- A day is a day of its year. -/
theorem dayNumber_lt (h : d.Valid) : d.dayNumber < daysBeforeYear (d.year + 1) := by
  have hyear := daysBeforeYear_succ (show 0 < d.year by have := h.year; omega)
  have hsucc := daysBeforeMonth_succ d.year h.month.1
  have hmono := daysBeforeMonth_mono d.year (show 0 < d.month + 1 by omega)
    (show d.month + 1 ≤ 13 by have := h.month.2; omega)
  have hend := daysBeforeMonth_end d.year
  have hday := h.day
  unfold dayNumber
  omega

theorem dayNumber_lt_of_year (h : d.Valid) (h' : d'.Valid) (hyear : d.year < d'.year) :
    d.dayNumber < d'.dayNumber := by
  have hlt := h.dayNumber_lt
  have hmono := daysBeforeYear_mono (show 0 < d.year + 1 by omega) hyear
  have hday' := h'.day
  have hle : daysBeforeYear d'.year ≤ d'.dayNumber := by
    unfold dayNumber
    omega
  omega

/-- Packed values are in the order of the times. -/
theorem pack_le (h : d.Valid) (h' : d'.Valid) (hyear : d.year < 2108) (hyear' : d'.year < 2108)
    (hle : d.timestamp ≤ d'.timestamp) : pack d ≤ pack d' := by
  have hmonth := h.month
  have hmonth' := h'.month
  have hday := h.day
  have hday' := h'.day
  have hlength := monthLength_le d.year d.month
  have hlength' := monthLength_le d'.year d'.month
  have htime := h.time
  have htime' := h'.time
  have hfirst := h.year
  have hfirst' := h'.year
  have hdays : d.dayNumber ≤ d'.dayNumber := by
    unfold timestamp at hle
    omega
  unfold pack
  rcases Nat.lt_trichotomy d.year d'.year with hlt | heq | hgt
  · omega
  · rcases Nat.lt_trichotomy d.month d'.month with hlt | hsame | hgt
    · omega
    · have hnumber : d'.dayNumber + d.day = d.dayNumber + d'.day := by
        unfold dayNumber
        rw [← heq, ← hsame]
        omega
      unfold timestamp at hle
      omega
    · have hlt := h'.dayNumber_lt_of_month heq.symm h hgt
      omega
  · have hlt := h'.dayNumber_lt_of_year h hgt
    omega

end DosTime.Valid

/-! ## The loops -/

/-- The loop over the years ends with a day of the year it has found. -/
theorem yearLoop_spec {n days year : Nat} (hyear : 0 < year) (h : days < n) :
    year ≤ (yearLoop n days year).1 ∧
      daysBeforeYear (yearLoop n days year).1 + (yearLoop n days year).2 =
        daysBeforeYear year + days ∧
      (yearLoop n days year).2 < yearLength (yearLoop n days year).1 := by
  induction n generalizing days year with
  | zero => omega
  | succ n ih =>
      have hlength : (if isLeapYear year then 366 else 365) = yearLength year := by
        simp [isLeapYear_eq, yearLength]
      have hsucc := daysBeforeYear_succ hyear
      have hpos : 365 ≤ yearLength year := by
        unfold yearLength
        split <;> omega
      simp only [yearLoop, hlength]
      by_cases hdays : days < yearLength year
      · simp [hdays]
      · rw [if_neg hdays]
        have hnext : 0 < year + 1 := by omega
        obtain ⟨hle, hsum, hlt⟩ := ih hnext (show days - yearLength year < n by omega)
        exact ⟨by omega, by omega, hlt⟩

/-- The entry of `mdays` for a month, with the leap day, is the length of the month. -/
theorem mdays_drop (year : Nat) {month : Nat} (h1 : 1 ≤ month) (h12 : month ≤ 12) :
    ∃ m, mdays.drop (month - 1) = m :: mdays.drop month ∧
      (if month = 2 ∧ isLeapYear year then m + 1 else m) = monthLength year month := by
  interval_cases month <;> simp [mdays, monthLength, isLeapYear_eq]

/-- The loop over the months ends with a day of the month it has found. -/
theorem monthLoop_spec (year : Nat) {k month days : Nat} (hk : month + k = 13)
    (hmonth : 1 ≤ month) (h : daysBeforeMonth year month + days < yearLength year) :
    let r := monthLoop year (mdays.drop (month - 1)) month days
    (1 ≤ r.1 ∧ r.1 ≤ 12) ∧ daysBeforeMonth year r.1 + r.2 = daysBeforeMonth year month + days ∧
      r.2 < monthLength year r.1 := by
  induction k generalizing month days with
  | zero =>
      have hend := daysBeforeMonth_end year
      rw [show month = 13 by omega] at h
      omega
  | succ k ih =>
      obtain ⟨m, hdrop, hm⟩ := mdays_drop year hmonth (by omega)
      have hsucc := daysBeforeMonth_succ year hmonth
      rw [hdrop]
      simp only [monthLoop, hm]
      by_cases hdays : days < monthLength year month
      · simp only [if_pos hdays]
        exact ⟨⟨hmonth, by omega⟩, trivial, hdays⟩
      · rw [if_neg hdays]
        have hrest := @ih (month + 1) (days - monthLength year month) (by omega) (by omega)
          (by omega)
        rw [Nat.add_sub_cancel] at hrest
        obtain ⟨hrange, hsum, hlt⟩ := hrest
        exact ⟨hrange, by omega, hlt⟩

/-! ## The conversion -/

/-- The seconds since 1980 that are converted. -/
def dosSeconds (timestamp : Int) : Nat := (min (timestamp - msdosEpoch) msdosMaxTs).toNat

/-- The time that is packed, `seconds` after the first day of 1980. -/
def dosTime (seconds : Nat) : DosTime :=
  let year := yearLoop (seconds / 86400 + 1) (seconds / 86400) 1980
  let month := monthLoop year.1 mdays 1 year.2
  { year := year.1
    month := month.1
    day := month.2 + 1
    hour := seconds % 86400 / 3600
    minute := seconds % 86400 % 3600 / 60
    second := seconds % 86400 % 60 / 2 * 2 }

/-- A field of `n` bits from bit `k` on. -/
theorem shiftLeft_and (x k n : Nat) :
    (x <<< k) &&& ((2 ^ n - 1) <<< k) = 2 ^ k * (x % 2 ^ n) := by
  rw [← Nat.shiftLeft_and_distrib, Nat.and_two_pow_sub_one_eq_mod, Nat.shiftLeft_eq, Nat.mul_comm]

/-- A field above a value of `k` bits is added to it. -/
theorem or_two_pow_mul {a k : Nat} (h : a < 2 ^ k) (b : Nat) :
    a ||| (2 ^ k * b) = a + 2 ^ k * b := by
  rw [Nat.or_comm, Nat.add_comm]
  exact (Nat.two_pow_add_eq_or_of_lt h b).symm

/-- The shifted and masked fields do not overlap. -/
theorem DosTime.Valid.pack_bits {d : DosTime} (h : d.Valid) :
    ((d.second / 2) &&& 0x1F) ||| ((d.minute <<< 5) &&& 0x7E0) ||| ((d.hour <<< 11) &&& 0xF800) |||
      ((d.day <<< 16) &&& 0x1F0000) ||| ((d.month <<< 21) &&& 0x1E00000) |||
      (((d.year - 1980) <<< 25) &&& 0xFE000000) = pack d := by
  have hmonth := h.month
  have hday := h.day.2
  have hlength := monthLength_le d.year d.month
  have htime := h.time
  have hsecond : (d.second / 2) &&& 0x1F = d.second / 2 := by
    rw [show 0x1F = 2 ^ 5 - 1 from rfl, Nat.and_two_pow_sub_one_eq_mod]
    omega
  have hminute := shiftLeft_and d.minute 5 6
  have hhour := shiftLeft_and d.hour 11 5
  have hdays := shiftLeft_and d.day 16 5
  have hmonths := shiftLeft_and d.month 21 4
  have hyears := shiftLeft_and (d.year - 1980) 25 7
  rw [Nat.mod_eq_of_lt (by omega)] at hminute hhour hdays hmonths
  simp only [Nat.reducePow, Nat.reduceSub, Nat.reduceShiftLeft]
    at hminute hhour hdays hmonths hyears
  rw [hsecond, hminute, hhour, hdays, hmonths, hyears]
  unfold pack
  rw [← or_two_pow_mul (by omega), ← or_two_pow_mul (by omega), ← or_two_pow_mul (by omega),
    ← or_two_pow_mul (by omega), ← or_two_pow_mul (by omega)]
  rfl

/-- The loops find the day the seconds are in. -/
theorem dosTime_days (seconds : Nat) :
    1980 ≤ (dosTime seconds).year ∧
      (1 ≤ (dosTime seconds).month ∧ (dosTime seconds).month ≤ 12) ∧
      (1 ≤ (dosTime seconds).day ∧
        (dosTime seconds).day ≤ monthLength (dosTime seconds).year (dosTime seconds).month) ∧
      (dosTime seconds).dayNumber = daysBeforeYear 1980 + seconds / 86400 := by
  have hdays : seconds / 86400 < seconds / 86400 + 1 := Nat.lt_succ_self _
  obtain ⟨hyear, hsum, hlt⟩ := yearLoop_spec (show 0 < 1980 by decide) hdays
  unfold dosTime DosTime.dayNumber
  dsimp only
  generalize yearLoop (seconds / 86400 + 1) (seconds / 86400) 1980 = y at *
  have hstart : daysBeforeMonth y.1 1 = 0 := rfl
  obtain ⟨hrange, hmonths, hday⟩ := @monthLoop_spec y.1 12 1 y.2 rfl (Nat.le_refl 1)
    (by rw [hstart, Nat.zero_add]; exact hlt)
  rw [Nat.sub_self, List.drop_zero] at hrange hmonths hday
  generalize monthLoop y.1 mdays 1 y.2 = m at *
  exact ⟨hyear, hrange, by omega, by omega⟩

theorem dosTime_valid (seconds : Nat) : (dosTime seconds).Valid where
  year := (dosTime_days seconds).1
  month := (dosTime_days seconds).2.1
  day := (dosTime_days seconds).2.2.1
  time := by
    dsimp only [dosTime]
    omega
  even := by
    dsimp only [dosTime]
    omega

/-- What is packed is the time, rounded down to two seconds. -/
theorem timestamp_dosTime (seconds : Nat) :
    (dosTime seconds).timestamp = msdosEpoch + (seconds - seconds % 2 : Nat) := by
  have hyears : daysBeforeYear 1980 = daysBeforeYear 1970 + 3652 := by decide
  unfold DosTime.timestamp
  rw [(dosTime_days seconds).2.2.2, hyears]
  dsimp only [dosTime, msdosEpoch]
  omega

theorem convertTimestamp_eq (timestamp : Int) :
    convertTimestamp timestamp = pack (dosTime (dosSeconds timestamp)) := by
  have hclamp : (if (if timestamp < msdosEpoch then 0 else timestamp - msdosEpoch) > msdosMaxTs
      then msdosMaxTs
      else if timestamp < msdosEpoch then 0 else timestamp - msdosEpoch).toNat =
        dosSeconds timestamp := by
    unfold dosSeconds
    simp only [msdosEpoch, msdosMaxTs]
    omega
  have hsecond : (dosTime (dosSeconds timestamp)).second / 2 =
      dosSeconds timestamp % 86400 % 60 / 2 := by
    dsimp only [dosTime]
    omega
  rw [← (dosTime_valid (dosSeconds timestamp)).pack_bits, hsecond]
  unfold convertTimestamp
  dsimp only
  rw [hclamp]
  rfl

/-- Before the year 2108 the value says which time was packed. -/
theorem unpack_convertTimestamp {timestamp : Int}
    (hyear : (dosTime (dosSeconds timestamp)).year < 2108) :
    unpack (convertTimestamp timestamp) = dosTime (dosSeconds timestamp) := by
  have hvalid := dosTime_valid (dosSeconds timestamp)
  rw [convertTimestamp_eq, hvalid.unpack_pack, Nat.mod_eq_of_lt (by omega),
    Nat.add_sub_cancel' hvalid.year]

/-- The year is before one that begins later. -/
theorem year_dosTime_lt {seconds year : Nat} (hyear : 0 < year)
    (h : daysBeforeYear 1980 + seconds / 86400 < daysBeforeYear year) :
    (dosTime seconds).year < year := by
  by_contra hge
  have hvalid := dosTime_valid seconds
  have hmono := daysBeforeYear_mono hyear (Nat.le_of_not_lt hge)
  have hday := hvalid.day.1
  have hnumber := (dosTime_days seconds).2.2.2
  unfold DosTime.dayNumber at hnumber
  omega

/-- The time stamp that should be packed. -/
def clampedTimestamp (timestamp : Int) : Int :=
  let clamped := max msdosEpoch (min timestamp msdosMaxTs)
  clamped - clamped % 2

/-- From the year 2108 on the year is read as one that begins again in 1980. -/
theorem timestamp_unpack_lt {d : DosTime} (h : d.Valid) (hwrap : 2108 ≤ d.year)
    (hlast : d.year < 2110) : (unpack (pack d)).timestamp < 4102444798 := by
  have hyear : 1980 + (d.year - 1980) % 128 ≤ 1981 := by omega
  have hfirst : 0 < 1980 + (d.year - 1980) % 128 := by omega
  have hmonth := daysBeforeMonth_mono (1980 + (d.year - 1980) % 128)
    (show 0 < d.month from h.month.1) (show d.month ≤ 13 by have := h.month.2; omega)
  have hyears := daysBeforeYear_mono hfirst hyear
  have hlength : yearLength (1980 + (d.year - 1980) % 128) ≤ 366 := by
    unfold yearLength
    split <;> omega
  have hday := h.day.2
  have hday' := monthLength_le d.year d.month
  have htime := h.time
  have hdays : daysBeforeYear 1981 = daysBeforeYear 1970 + 4018 := by decide
  rw [daysBeforeMonth_end] at hmonth
  rw [h.unpack_pack]
  unfold DosTime.timestamp DosTime.dayNumber
  dsimp only
  omega

/-- A time stamp is converted to the time it is clamped to, in legal fields and in the order of
the time stamps, if and only if it is not above the latest one: the latest one is compared with
the seconds since 1980. -/
theorem convertTimestamp_exact_iff (timestamp : Int) :
    ((unpack (convertTimestamp timestamp)).timestamp = clampedTimestamp timestamp ∧
        (unpack (convertTimestamp timestamp)).Legal ∧
        ∀ earlier ≤ timestamp, convertTimestamp earlier ≤ convertTimestamp timestamp) ↔
      timestamp ≤ msdosMaxTs := by
  have hvalid := dosTime_valid (dosSeconds timestamp)
  have htime := timestamp_dosTime (dosSeconds timestamp)
  constructor
  · rintro ⟨hexact, -, -⟩
    by_contra hlate
    have hclamped : clampedTimestamp timestamp = 4102444798 := by
      simp only [clampedTimestamp, msdosEpoch, msdosMaxTs] at *
      omega
    rw [hclamped] at hexact
    by_cases hyear : (dosTime (dosSeconds timestamp)).year < 2108
    · rw [unpack_convertTimestamp hyear, htime] at hexact
      simp only [dosSeconds, msdosEpoch, msdosMaxTs] at *
      omega
    · -- The year does not fit: it is read as 1980 or 1981.
      have hlast : (dosTime (dosSeconds timestamp)).year < 2110 := by
        apply year_dosTime_lt (by decide)
        have hdays : daysBeforeYear 1980 + 47482 = daysBeforeYear 2110 := by decide
        simp only [dosSeconds, msdosEpoch, msdosMaxTs] at *
        omega
      have hwrap := timestamp_unpack_lt hvalid (Nat.le_of_not_lt hyear) hlast
      rw [convertTimestamp_eq] at hexact
      omega
  · intro hle
    have hyear : ∀ earlier ≤ timestamp, (dosTime (dosSeconds earlier)).year < 2108 := by
      intro earlier hearlier
      apply year_dosTime_lt (by decide)
      have hdays : daysBeforeYear 1980 + 46751 = daysBeforeYear 2108 := by decide
      simp only [dosSeconds, msdosEpoch, msdosMaxTs] at *
      omega
    refine ⟨?_, ?_, ?_⟩
    · rw [unpack_convertTimestamp (hyear _ (Int.le_refl _)), htime]
      simp only [clampedTimestamp, dosSeconds, msdosEpoch, msdosMaxTs] at *
      omega
    · rw [unpack_convertTimestamp (hyear _ (Int.le_refl _))]
      exact hvalid.legal (hyear _ (Int.le_refl _))
    · intro earlier hearlier
      have htime' := timestamp_dosTime (dosSeconds earlier)
      rw [convertTimestamp_eq, convertTimestamp_eq]
      apply (dosTime_valid _).pack_le hvalid (hyear _ hearlier) (hyear _ (Int.le_refl _))
      rw [htime, htime']
      simp only [dosSeconds, msdosEpoch, msdosMaxTs] at *
      omega

/-- The first second of the year 2100 is converted to itself. -/
theorem convertTimestamp_2100 :
    ¬ ∀ timestamp : Int, -2 ^ 63 ≤ timestamp → timestamp < 2 ^ 63 →
      (unpack (convertTimestamp timestamp)).timestamp = clampedTimestamp timestamp ∧
        (unpack (convertTimestamp timestamp)).Legal ∧
        ∀ earlier ≤ timestamp, convertTimestamp earlier ≤ convertTimestamp timestamp := by
  intro h
  have hexact := (h 4102444800 (by decide) (by decide)).1
  revert hexact
  decide

end ImageTool.Fat
