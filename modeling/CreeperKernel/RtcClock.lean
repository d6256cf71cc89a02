import Mathlib.Algebra.Order.Group.Nat
import Mathlib.Algebra.BigOperators.Group.List.Basic
import Mathlib.Algebra.GroupWithZero.Nat

namespace CreeperKernel.Rtc

structure RtcTime where
  second : Nat
  minute : Nat
  hour : Nat
  day : Nat
  month : Nat
  year : Nat

def isLeapYear (year : Nat) : Bool := (year % 4 == 0 && year % 100 != 0) || year % 400 == 0

/-- `days_before_month`, whose elements are of type `uint8_t`. -/
def daysBeforeMonth (index : Nat) : Nat :=
  ([0, 31, 59, 90, 120, 151, 181, 212, 243, 273, 304, 334][index]?.getD 0) % 2 ^ 8

/-- The days of `rtc_init` from the loop over the years on. `time.day - 1` is an `int`. -/
def rtcDays (time : RtcTime) : Int :=
  let days := (List.range' 1970 (time.year - 1970)).foldl (fun days y => days + if isLeapYear y then 366 else 365) 0
  let days := days + daysBeforeMonth (time.month - 1)
  let days := if time.month > 2 ∧ isLeapYear time.year then days + 1 else days
  days + ((time.day : Int) - 1)

/-- `boot_unix_time` of `rtc_init`, before the timer value is subtracted. -/
def rtcSeconds (time : RtcTime) : Int :=
  (rtcDays time * 86400 + time.hour * 3600 + time.minute * 60 + time.second) % 2 ^ 64

section Gregorian

/-- The Gregorian rule: every fourth year is a leap year, of the centuries every fourth. -/
def Leap (year : Nat) : Prop := if 100 ∣ year then 400 ∣ year else 4 ∣ year

instance (year : Nat) : Decidable (Leap year) := inferInstanceAs (Decidable (ite _ _ _))

def monthLength (leap : Bool) : Nat → Nat
  | 2 => if leap then 29 else 28
  | 4 | 6 | 9 | 11 => 30
  | _ => 31

def yearLength (year : Nat) : Nat := ((List.range' 1 12).map (monthLength (decide (Leap year)))).sum

/-- The days from 1 January 1970 to 1 January of a year. -/
def daysBeforeYear (year : Nat) : Nat := ((List.range' 1970 (year - 1970)).map yearLength).sum

/-- The days from 1 January to the first of a month. -/
def monthStart (leap : Bool) (month : Nat) : Nat := ((List.range' 1 (month - 1)).map (monthLength leap)).sum

def unixDays (time : RtcTime) : Nat :=
  daysBeforeYear time.year + monthStart (decide (Leap time.year)) time.month + (time.day - 1)

/-- The seconds since 1970-01-01 00:00:00 UTC. -/
def unixSeconds (time : RtcTime) : Nat :=
  unixDays time * 86400 + time.hour * 3600 + time.minute * 60 + time.second

/-- A date and time of day of the calendar that an `rtc_time_t` can hold. -/
structure RtcTime.Valid (time : RtcTime) : Prop where
  year : 1970 ≤ time.year ∧ time.year < 2 ^ 16
  month : 1 ≤ time.month ∧ time.month ≤ 12
  day : 1 ≤ time.day ∧ time.day ≤ monthLength (decide (Leap time.year)) time.month
  hour : time.hour < 24
  minute : time.minute < 60
  second : time.second < 60

/-- The order of dates and times of day. -/
def RtcTime.Before (t u : RtcTime) : Prop :=
  t.year < u.year ∨ t.year = u.year ∧ (t.month < u.month ∨ t.month = u.month ∧ (t.day < u.day ∨ t.day = u.day ∧
    (t.hour < u.hour ∨ t.hour = u.hour ∧ (t.minute < u.minute ∨ t.minute = u.minute ∧ t.second < u.second))))

variable {year : Nat} {leap : Bool} {month : Nat} {t u : RtcTime}

theorem isLeapYear_eq (year : Nat) : isLeapYear year = decide (Leap year) := by
  rw [Bool.eq_iff_iff, decide_eq_true_iff]
  simp only [isLeapYear, Leap, Bool.or_eq_true, Bool.and_eq_true, beq_iff_eq, bne_iff_ne, ne_eq]
  split <;> omega

theorem yearLength_eq (year : Nat) : yearLength year = if Leap year then 366 else 365 := by
  have lengths : ∀ leap, ((List.range' 1 12).map (monthLength leap)).sum = if leap then 366 else 365 := by decide
  rw [yearLength, lengths]
  simp only [decide_eq_true_eq]

theorem daysBeforeYear_succ (from_ : 1970 ≤ year) : daysBeforeYear (year + 1) = daysBeforeYear year + yearLength year := by
  rw [daysBeforeYear, Nat.succ_sub from_, List.range'_concat, List.map_append, List.sum_append, List.map_singleton,
    List.sum_singleton, Nat.one_mul, Nat.add_sub_cancel' from_]
  rfl

theorem monthStart_add_le {later : Nat} (first : 1 ≤ month) (before : month < later) (last : later ≤ 12) :
    monthStart leap month + monthLength leap month ≤ monthStart leap later := by
  have table : ∀ leap, ∀ later < 13, ∀ month < later, 1 ≤ month →
      monthStart leap month + monthLength leap month ≤ monthStart leap later := by decide
  exact table leap later (by omega) month before first

theorem monthStart_add_le_year (first : 1 ≤ month) (last : month ≤ 12) (year : Nat) :
    monthStart (decide (Leap year)) month + monthLength (decide (Leap year)) month ≤ yearLength year := by
  have table : ∀ leap, ∀ month < 13, 1 ≤ month → monthStart leap month + monthLength leap month ≤
      ((List.range' 1 12).map (monthLength leap)).sum := by decide
  exact table _ month (by omega) first

theorem daysBeforeYear_mono {later : Nat} (from_ : 1970 ≤ year) (before : year < later) :
    daysBeforeYear year + yearLength year ≤ daysBeforeYear later := by
  induction later with
  | zero => omega
  | succ later ih =>
    rw [daysBeforeYear_succ (by omega)]
    rcases Nat.lt_or_ge year later with less | same
    · have earlier := ih less
      omega
    · have same : year = later := by omega
      rw [same]

theorem daysBeforeYear_le (from_ : 1970 ≤ year) : daysBeforeYear year ≤ 366 * (year - 1970) := by
  induction year, from_ using Nat.le_induction with
  | base => decide
  | succ year from_ ih =>
    have length : yearLength year ≤ 366 := by
      rw [yearLength_eq]
      split <;> omega
    rw [daysBeforeYear_succ from_]
    omega

theorem monthStart_le (first : 1 ≤ month) (last : month ≤ 12) : monthStart leap month + monthLength leap month ≤ 366 := by
  have table : ∀ leap, ∀ month < 13, 1 ≤ month → monthStart leap month + monthLength leap month ≤ 366 := by decide
  exact table leap month (by omega) first

theorem unixDays_strictMono (valid : t.Valid) (valid' : u.Valid)
    (before : t.year < u.year ∨ t.year = u.year ∧ (t.month < u.month ∨ t.month = u.month ∧ t.day < u.day)) :
    unixDays t < unixDays u := by
  have inside := monthStart_add_le_year valid.month.1 valid.month.2 t.year
  have ⟨low, high⟩ := valid.day
  have ⟨low', _⟩ := valid'.day
  unfold unixDays
  rcases before with year | ⟨year, month | ⟨month, day⟩⟩
  · have later := daysBeforeYear_mono valid.year.1 year
    omega
  · have later : monthStart (decide (Leap t.year)) t.month + _ ≤ _ := monthStart_add_le valid.month.1 month valid'.month.2
    rw [← year]
    omega
  · rw [← year, ← month]
    omega

theorem unixSeconds_strictMono (valid : t.Valid) (valid' : u.Valid) (before : t.Before u) :
    unixSeconds t < unixSeconds u := by
  have hours := valid.hour
  have minutes := valid.minute
  have seconds := valid.second
  have days := unixDays_strictMono valid valid'
  unfold unixSeconds
  rcases before with year | ⟨year, month | ⟨month, day | ⟨day, clock⟩⟩⟩
  · have less := days (.inl year)
    omega
  · have less := days (.inr ⟨year, .inl month⟩)
    omega
  · have less := days (.inr ⟨year, .inr ⟨month, day⟩⟩)
    omega
  · have same : unixDays t = unixDays u := by rw [unixDays, unixDays, year, month, day]
    omega

end Gregorian

section Clock

variable {t : RtcTime} (valid : t.Valid)

include valid

/-- From October on the table is 256 days short. -/
theorem rtcDays_eq : rtcDays t + (if t.month ≤ 9 then 0 else 256) = unixDays t := by
  have years : ∀ years : List Nat, ∀ days, years.foldl (fun days y => days + if isLeapYear y then 366 else 365) days =
      days + (years.map yearLength).sum := by
    intro years
    induction years with
    | nil => exact fun days => rfl
    | cons y rest ih =>
      intro days
      rw [List.foldl_cons, ih, List.map_cons, List.sum_cons, yearLength_eq, isLeapYear_eq, ← Nat.add_assoc]
      simp only [decide_eq_true_eq]
  have table : ∀ leap, ∀ month < 13, 1 ≤ month → daysBeforeMonth (month - 1) + (if month > 2 ∧ leap = true then 1 else 0) +
      (if month ≤ 9 then 0 else 256) = monthStart leap month := by decide
  have ⟨first, last⟩ := valid.month
  have month := table (isLeapYear t.year) t.month (by omega) first
  have day := valid.day.1
  rw [isLeapYear_eq] at month
  unfold rtcDays unixDays
  rw [years, isLeapYear_eq, daysBeforeYear]
  dsimp only
  by_cases leapDay : t.month > 2 ∧ decide (Leap t.year) = true
  · rw [if_pos leapDay] at month ⊢
    by_cases early : t.month ≤ 9
    · rw [if_pos early] at month ⊢
      omega
    · rw [if_neg early] at month ⊢
      omega
  · rw [if_neg leapDay] at month ⊢
    by_cases early : t.month ≤ 9
    · rw [if_pos early] at month ⊢
      omega
    · rw [if_neg early] at month ⊢
      omega

theorem unixSeconds_lt : unixSeconds t < 2 ^ 64 := by
  have years := daysBeforeYear_le valid.year.1
  have months : monthStart (decide (Leap t.year)) t.month + _ ≤ 366 := monthStart_le valid.month.1 valid.month.2
  have ⟨_, small⟩ := valid.year
  have ⟨_, day⟩ := valid.day
  have hours := valid.hour
  have minutes := valid.minute
  have seconds := valid.second
  unfold unixSeconds unixDays
  omega

theorem rtcSeconds_eq : rtcSeconds t + (if t.month ≤ 9 then 0 else 256 * 86400) = unixSeconds t := by
  have days := rtcDays_eq valid
  have small := unixSeconds_lt valid
  have late : 9 < t.month → 256 ≤ unixDays t := by
    intro late
    have ⟨_, last⟩ := valid.month
    have table : ∀ leap, ∀ month < 13, 9 < month → 256 ≤ monthStart leap month := by decide
    have start := table (decide (Leap t.year)) t.month (by omega) late
    unfold unixDays
    omega
  unfold unixSeconds at small ⊢
  unfold rtcSeconds
  split at days
  · omega
  · have enough := late (by omega)
    omega

end Clock

/-- The clock is right, and runs forward, in the months from January to September. -/
theorem rtc_seconds_right_iff (t : RtcTime) (valid : t.Valid) :
    (rtcSeconds t = unixSeconds t ↔ t.month ≤ 9) ∧
      ∀ u : RtcTime, u.Valid → t.month ≤ 9 → u.month ≤ 9 → t.Before u → rtcSeconds t < rtcSeconds u := by
  have right := rtcSeconds_eq valid
  constructor
  · split at right <;> omega
  · intro u valid' early early' before
    have right' := rtcSeconds_eq valid'
    have less := unixSeconds_strictMono valid valid' before
    rw [if_pos early] at right
    rw [if_pos early'] at right'
    omega

def lastOfSeptember : RtcTime := ⟨59, 59, 23, 30, 9, 2026⟩
def firstOfOctober : RtcTime := ⟨0, 0, 0, 1, 10, 2026⟩

theorem lastOfSeptember_valid : lastOfSeptember.Valid :=
  ⟨by decide, by decide, by decide, by decide, by decide, by decide⟩

theorem rtc_seconds_right_iff_september : rtcSeconds lastOfSeptember = unixSeconds lastOfSeptember :=
  (rtc_seconds_right_iff lastOfSeptember lastOfSeptember_valid).1.mpr (by decide)

/-- One second later the clock is set back by 256 days. -/
theorem october_sets_clock_back : firstOfOctober.Valid ∧ rtcSeconds firstOfOctober ≠ unixSeconds firstOfOctober ∧
    lastOfSeptember.Before firstOfOctober ∧ rtcSeconds firstOfOctober < rtcSeconds lastOfSeptember := by
  refine ⟨⟨by decide, by decide, by decide, by decide, by decide, by decide⟩, by decide +kernel, ?_, by decide +kernel⟩
  exact .inr ⟨rfl, .inl (by decide)⟩

end CreeperKernel.Rtc
