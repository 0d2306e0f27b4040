import PickleTrial.Number.Integer

/-! Dates of the Gregorian calendar, times of day and durations, and the packed bytes in which
streams carry dates and times. -/

namespace PickleTrial

/-! ## Dates -/

def isLeapYear (year : Int) : Bool :=
  year % 4 = 0 && (year % 100 ≠ 0 || year % 400 = 0)

def daysInMonth (year : Int) (month : Nat) : Nat :=
  if month = 2 then (if isLeapYear year then 29 else 28)
  else if month ∈ [4, 6, 9, 11] then 30
  else 31

/-- The days that exist. The calendar is carried on before its introduction, with a year zero,
over the years that a day count of 32 bits leaves room for. -/
def IsDate (year : Int) (month day : Nat) : Prop :=
  (-262143 ≤ year ∧ year ≤ 262142) ∧ (1 ≤ month ∧ month ≤ 12) ∧
    (1 ≤ day ∧ day ≤ daysInMonth year month)

instance (year : Int) (month day : Nat) : Decidable (IsDate year month day) :=
  inferInstanceAs (Decidable (_ ∧ _))

structure Date where
  year : Int
  month : Nat
  day : Nat
  isDate : IsDate year month day
deriving DecidableEq

namespace Date

def of? (year : Int) (month day : Nat) : Option Date :=
  if isDate : IsDate year month day then some ⟨year, month, day, isDate⟩ else none

/-- The low 16 bits of the year, the month and the day. -/
def packed (date : Date) : Bytes :=
  Bytes.bigEndian 2 (date.year % 65536).toNat ++ [UInt8.ofNat date.month, UInt8.ofNat date.day]

example : (of? 2000 2 29).isSome ∧ (of? 1900 2 29).isNone := by decide

end Date

/-! ## Times of day -/

/-- The times that exist. Nanoseconds from a billion on tell a leap second, which may stand behind
every second once the nanoseconds of a time are replaced. -/
def IsTime (hour minute second nanosecond : Nat) : Prop :=
  (hour < 24 ∧ minute < 60 ∧ second < 60) ∧ nanosecond < 2000000000

instance (hour minute second nanosecond : Nat) :
    Decidable (IsTime hour minute second nanosecond) :=
  inferInstanceAs (Decidable (_ ∧ _))

structure Time where
  hour : Nat
  minute : Nat
  second : Nat
  nanosecond : Nat
  isTime : IsTime hour minute second nanosecond
deriving DecidableEq

namespace Time

/-- A time that is told by its parts has a leap second only at the end of a minute. -/
def of? (hour minute second nanosecond : Nat) : Option Time :=
  if valid : IsTime hour minute second nanosecond ∧ (1000000000 ≤ nanosecond → second = 59) then
    some ⟨hour, minute, second, nanosecond, valid.1⟩
  else none

/-- The whole microseconds within the second; those of a leap second start again at zero. -/
def microsecond (time : Time) : Nat :=
  time.nanosecond / 1000 % 1000000

/-- The hour, the minute, the second, and three bytes of microseconds. -/
def packed (time : Time) : Bytes :=
  [UInt8.ofNat time.hour, UInt8.ofNat time.minute, UInt8.ofNat time.second] ++
    Bytes.bigEndian 3 time.microsecond

end Time

structure Moment where
  date : Date
  time : Time
deriving DecidableEq

def Moment.packed (moment : Moment) : Bytes :=
  moment.date.packed ++ moment.time.packed

/-! ## Durations -/

/-- The largest duration, either way: the milliseconds that fit 64 bits with a sign. -/
def Duration.limit : Nat :=
  0x7fffffffffffffff * 1000000

structure Duration where
  nanoseconds : Int
  within : nanoseconds.natAbs ≤ Duration.limit
deriving DecidableEq

namespace Duration

/-- Whole seconds, and the nanoseconds past them. -/
def of? (seconds : Int) (nanoseconds : Nat) : Option Duration :=
  let total := seconds * 1000000000 + nanoseconds
  if within : nanoseconds < 1000000000 ∧ total.natAbs ≤ limit then some ⟨total, within.2⟩
  else none

/-- The whole microseconds, nearest to zero, where they fit 64 bits. -/
def microseconds? (duration : Duration) : Option Int :=
  let count := duration.nanoseconds.tdiv 1000
  if Integer.FitsInt64 count then some count else none

/-- Days, seconds and microseconds of a count of microseconds. Only the days may be negative. -/
structure Parts where
  days : Int
  seconds : Nat
  microseconds : Nat
deriving DecidableEq

def parts (count : Int) : Parts where
  days := count / 86400000000
  seconds := (count % 86400000000).toNat / 1000000
  microseconds := (count % 86400000000).toNat % 1000000

/-- A microsecond before nothing is the last one of the day before. -/
example : parts (-1) = ⟨-1, 86399, 999999⟩ := by decide

end Duration

end PickleTrial
