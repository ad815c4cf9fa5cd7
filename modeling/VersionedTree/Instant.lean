/-!
# Instants

A point in time is a count of microseconds since the beginning of 1970, without leap seconds. It
is shown as a date and a time of day of the proleptic Gregorian calendar.

## Main definitions

* `VersionedTree.Instant` — the count.
* `VersionedTree.Instant.civil` — year, month and day of a count of days.
* `VersionedTree.Instant.hasDate` — does the calendar reach this instant?
* `VersionedTree.Instant.text` — the date and time, or the count beyond the calendar.
-/

set_option autoImplicit false

namespace VersionedTree

/-- A point in time. -/
structure Instant where
  /-- Microseconds since the beginning of 1970. -/
  micros : Int
deriving DecidableEq, Repr, Inhabited

namespace Instant

/-- The order of time. -/
def order (a b : Instant) : Ordering := compare a.micros b.micros

/-- Microseconds of one day. -/
def microsPerDay : Int := 86400000000

/-- Year, month and day of the given day, counted from 1970-01-01.

Years are taken to begin in March, so that the leap day is their last one; 400 of them, an era,
have 146097 days. -/
def civil (day : Int) : Int × Nat × Nat :=
  let shifted := day + 719468
  let era := shifted.fdiv 146097
  let dayOfEra := (shifted.fmod 146097).toNat
  let yearOfEra := (dayOfEra - dayOfEra / 1460 + dayOfEra / 36524 - dayOfEra / 146096) / 365
  let dayOfYear := dayOfEra - (365 * yearOfEra + yearOfEra / 4 - yearOfEra / 100)
  let monthFromMarch := (5 * dayOfYear + 2) / 153
  let dayOfMonth := dayOfYear - (153 * monthFromMarch + 2) / 5 + 1
  let month := if monthFromMarch < 10 then monthFromMarch + 3 else monthFromMarch - 9
  (yearOfEra + era * 400 + (if month ≤ 2 then 1 else 0), month, dayOfMonth)

/-- A number with zeros in front up to the given count of digits. -/
def padded (width n : Nat) : String :=
  let digits := (toString n).toList
  String.ofList (List.replicate (width - digits.length) '0' ++ digits)

/-- A year has four digits, and a sign if it is before year 0 or after year 9999. -/
def yearText (year : Int) : String :=
  if year < 0 then "-" ++ padded 4 year.natAbs
  else if 9999 < year then "+" ++ padded 4 year.natAbs
  else padded 4 year.natAbs

/-- The first instant of the calendar, the beginning of year -262143. -/
def calendarStart : Int := -8334601228800000000

/-- The first instant after the calendar, the end of year 262142. -/
def calendarEnd : Int := 8210266876800000000

/-- Does the calendar reach this instant? -/
def hasDate (t : Instant) : Bool := calendarStart ≤ t.micros && t.micros < calendarEnd

/-- Date and time of day with microseconds. -/
def dateText (t : Instant) : String :=
  let (year, month, day) := civil (t.micros.fdiv microsPerDay)
  let rest := (t.micros.fmod microsPerDay).toNat
  yearText year ++ "-" ++ padded 2 month ++ "-" ++ padded 2 day ++ " "
    ++ padded 2 (rest / 3600000000) ++ ":" ++ padded 2 (rest / 60000000 % 60) ++ ":"
    ++ padded 2 (rest / 1000000 % 60) ++ "." ++ padded 6 (rest % 1000000)

/-- The date and time, or the count itself beyond the calendar. -/
def text (t : Instant) : String :=
  if t.hasDate then t.dateText else toString t.micros ++ "us"

end Instant

end VersionedTree
