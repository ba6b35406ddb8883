import WorkloadConfig.Number.Decimal
import WorkloadConfig.Text.Quoted

namespace WorkloadConfig

/-- A distance from universal time in minutes. It is numeric unless universal time was named. -/
structure Offset where
  numeric : Bool
  minutes : Int
deriving DecidableEq, Repr, Inhabited

structure Clock where
  hour : Nat
  minute : Nat
  second : Nat
  microsecond : Nat := 0
  offset : Option Offset := none
deriving DecidableEq, Repr, Inhabited

structure Timestamp where
  year : Nat
  month : Nat
  day : Nat
  clock : Option Clock := none
deriving DecidableEq, Repr, Inhabited

namespace Calendar

def isLeap (year : Nat) : Bool :=
  year % 4 = 0 && (year % 100 ≠ 0 || year % 400 = 0)

/-- The days of a month, none if there is no such month. -/
def daysIn (year month : Nat) : Nat :=
  if month = 2 then if isLeap year then 29 else 28
  else if [4, 6, 9, 11].contains month then 30
  else if 1 ≤ month && month ≤ 12 then 31
  else 0

/-- The days of the years before a positive year. -/
def daysBefore (year : Nat) : Nat :=
  let past := year - 1
  past * 365 + past / 4 - past / 100 + past / 400

/-- The day counted from the first day of the first year. -/
def dayNumber (year month day : Nat) : Nat :=
  daysBefore year + ((List.range month).map (daysIn year)).foldl (· + ·) 0 + day

/-- The date of the day behind another. -/
def dayAfter (year month day : Nat) : Nat × Nat × Nat :=
  if day < daysIn year month then (year, month, day + 1)
  else if month < 12 then (year, month + 1, 1)
  else (year + 1, 1, 1)

end Calendar

/-- Decimal digits filled up with zeros to the width. -/
def paddedDigits (width n : Nat) : String :=
  String.ofList (Layout.pad width (Nat.toDigits 10 n))

namespace Offset

/-- Sign, hours and minutes. -/
def text (o : Offset) : String :=
  (if o.minutes < 0 then "-" else "+") ++ paddedDigits 2 (o.minutes.natAbs / 60) ++ ":" ++
    paddedDigits 2 (o.minutes.natAbs % 60)

/-- A duration of minutes in days and seconds, the seconds never negative. -/
def shownDuration (minutes : Int) : String :=
  let days := minutes.fdiv 1440
  let seconds := minutes.fmod 1440 * 60
  let parts := (if days = 0 then [] else ["days=" ++ toString days]) ++
    (if seconds = 0 then [] else ["seconds=" ++ toString seconds])
  "datetime.timedelta(" ++ (if parts = [] then "0" else ", ".intercalate parts) ++ ")"

def shown (o : Offset) : String :=
  if o.numeric then
    "datetime.timezone(" ++ shownDuration o.minutes ++ ", " ++ Text.quoted o.text ++ ")"
  else "datetime.timezone.utc"

def rangeFlaw? (o : Offset) : Option String :=
  if o.minutes.natAbs < 1440 then none
  else some <|
    "offset must be a timedelta strictly between -timedelta(hours=24) and timedelta(hours=24), " ++
      "not " ++ shownDuration o.minutes ++ "."

end Offset

namespace Clock

def text (c : Clock) : String :=
  paddedDigits 2 c.hour ++ ":" ++ paddedDigits 2 c.minute ++ ":" ++ paddedDigits 2 c.second ++
    if c.microsecond = 0 then "" else "." ++ paddedDigits 6 c.microsecond

def offsetText (c : Clock) : String :=
  match c.offset with
  | some offset => offset.text
  | none => ""

/-- The offset as documents in storage have it, where universal time has a letter of its own. -/
def offsetLetter (c : Clock) : String :=
  match c.offset with
  | some offset => if offset.minutes = 0 then "Z" else offset.text
  | none => ""

def rangeFlaw? (c : Clock) : Option String :=
  if 23 < c.hour then some "hour must be in 0..23"
  else if 59 < c.minute then some "minute must be in 0..59"
  else if 59 < c.second then some "second must be in 0..59"
  else none

/-- Microseconds since midnight of universal time. -/
def sinceMidnight (c : Clock) : Int :=
  let minutes : Int := c.hour * 60 + c.minute - (c.offset.map (·.minutes)).getD 0
  (minutes * 60 + c.second) * 1000000 + c.microsecond

end Clock

namespace Timestamp

def dayText (t : Timestamp) : String :=
  paddedDigits 4 t.year ++ "-" ++ paddedDigits 2 t.month ++ "-" ++ paddedDigits 2 t.day

/-- The date, and after a blank the time of day. -/
def text (t : Timestamp) : String :=
  match t.clock with
  | some clock => t.dayText ++ " " ++ clock.text ++ clock.offsetText
  | none => t.dayText

/-- The text in storage. -/
def iso (t : Timestamp) : String :=
  match t.clock with
  | some clock => t.dayText ++ "T" ++ clock.text ++ clock.offsetLetter
  | none => t.dayText

/-- The parts of the timestamp as messages show them. -/
def shown (t : Timestamp) : String :=
  let date := [t.year, t.month, t.day]
  match t.clock with
  | none => "datetime.date(" ++ ", ".intercalate (date.map toString) ++ ")"
  | some c =>
    let behindMinute :=
      if c.microsecond ≠ 0 then [c.second, c.microsecond]
      else if c.second ≠ 0 then [c.second] else []
    let parts := (date ++ [c.hour, c.minute] ++ behindMinute).map toString ++
      c.offset.toList.map fun offset => "tzinfo=" ++ offset.shown
    "datetime.datetime(" ++ ", ".intercalate parts ++ ")"

/-- What is out of range, the offset before the date and that before the time of day. -/
def rangeFlaw? (t : Timestamp) : Option String :=
  let offset := ((t.clock.bind (·.offset)).bind Offset.rangeFlaw?)
  let date :=
    if t.year = 0 then some "year 0 is out of range"
    else if Calendar.daysIn t.year t.month = 0 then some "month must be in 1..12"
    else if t.day = 0 || Calendar.daysIn t.year t.month < t.day then
      some "day is out of range for month"
    else none
  (offset.or date).or (t.clock.bind Clock.rangeFlaw?)

/-- The whole second behind that of the timestamp. -/
def nextSecond (t : Timestamp) (c : Clock) : Timestamp :=
  let second := (c.hour * 60 + c.minute) * 60 + c.second + 1
  let (year, month, day) :=
    if second < 86400 then (t.year, t.month, t.day) else Calendar.dayAfter t.year t.month t.day
  let clock : Clock := ⟨second / 3600 % 24, second / 60 % 60, second % 60, 0, c.offset⟩
  ⟨year, month, day, some clock⟩

/-- A million microseconds are a second. -/
def carried (t : Timestamp) : Timestamp :=
  match t.clock with
  | some c => if c.microsecond < 1000000 then t else t.nextSecond c
  | none => t

/-- Microseconds from the first day of the first year. -/
def instant (t : Timestamp) (c : Clock) : Int :=
  Calendar.dayNumber t.year t.month t.day * 86400000000 + c.sinceMidnight

/-- Dates agree with dates alone. With an offset two times agree if they are one instant; a time
with an offset agrees with none that has no offset. -/
def agrees (s t : Timestamp) : Bool :=
  match s.clock, t.clock with
  | some c, some d =>
    c.offset.isSome = d.offset.isSome && s.instant c = t.instant d
  | none, none => s = t
  | _, _ => false

example : (Timestamp.mk 2024 1 2 (some ⟨3, 4, 5, 250000, some ⟨true, 120⟩⟩)).text =
    "2024-01-02 03:04:05.250000+02:00" := by decide +kernel
example : (Timestamp.mk 2024 2 30 none).rangeFlaw? = some "day is out of range for month" := by
  decide +kernel

end Timestamp
end WorkloadConfig
