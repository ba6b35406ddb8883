import WorkloadConfig.Timestamp

namespace WorkloadConfig.Moment

inductive Flaw where
  /-- Well formed, but no point in time. -/
  | impossible (reason : String)
  /-- Not well formed, also not as a date. -/
  | unreadable (reason : String)
deriving DecidableEq, Repr

def yearZero : String := "year 0 is out of range"
def tooLate : String := "dates after 9999 are not supported as unix timestamps"
def tooEarly : String := "dates before 0000 are not supported as unix timestamps"

/-- Numbers far from zero count milliseconds. -/
def secondsOf (n : Int) : Int :=
  if 20000000000 < n.natAbs then n.fdiv 1000 else n

/-- Why a count has no moment within four digits of the year. -/
def outside? (n : Int) : Option String :=
  if 253402300799 < secondsOf n then some tooLate
  else if secondsOf n < -62167219200 then some tooEarly
  else none

def inYearZero (n : Int) : Bool :=
  secondsOf n < -62135596800

/-- What is wrong with an integer as a moment. -/
def secondsFlaw? (n : Int) : Option Flaw :=
  match outside? n with
  | some reason => some (.impossible reason)
  | none => if inYearZero n then some (.impossible yearZero) else none

def floatFlaw? (x : Binary64) : Option Flaw :=
  if x.isNaN then some (.impossible "NaN values not permitted")
  else if x.isFinite then secondsFlaw? x.floor
  else some (.impossible (if x.negative then tooEarly else tooLate))

/-- A decimal number without an exponent: what stands before its point, and whether it has one. -/
def number? (s : List Char) : Option (Int × Bool) :=
  let (negative, body) := Literal.takeSign s
  let whole := body.takeWhile Char.isDigit
  let fraction := (body.drop whole.length).drop 1
  let n : Int := Literal.ofDigits whole
  let n := if negative then -n else n
  if !Literal.isDigits whole || n < -0x8000000000000000 || 0x8000000000000000 ≤ n then none
  else if whole.length = body.length then some (n, false)
  else if body[whole.length]? = some '.' && Literal.isDigits fraction then
    some (if negative && fraction.any (· ≠ '0') then n - 1 else n, true)
  else none

/-- What is wrong with the first ten characters as a date. -/
def dateFlaw? (s : List Char) : Option String :=
  let year := s.take 4
  let month := (s.drop 5).take 2
  let day := (s.drop 8).take 2
  if s.length < 10 then some "input is too short"
  else if !year.all Char.isDigit then some "invalid character in year"
  else if s[4]? ≠ some '-' then some "invalid date separator, expected `-`"
  else if !month.all Char.isDigit then some "invalid character in month"
  else if s[7]? ≠ some '-' then some "invalid date separator, expected `-`"
  else if !day.all Char.isDigit then some "invalid character in day"
  else
    let days := Calendar.daysIn (Literal.ofDigits year) (Literal.ofDigits month)
    let n := Literal.ofDigits day
    if days = 0 then some "month value is outside expected range of 1-12"
    else if n = 0 || days < n then some "day value is outside expected range"
    else none

def twoDigits (bound : Nat) (s : List Char) : Bool :=
  s.length = 2 && s.all Char.isDigit && Literal.ofDigits s < bound

def isOffset : List Char → Bool
  | [] => true
  | [c] => c = 'Z' || c = 'z'
  | sign :: rest =>
    (sign = '+' || sign = '-') && twoDigits 24 (rest.take 2) &&
      twoDigits 60 (if rest[2]? = some ':' then rest.drop 3 else rest.drop 2)

/-- Hours, minutes, perhaps seconds with a fraction, perhaps an offset. -/
def isTime (s : List Char) : Bool :=
  let rest := s.drop 5
  let seconds := (rest.drop 1).take 2
  let afterSeconds := rest.drop 3
  let fraction := (afterSeconds.drop 1).takeWhile Char.isDigit
  twoDigits 24 (s.take 2) && s[2]? = some ':' && twoDigits 60 ((s.drop 3).take 2) &&
    if rest.head? = some ':' then
      twoDigits 60 seconds &&
        if afterSeconds.head? = some '.' || afterSeconds.head? = some ',' then
          fraction ≠ [] && isOffset (afterSeconds.drop (fraction.length + 1))
        else isOffset afterSeconds
    else isOffset rest

def isSeparator (c : Char) : Bool :=
  c = 'T' || c = 't' || c = ' ' || c = '_'

/-- What is wrong with a text that is no number. -/
def calendarFlaw? (s : List Char) : Option Flaw :=
  match dateFlaw? s with
  | some reason => some (.unreadable reason)
  | none =>
    let rest := s.drop 10
    if !(rest = [] || (rest.head?.any isSeparator && isTime (rest.drop 1))) then
      some (.unreadable "unexpected extra characters at the end of the input")
    else if s.take 4 = ['0', '0', '0', '0'] then some (.impossible yearZero)
    else none

/-- What is wrong with a text as a moment. -/
def textFlaw? (text : String) : Option Flaw :=
  let s := text.toList
  match number? s with
  | none => calendarFlaw? s
  | some (n, hasPoint) => match outside? n with
    | none => if inYearZero n then some (.impossible yearZero) else none
    | some reason =>
      if hasPoint then (dateFlaw? s).map .unreadable else some (.unreadable reason)

example : textFlaw? "never" = some (.unreadable "input is too short") := by decide +kernel
example : textFlaw? "2024-01-02T03:04:05.123+00:00" = none := by decide +kernel
example : textFlaw? "1e9" = some (.unreadable "input is too short") := by decide +kernel

end WorkloadConfig.Moment
