import WorkloadConfig.Timestamp

namespace WorkloadConfig.Yaml.Time

/-- A number of as many digits as there are up to the bound. -/
def digits? (least most : Nat) (s : List Char) : Option (Nat × List Char) :=
  let found := (s.take most).takeWhile Char.isDigit
  if found.length < least then none
  else some (Literal.ofDigits found, s.drop found.length)

def mark? (c : Char) : List Char → Option (List Char)
  | d :: rest => if d = c then some rest else none
  | [] => none

def isGap (c : Char) : Bool := c = ' ' || c = '\t'

/-- Six digits of a fraction, rounded by the seventh, which may make a whole second of them. -/
def microseconds (digits : List Char) : Nat :=
  let six := Literal.ofDigits ((digits ++ List.replicate 6 '0').take 6)
  if digits[6]?.any (fun c => '4' < c) then six + 1 else six

def fraction (s : List Char) : Nat × List Char :=
  match s with
  | '.' :: rest => (microseconds (rest.takeWhile Char.isDigit), rest.dropWhile Char.isDigit)
  | s => (0, s)

/-- An offset up to the end of the text. -/
def offset? (s : List Char) : Option (Option Offset) :=
  match s, s.dropWhile isGap with
  | [], _ => some none
  | _, ['Z'] => some (some ⟨false, 0⟩)
  | _, sign :: rest => do
    let (hours, rest) ← if sign = '+' || sign = '-' then digits? 1 2 rest else none
    let minutes ← match rest with
      | [] => some 0
      | ':' :: rest => match digits? 2 2 rest with
        | some (minutes, []) => some minutes
        | _ => none
      | _ => none
    let total : Int := hours * 60 + minutes
    some (some ⟨true, if sign = '-' then -total else total⟩)
  | _, [] => none

def clock? (s : List Char) : Option Clock := do
  let rest ← match s with
    | c :: rest =>
      if c = 'T' || c = 't' then some rest
      else if isGap c then some (rest.dropWhile isGap) else none
    | [] => none
  let (hour, rest) ← digits? 1 2 rest
  let (minute, rest) ← digits? 2 2 (← mark? ':' rest)
  let (second, rest) ← digits? 2 2 (← mark? ':' rest)
  let (microsecond, rest) := fraction rest
  some ⟨hour, minute, second, microsecond, ← offset? rest⟩

/-- A timestamp whose month and day may have one digit. -/
def read? (s : List Char) : Option Timestamp := do
  let (year, rest) ← digits? 4 4 s
  let (month, rest) ← digits? 1 2 (← mark? '-' rest)
  let (day, rest) ← digits? 1 2 (← mark? '-' rest)
  if rest = [] then some ⟨year, month, day, none⟩
  else some ⟨year, month, day, some (← clock? rest)⟩

/-- A plain text that stands for a timestamp: a date alone has two digits for its month and day. -/
def isPlain (s : List Char) : Bool :=
  match read? s with
  | some t => t.clock.isSome || s.length = 10
  | none => false

example : read? "2024-1-2 3:04:05.5".toList = some ⟨2024, 1, 2, some ⟨3, 4, 5, 500000, none⟩⟩ := by
  decide +kernel
example : isPlain "2024-1-2".toList = false := by decide +kernel

end WorkloadConfig.Yaml.Time
