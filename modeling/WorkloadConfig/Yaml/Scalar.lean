import WorkloadConfig.Text.Base64
import WorkloadConfig.Text.Blank
import WorkloadConfig.Value.Shown
import WorkloadConfig.Yaml.Tag

namespace WorkloadConfig.Yaml

def isDigitOf (base : Nat) (c : Char) : Bool :=
  if c.isDigit then c.toNat - 48 < base
  else if 'a' ≤ c && c ≤ 'f' || 'A' ≤ c && c ≤ 'F' then base = 16
  else false

def digitOf (c : Char) : Nat :=
  if c.isDigit then c.toNat - 48 else c.toLower.toNat - 87

def longestWhole : Nat := 4300

def tooLong (digits : Nat) : String :=
  "Exceeds the limit (4300 digits) for integer string conversion: value has " ++ toString digits ++
    " digits; use sys.set_int_max_str_digits() to increase the limit"

/-- Digits of a base between blanks and behind a sign. The length of decimal ones has a limit. -/
def whole (base : Nat) (s : List Char) : Except Flaw Int :=
  let (negative, digits) := Literal.takeSign (Text.trim Text.isSpacing s)
  if digits = [] || !digits.all (isDigitOf base) then
    .error (.badValue ("invalid literal for int() with base " ++ toString base ++ ": " ++
      Text.quoted (String.ofList s)))
  else if base = 10 && longestWhole < digits.length then
    .error (.badValue (tooLong digits.length))
  else
    let n : Int := digits.foldl (fun n c => n * base + digitOf c) 0
    .ok (if negative then -n else n)

/-- An integer without its sign; a zero and a letter in front name another base than ten. -/
def unsigned (version : Version) : List Char → Except Flaw Int
  | ['0'] => .ok 0
  | '0' :: 'b' :: rest => whole 2 rest
  | '0' :: 'x' :: rest => whole 16 rest
  | '0' :: 'o' :: rest => whole 8 rest
  | s =>
    match version, s with
    | .oneTwo, s => whole 10 s
    | .oneOne, [] => .error (.failing .emptyNumber)
    | .oneOne, '0' :: _ => whole 8 s
    | .oneOne, s => (s.splitOn ':').foldlM (fun n part => return n * 60 + (← whole 10 part)) 0

def withoutUnderscores (text : String) : List Char :=
  text.toList.filter (· ≠ '_')

def integer (version : Version) (text : String) : Except Flaw Int :=
  match withoutUnderscores text with
  | [] => .error (.failing .emptyNumber)
  | s => do
    let (negative, body) := Literal.takeSign s
    let n ← unsigned version body
    return if negative then -n else n

def numberWord? (s : List Char) : Option Binary64 :=
  let (negative, body) := Literal.takeSign s
  if Form.words ["inf", "infinity"] body then some (.infinite negative)
  else if Form.words ["nan"] body then some .notANumber
  else none

/-- A decimal number, or a word for one that has no digits. -/
def decimal (s : List Char) : Except Flaw Binary64 :=
  let trimmed := Text.trim Text.isSpacing s
  match ((Literal.read? trimmed).map Literal.toBinary64).or (numberWord? trimmed) with
  | some x => .ok x
  | none => .error (.badValue ("could not convert string to float: " ++
      Text.quoted (String.ofList s)))

def negate (x : Binary64) : Binary64 :=
  if x.isNaN then x else { x with negative := !x.negative }

/-- A count to the base of sixty, as a numerator over the denominator of its last part. -/
def sixtieths (parts : List (List Char)) : Except Flaw Binary64 := do
  let numbers ← parts.mapM decimal
  let fraction := numbers.foldl (fun (num, den) x =>
    let (n, d) := x.ratio
    (num * 60 * d + n * den, den * d)) (0, 1)
  return Binary64.ofRatio false fraction.1 fraction.2

def float (version : Version) (text : String) : Except Flaw Binary64 :=
  match (withoutUnderscores text).map Char.toLower with
  | [] => .error (.failing .emptyNumber)
  | s => do
    let (negative, body) := Literal.takeSign s
    let x ←
      if Form.words [".inf"] body then pure (Binary64.infinite false)
      else if Form.words [".nan"] body then pure Binary64.notANumber
      else if version = .oneOne && body.contains ':' then sixtieths (body.splitOn ':')
      else decimal body
    return if negative then negate x else x

def truth (text : String) : Except Flaw Bool :=
  let word := text.toLower
  if ["true", "yes", "y", "on"].contains word then .ok true
  else if ["false", "no", "n", "off"].contains word then .ok false
  else .error (.failing .unknownWord)

def timestamp (text : String) : Except Flaw Timestamp :=
  match Time.read? text.toList with
  | none => .error .malformed
  | some t => match t.rangeFlaw? with
    | some message => .error (.badValue message)
    | none => .ok t.carried

def binary (text : String) : Except Flaw (List UInt8) :=
  match if text.toList.all (·.toNat < 0x80) then Text.Base64.decode? text.toList else none with
  | some data => .ok data
  | none => .error .malformed

/-- The value of a scalar with the tag. -/
def scalar (version : Version) (tag : Tag) (text : String) : Except Flaw Scalar :=
  match tag with
  | .null => .ok .null
  | .bool => .bool <$> truth text
  | .int => .int <$> integer version text
  | .float => .float <$> float version text
  | .timestamp => .timestamp <$> timestamp text
  | .binary => .bytes <$> binary text
  | .str => .ok (.str text)
  | .merge | .value | .list | .map | .orderedMap | .pairs | .set | .unknown => .error .malformed

end WorkloadConfig.Yaml
