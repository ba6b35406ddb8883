import WorkloadConfig.Number.Binary64

namespace WorkloadConfig

/-- Digits of a positive number without trailing zeros, and the power of ten of the first one. -/
structure Digits where
  digits : List Char
  power : Int
deriving DecidableEq, Repr

namespace Digits

def dropZeros (digits : List Char) : List Char :=
  (digits.reverse.dropWhile (· = '0')).reverse

/-- The grid of numbers with `places` digits at the magnitude of the quotient: the point below it
and the power of ten of the grid's step. -/
def below (num den places : Nat) : Nat × Int :=
  let step : Int := Binary64.floorLog 10 num den + 1 - places
  (num * Nat.pow 10 (-step).toNat / (den * Nat.pow 10 step.toNat), step)

def ofPoint (point : Nat) (step : Int) : Digits :=
  let digits := Nat.toDigits 10 point
  ⟨dropZeros digits, step + digits.length - 1⟩

/-- The given count of digits nearest to the quotient, from a tie the even one. -/
def rounded (num den places : Nat) : Digits :=
  let step : Int := Binary64.floorLog 10 num den + 1 - places
  ofPoint
    (Binary64.roundHalfEven (num * Nat.pow 10 (-step).toNat) (den * Nat.pow 10 step.toNat)) step

/-- Of the two grid points around the number those that read back as it, and the nearer of two. -/
def onGrid? (x : Binary64) (places : Nat) : Option Digits :=
  let (num, den) := x.ratio
  let (low, step) := below num den places
  let reads (point : Nat) : Bool := Binary64.ofDecimal x.negative point step = x
  let nearest := rounded num den places
  if reads low && reads (low + 1) then some nearest
  else if reads low then some (ofPoint low step)
  else if reads (low + 1) then some (ofPoint (low + 1) step)
  else none

/-- Seventeen digits always read back; the first grid that holds a reading is the coarsest. -/
def shortest (x : Binary64) : Digits :=
  ((List.range 17).findSome? fun n => onGrid? x (n + 1)).getD
    (rounded x.ratio.1 x.ratio.2 17)

end Digits

/-- Where positional writing ends, and whether a whole number keeps a point and a zero. -/
structure Layout where
  lowest : Int := -4
  limit : Int
  pointZero : Bool

namespace Layout

def pad (width : Nat) (digits : List Char) : List Char :=
  List.replicate (width - digits.length) '0' ++ digits

def exponent (power : Int) : List Char :=
  (if power < 0 then '-' else '+') :: pad 2 (Nat.toDigits 10 power.natAbs)

/-- Digits in scientific form below the lowest and from the limit on, else in positional form. -/
def write (layout : Layout) (d : Digits) : List Char :=
  if d.power < layout.lowest || layout.limit ≤ d.power then
    let tail := d.digits.drop 1
    d.digits.take 1 ++ (if tail = [] then [] else '.' :: tail) ++ 'e' :: exponent d.power
  else if d.power < 0 then
    '0' :: '.' :: List.replicate (-d.power - 1).toNat '0' ++ d.digits
  else
    let whole := (d.power + 1).toNat
    let head := d.digits.take whole
    let tail := d.digits.drop whole
    head ++ List.replicate (whole - head.length) '0' ++
      (if tail = [] then (if layout.pointZero then ['.', '0'] else []) else '.' :: tail)

def number (layout : Layout) (digits : Binary64 → Digits) (x : Binary64) : List Char :=
  let sign := if x.negative then ['-'] else []
  if x.isZero then sign ++ (if layout.pointZero then ['0', '.', '0'] else ['0'])
  else sign ++ layout.write (digits x)

end Layout

namespace Binary64

/-- The shortest text that reads back: positional from one ten-thousandth to below ten to the
sixteenth, always with a point or an exponent. -/
def text (x : Binary64) : String :=
  if x.isNaN then "nan"
  else if x.isFinite then
    String.ofList (Layout.number ⟨-4, 16, true⟩ Digits.shortest x)
  else if x.negative then "-inf" else "inf"

/-- Six digits at most, positional below a million: the text of a duration in messages. -/
def brief (x : Binary64) : String :=
  if x.isFinite then
    String.ofList (Layout.number ⟨-4, 6, false⟩ (fun y => Digits.rounded y.ratio.1 y.ratio.2 6) x)
  else x.text

end Binary64

/-- A decimal number as written: its digits as one number, and the power of ten of the last. -/
structure Literal where
  negative : Bool
  digits : Nat
  power : Int
deriving DecidableEq, Repr

namespace Literal

def digitValue (c : Char) : Nat := c.toNat - 48

def ofDigits (digits : List Char) : Nat :=
  digits.foldl (fun n c => n * 10 + digitValue c) 0

def isDigits (s : List Char) : Bool :=
  s ≠ [] && s.all Char.isDigit

/-- Digits without a needless zero in front. -/
def isWhole (digits : List Char) : Bool :=
  isDigits digits && (digits.head? ≠ some '0' || digits.length = 1)

def takeSign : List Char → Bool × List Char
  | '-' :: rest => (true, rest)
  | '+' :: rest => (false, rest)
  | rest => (false, rest)

def exponent? : List Char → Option Int
  | [] => some 0
  | c :: rest =>
    if c = 'e' || c = 'E' then
      let (negative, digits) := takeSign rest
      if isDigits digits then some (if negative then -(ofDigits digits : Int) else ofDigits digits)
      else none
    else none

/-- An optional sign, digits with at most one point among or around them, and an exponent. -/
def read? (s : List Char) : Option Literal :=
  let (negative, rest) := takeSign s
  let whole := rest.takeWhile Char.isDigit
  let afterWhole := rest.dropWhile Char.isDigit
  let (part, tail) := match afterWhole with
    | '.' :: r => (r.takeWhile Char.isDigit, r.dropWhile Char.isDigit)
    | r => ([], r)
  if whole = [] && part = [] then none
  else (exponent? tail).map fun e => ⟨negative, ofDigits (whole ++ part), e - part.length⟩

def toBinary64 (l : Literal) : Binary64 :=
  Binary64.ofDecimal l.negative l.digits l.power

end Literal

section
open Binary64

example : (ofDecimal false 1 16).text = "1e+16" := by decide +kernel
example : (ofDecimal false 1 15).text = "1000000000000000.0" := by decide +kernel
example : (ofDecimal true 1 (-5)).text = "-1e-05" := by decide +kernel
example : (ofDecimal false 30000000000000004 (-17)).text = "0.30000000000000004" := by
  decide +kernel
example : (ofDecimal false 9999994 (-1)).brief = "999999" := by decide +kernel
example : (ofDecimal false 1234567 0).brief = "1.23457e+06" := by decide +kernel

end

end WorkloadConfig
