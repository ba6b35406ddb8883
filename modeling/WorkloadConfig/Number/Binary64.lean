namespace WorkloadConfig

/-- Binary floating-point numbers of 64 bits, held as their three fields and computed exactly. A finite
number is its significand times two to the power of its scale. -/
structure Binary64 where
  negative : Bool
  exponent : Fin 2048
  fraction : Fin 0x10000000000000
deriving DecidableEq, Repr, Inhabited

namespace Binary64

def infinite (negative : Bool) : Binary64 := ⟨negative, 2047, 0⟩

def notANumber : Binary64 := ⟨false, 2047, 0x8000000000000⟩

def zero (negative : Bool) : Binary64 := ⟨negative, 0, 0⟩

def isFinite (x : Binary64) : Bool := x.exponent.val < 2047

def isNaN (x : Binary64) : Bool := x.exponent.val = 2047 && x.fraction.val ≠ 0

def significand (x : Binary64) : Nat :=
  if x.exponent.val = 0 then x.fraction.val else 0x10000000000000 + x.fraction.val

def scale (x : Binary64) : Int :=
  (max x.exponent.val 1 : Nat) - 1075

/-- The magnitude of a finite number as a numerator and a denominator. -/
def ratio (x : Binary64) : Nat × Nat :=
  (x.significand * Nat.pow 2 x.scale.toNat, Nat.pow 2 (-x.scale).toNat)

/-- The largest power of the base that is at most the quotient of two positive numbers. -/
def floorLog (base num den : Nat) : Int :=
  let guess : Int := (Nat.toDigits base num).length - (Nat.toDigits base den).length
  if den * Nat.pow base guess.toNat ≤ num * Nat.pow base (-guess).toNat then guess else guess - 1

def roundHalfEven (num den : Nat) : Nat :=
  let q := num / den
  let twice := 2 * (num % den)
  if twice < den then q else if den < twice then q + 1 else q + q % 2

/-- Numbers of one sign in the order of their magnitude: the significand's top bit carries into the
exponent. -/
def ofCode (negative : Bool) (code : Nat) : Binary64 :=
  if h : code / 0x10000000000000 < 2047 then
    ⟨negative, ⟨code / 0x10000000000000, by omega⟩,
      ⟨code % 0x10000000000000, Nat.mod_lt _ (by decide)⟩⟩
  else
    infinite negative

/-- The number nearest to the quotient. -/
def ofRatio (negative : Bool) (num den : Nat) : Binary64 :=
  if num = 0 then zero negative else
    let q := max (floorLog 2 num den - 52) (-1074)
    ofCode negative
      ((q + 1074).toNat * 0x10000000000000 +
        roundHalfEven (num * Nat.pow 2 (-q).toNat) (den * Nat.pow 2 q.toNat))

def ofInt (n : Int) : Binary64 :=
  ofRatio (n < 0) n.natAbs 1

/-- The number nearest to the digits times a power of ten. Quotients far outside the range are
settled without computing the power. -/
def ofDecimal (negative : Bool) (digits : Nat) (power : Int) : Binary64 :=
  let size := (Nat.toDigits 10 digits).length + power
  if digits = 0 || size < -400 then zero negative
  else if 400 < size then infinite negative
  else ofRatio negative (digits * Nat.pow 10 power.toNat) (Nat.pow 10 (-power).toNat)

/-- The integer that the number is, if it is one. -/
def toInt? (x : Binary64) : Option Int :=
  let (num, den) := x.ratio
  if x.isFinite && num % den = 0 then
    some (if x.negative then -(num / den : Nat) else (num / den : Nat))
  else none

/-- The greatest integer that is not above a finite number. -/
def floor (x : Binary64) : Int :=
  let (num, den) := x.ratio
  Int.fdiv (if x.negative then -(num : Int) else num) den

def isPositive (x : Binary64) : Bool :=
  !x.negative && !x.isNaN && (x.exponent.val ≠ 0 || x.fraction.val ≠ 0)

def isZero (x : Binary64) : Bool :=
  x.exponent.val = 0 && x.fraction.val = 0

/-- Equality as numbers: both zeros are equal and a number that is none differs from itself. -/
def same (x y : Binary64) : Bool :=
  !x.isNaN && (x = y || (x.isZero && y.isZero))

example : ofDecimal false 1 0 = ⟨false, 1023, 0⟩ := by decide +kernel
example : ofDecimal false 5 (-324) = ⟨false, 0, 1⟩ := by decide +kernel
example : ofDecimal true 18 308 = infinite true := by decide +kernel
example : (ofDecimal false 25 (-1)).toInt? = none := by decide +kernel

end Binary64
end WorkloadConfig
