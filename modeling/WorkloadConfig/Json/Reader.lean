import WorkloadConfig.Number.Decimal
import WorkloadConfig.Value.Basic

namespace WorkloadConfig.Json

def isBlank (c : Char) : Bool :=
  c = ' ' || c = '\t' || c = '\n' || c = '\r'

def skip (s : List Char) : List Char :=
  s.dropWhile isBlank

def hexValue? (c : Char) : Option Nat :=
  if '0' ≤ c && c ≤ '9' then some (c.toNat - 48)
  else if 'a' ≤ c && c ≤ 'f' then some (c.toNat - 87)
  else if 'A' ≤ c && c ≤ 'F' then some (c.toNat - 55)
  else none

def hexNumber? (digits : List Char) : Option Nat :=
  digits.foldlM (fun n c => (hexValue? c).map (n * 16 + ·)) 0

def shortEscape? (c : Char) : Option Char :=
  if c = '"' || c = '\\' || c = '/' then some c
  else if c = 'b' then some '\x08'
  else if c = 'f' then some '\x0c'
  else if c = 'n' then some '\n'
  else if c = 'r' then some '\r'
  else if c = 't' then some '\t'
  else none

def isHighUnit (unit : Nat) : Bool := 0xd800 ≤ unit && unit < 0xdc00

def isLowUnit (unit : Nat) : Bool := 0xdc00 ≤ unit && unit < 0xe000

def joinUnits (high low : Nat) : Char :=
  Char.ofNat (0x10000 + (high - 0xd800) * 0x400 + (low - 0xdc00))

/-- The rest of a string after its opening quote. A high unit waits for the low one that completes
it, and nothing else may follow it. -/
def stringTail? (high : Option Nat) : List Char → Option (List Char × List Char)
  | [] => none
  | '"' :: rest => if high.isSome then none else some ([], rest)
  | '\\' :: 'u' :: a :: b :: c :: d :: rest => do
    let unit ← hexNumber? [a, b, c, d]
    match high with
    | some first =>
      if isLowUnit unit then
        (stringTail? none rest).map fun (tail, r) => (joinUnits first unit :: tail, r)
      else none
    | none =>
      if isHighUnit unit then stringTail? (some unit) rest
      else if isLowUnit unit then none
      else (stringTail? none rest).map fun (tail, r) => (Char.ofNat unit :: tail, r)
  | '\\' :: c :: rest => do
    let escaped ← if high.isSome then none else shortEscape? c
    (stringTail? none rest).map fun (tail, r) => (escaped :: tail, r)
  | c :: rest =>
    if high.isSome || c.toNat < 0x20 then none
    else (stringTail? none rest).map fun (tail, r) => (c :: tail, r)

def isNumberChar (c : Char) : Bool :=
  c.isDigit || c = '-' || c = '+' || c = '.' || c = 'e' || c = 'E'

def number? (s : List Char) : Option Value :=
  let (negative, body) := match s with
    | '-' :: rest => (true, rest)
    | rest => (false, rest)
  let whole := body.takeWhile Char.isDigit
  let rest := body.dropWhile Char.isDigit
  if !Literal.isWhole whole then none
  else if rest = [] then
    let n : Int := Literal.ofDigits whole
    some (.int (if negative then -n else n))
  else if rest.head? = some '.' && !((rest.drop 1).head?.any Char.isDigit) then none
  else (Literal.read? s).map fun l => .float l.toBinary64

def word? (s : List Char) : Option Value :=
  if s = "null".toList then some .null
  else if s = "true".toList then some (.bool true)
  else if s = "false".toList then some (.bool false)
  else if s = "NaN".toList then some (.float .notANumber)
  else if s = "Infinity".toList then some (.float (.infinite false))
  else if s = "-Infinity".toList then some (.float (.infinite true))
  else none

def scalar? (s : List Char) : Option (Value × List Char) :=
  let word := s.takeWhile fun c => c.isAlpha || isNumberChar c
  ((word? word).or (number? word)).map fun v => (v, s.drop word.length)

mutual

def value? : Nat → List Char → Option (Value × List Char)
  | 0, _ => none
  | fuel + 1, s =>
    match skip s with
    | '"' :: rest => (stringTail? none rest).map fun (text, r) => (.str (String.ofList text), r)
    | '[' :: rest =>
      match skip rest with
      | ']' :: r => some (.list [], r)
      | r => (items? fuel r).map fun (items, r) => (.list items, r)
    | '\x7b' :: rest =>
      match skip rest with
      | '\x7d' :: r => some (.map [], r)
      | r => (members? fuel r).map fun (entries, r) => (.map entries, r)
    | rest => scalar? rest

def items? : Nat → List Char → Option (List Value × List Char)
  | 0, _ => none
  | fuel + 1, s => do
    let (v, rest) ← value? fuel s
    match skip rest with
    | ',' :: r => (items? fuel r).map fun (items, r) => (v :: items, r)
    | ']' :: r => some ([v], r)
    | _ => none

def members? : Nat → List Char → Option (List (Key × Value) × List Char)
  | 0, _ => none
  | fuel + 1, s => do
    let (key, rest) ← match skip s with
      | '"' :: r => stringTail? none r
      | _ => none
    let rest ← match skip rest with
      | ':' :: r => some r
      | _ => none
    let (v, rest) ← value? fuel rest
    let entry := (Key.str (String.ofList key), v)
    match skip rest with
    | ',' :: r => (members? fuel r).map fun (entries, r) => (entry :: entries, r)
    | '\x7d' :: r => some ([entry], r)
    | _ => none

end

mutual

/-- The value with the last of the entries under each key. -/
def settled : Value → Value
  | .scalar s => .scalar s
  | .list items => .list (settledItems items)
  | .map entries => .map (Table.ofList (settledEntries entries))

def settledItems : List Value → List Value
  | [] => []
  | v :: rest => settled v :: settledItems rest

def settledEntries : List (Key × Value) → List (Key × Value)
  | [] => []
  | (k, v) :: rest => (k, settled v) :: settledEntries rest

end

/-- The value that the whole text writes, with every entry of its maps. -/
def readEntries? (text : String) : Option Value :=
  match value? (text.length + 1) text.toList with
  | some (v, rest) => if skip rest = [] then some v else none
  | none => none

/-- The value that the whole text writes. -/
def read? (text : String) : Option Value :=
  (readEntries? text).map settled

/-- What a reader of documents in storage takes on: how deep they may be nested and how many digits
their integers may have, where it has such limits. -/
structure Limits where
  depth : Option Nat := some 200
  digits : Option Nat := some digitLimit

mutual

/-- No part lies deeper than the limits allow and no integer is too long for them, in a value that
lies at the given depth. -/
def isWithin (limits : Limits) (depth : Nat) : Value → Bool
  | .int n => limits.digits.all fun count => n.natAbs < decimalBound count
  | .scalar _ => true
  | .list items => isWithinItems limits (depth + 1) items
  | .map entries => isWithinEntries limits (depth + 1) entries

def isWithinItems (limits : Limits) (depth : Nat) : List Value → Bool
  | [] => true
  | v :: rest =>
    limits.depth.all (depth ≤ ·) && isWithin limits depth v && isWithinItems limits depth rest

def isWithinEntries (limits : Limits) (depth : Nat) : List (Key × Value) → Bool
  | [] => true
  | (_, v) :: rest =>
    limits.depth.all (depth ≤ ·) && isWithin limits depth v && isWithinEntries limits depth rest

end

/-- The value of a document in storage, with every entry of its maps. -/
def readStored? (limits : Limits) (text : String) : Option Value :=
  (readEntries? text).filter (isWithin limits 0)

example : read? " \x7b\"a\" : [1, -0, 1.0e0, \"\\ud83d\\ude00\"]\x7d\n" =
    some (.map [("a", .list [.int 1, .int 0, .float ⟨false, 1023, 0⟩, .str "😀"])]) := by
  decide +kernel

end WorkloadConfig.Json
