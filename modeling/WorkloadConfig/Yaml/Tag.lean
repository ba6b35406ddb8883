import WorkloadConfig.Yaml.Scan
import WorkloadConfig.Yaml.Time

namespace WorkloadConfig.Yaml

inductive Tag where
  | null
  | bool
  | int
  | float
  | timestamp
  | binary
  | str
  | merge
  | value
  | list
  | map
  | orderedMap
  | pairs
  | set
  | unknown
deriving DecidableEq, Repr

namespace Tag

def ofUri (uri : String) : Tag :=
  match uri with
  | "tag:yaml.org,2002:null" => .null
  | "tag:yaml.org,2002:bool" => .bool
  | "tag:yaml.org,2002:int" => .int
  | "tag:yaml.org,2002:float" => .float
  | "tag:yaml.org,2002:timestamp" => .timestamp
  | "tag:yaml.org,2002:binary" => .binary
  | "tag:yaml.org,2002:str" => .str
  | "tag:yaml.org,2002:merge" => .merge
  | "tag:yaml.org,2002:value" => .value
  | "tag:yaml.org,2002:seq" => .list
  | "tag:yaml.org,2002:map" => .map
  | "tag:yaml.org,2002:omap" => .orderedMap
  | "tag:yaml.org,2002:pairs" => .pairs
  | "tag:yaml.org,2002:set" => .set
  | _ => .unknown

def isCollection (t : Tag) : Bool :=
  t = .list || t = .map || t = .orderedMap || t = .pairs || t = .set

end Tag

namespace Form

def words (list : List String) (s : List Char) : Bool :=
  list.any (s = ·.toList)

def isNull (s : List Char) : Bool :=
  words ["", "~", "null", "Null", "NULL"] s

/-- Words for truth and falsehood, of which the older version has more. -/
def isBool (version : Version) (s : List Char) : Bool :=
  words ["true", "True", "TRUE", "false", "False", "FALSE"] s ||
    (version = .oneOne && words ["y", "Y", "yes", "Yes", "YES", "n", "N", "no", "No", "NO", "on",
      "On", "ON", "off", "Off", "OFF"] s)

def isHexDigit (c : Char) : Bool :=
  c.isDigit || ('a' ≤ c && c ≤ 'f') || ('A' ≤ c && c ≤ 'F')

/-- At least one character, each of the class or an underscore. -/
def digits (isDigit : Char → Bool) (s : List Char) : Bool :=
  s ≠ [] && s.all fun c => isDigit c || c = '_'

def isOctal (c : Char) : Bool := '0' ≤ c && c ≤ '7'

def isBinary (c : Char) : Bool := c = '0' || c = '1'

/-- Digits with underscores among them that begin with a digit. -/
def grouped (s : List Char) : Bool :=
  s.head?.any Char.isDigit && digits Char.isDigit s

/-- A part of a count to the base of sixty. -/
def isSixtieth (s : List Char) : Bool :=
  Literal.isDigits s && s.length ≤ 2 && (s.length = 1 || s.head?.any fun c => '0' ≤ c && c ≤ '5')

/-- An unsigned integer. -/
def isWhole (version : Version) : List Char → Bool
  | '0' :: 'b' :: rest => digits isBinary rest
  | '0' :: 'x' :: rest => digits isHexDigit rest
  | '0' :: 'o' :: rest => version = .oneTwo && digits isOctal rest
  | s => match version with
    | .oneTwo => digits Char.isDigit s
    | .oneOne =>
      let parts := s.splitOn ':'
      let first := parts.headD []
      digits isOctal s ||
        (grouped first && first.head? ≠ some '0' && (parts.drop 1).all isSixtieth)

def isInt (version : Version) (s : List Char) : Bool :=
  s.head? ≠ some '_' && isWhole version (Literal.takeSign s).2

/-- An exponent, whose sign may be required. -/
def isExponent (signed : Bool) (s : List Char) : Bool :=
  match s with
  | c :: rest =>
    let sign := rest.head?.any fun d => d = '+' || d = '-'
    let power := if sign then rest.drop 1 else rest
    (c = 'e' || c = 'E') && (sign || !signed) && Literal.isDigits power
  | [] => false

def isGrouped (c : Char) : Bool := c.isDigit || c = '_'

/-- A count to the base of sixty with a fraction. -/
def isSixtiethsFraction (s : List Char) : Bool :=
  let whole := s.takeWhile (· ≠ '.')
  let parts := whole.splitOn ':'
  let fraction := s.drop whole.length
  1 < parts.length && grouped (parts.headD []) && (parts.drop 1).all isSixtieth &&
    fraction ≠ [] && (fraction.drop 1).all isGrouped

/-- A number with a point, an exponent or both. One that begins with its point writes the sign of
its exponent. -/
def isDecimal (body : List Char) : Bool :=
  let whole := body.takeWhile isGrouped
  match body.drop whole.length with
  | '.' :: rest =>
    let fraction := rest.takeWhile isGrouped
    let exponent := rest.drop fraction.length
    if whole = [] then fraction ≠ [] && (exponent = [] || isExponent true exponent)
    else grouped whole && (exponent = [] || isExponent false exponent)
  | exponent => grouped whole && isExponent false exponent

def isFloat (version : Version) (s : List Char) : Bool :=
  let body := (Literal.takeSign s).2
  words [".inf", ".Inf", ".INF"] body || words [".nan", ".NaN", ".NAN"] s ||
    (isDecimal body && (version = .oneTwo || body.head? ≠ some '.' || s = body)) ||
    (version = .oneOne && isSixtiethsFraction body)

end Form

/-- What a plain scalar without a tag stands for. -/
def Tag.ofPlain (version : Version) (text : String) : Tag :=
  let s := text.toList
  if Form.isNull s then .null
  else if Form.isBool version s then .bool
  else if Form.isFloat version s then .float
  else if Form.isInt version s then .int
  else if text = "<<" then .merge
  else if text = "=" then .value
  else if Time.isPlain s then .timestamp
  else .str

example : Tag.ofPlain .oneTwo "0o17" = .int ∧ Tag.ofPlain .oneOne "0o17" = .str := by
  decide +kernel
example : Tag.ofPlain .oneTwo "1:30" = .str ∧ Tag.ofPlain .oneOne "1:30" = .int := by
  decide +kernel

end WorkloadConfig.Yaml
