import WorkloadConfig.Failure
import WorkloadConfig.Json.Reader
import WorkloadConfig.Moment
import WorkloadConfig.Text.Blank
import WorkloadConfig.Text.Lines
import WorkloadConfig.Value.Shown

namespace WorkloadConfig.Schema

/-- Whether a document was handed over as a value or read from stored text. -/
inductive Origin where
  | given
  | stored
deriving DecidableEq, Repr

def Origin.isStored : Origin → Bool
  | .given => false
  | .stored => true

/-- A reader of values of the type. -/
abbrev Reader (α : Type) := Value → Checked α

/-- Any value. Of the entries of stored text the last under each key counts. -/
def anything (origin : Origin) : Reader Value := fun v =>
  .valid (if origin.isStored then Json.settled v else v)

/-- Bytes stand for the text that they encode. -/
def decoded (v : Value) : Value :=
  match v with
  | .bytes data => match Text.ofBytes? data with
    | some text => .str text
    | none => v
  | v => v

def text (v : Value) : Checked String :=
  match decoded v with
  | .str text => .valid text
  | .bytes _ => .fault .notUnicode
  | _ => .fault .notText

def optional {α : Type} (read : Reader α) : Reader (Option α)
  | .null => .valid none
  | v => some <$> read v

def truthWords : List String := ["1", "t", "y", "on", "yes", "true"]

def falsehoodWords : List String := ["0", "f", "n", "off", "no", "false"]

/-- The integer fits a signed word of sixty-four bits. -/
def isWord (n : Int) : Bool :=
  -0x8000000000000000 ≤ n && n < 0x8000000000000000

def truthOfInt (n : Int) : Checked Bool :=
  if n = 0 then .valid false else if n = 1 then .valid true else .fault .unreadableBoolean

/-- Truth values, zero and one, and words for truth and falsehood in either case. -/
def boolean (v : Value) : Checked Bool :=
  match decoded v with
  | .bool b => .valid b
  | .int n => if isWord n then truthOfInt n else .fault .notBoolean
  | .float x => match x.toInt? with
    | some n => if n.natAbs < 0x8000000000000000 then truthOfInt n else .fault .notBoolean
    | none => .fault .notBoolean
  | .str text =>
    if truthWords.contains text.toLower then .valid true
    else if falsehoodWords.contains text.toLower then .valid false
    else .fault .unreadableBoolean
  | _ => .fault .notBoolean

/-- The text as a decimal integer without needless zeros, or nothing if it is none. -/
def wholeText? (s : List Char) : Option (Checked Int) :=
  let (negative, rest) := match s with
    | '-' :: rest => (true, rest)
    | rest => (false, rest)
  let digits := rest.takeWhile Char.isDigit
  if !Literal.isWhole digits then none
  else if 4300 < digits.length then some (.fault .tooManyDigits)
  else if digits.length < rest.length then none
  else
    let n : Int := Literal.ofDigits digits
    some (.valid (if negative then -n else n))

/-- What follows zeros and underscores in front of a number, at least one character of it. -/
def afterZeros? (last : Char) : List Char → Option (List Char)
  | [] => some [last]
  | c :: rest =>
    if c = '0' || c = '_' then afterZeros? c rest
    else if c.isDigit then some (c :: rest)
    else if c = '.' then some (last :: c :: rest)
    else none

def dropLeadingZeros? (s : List Char) : Option (List Char) :=
  match s with
  | '0' :: rest => afterZeros? '0' rest
  | c :: _ => if c.isDigit || c = '-' then some s else none
  | [] => none

/-- The text without a fraction of zeros. -/
def dropZeroFraction (s : List Char) : List Char :=
  let whole := s.takeWhile (· ≠ '.')
  let fraction := (s.dropWhile (· ≠ '.')).drop 1
  if fraction ≠ [] && fraction.all (· = '0') then whole else s

/-- The text without single underscores between its other characters. -/
def dropUnderscores (s : List Char) : List Char :=
  if (s.splitOn '_').all (· ≠ []) then s.filter (· ≠ '_') else s

/-- The integer behind blanks, a plus sign, zeros in front, a fraction of zeros and underscores, or
nothing if there are none of these. -/
def plainWhole? (s : List Char) : Option (List Char) := do
  let trimmed := Text.trim Text.isBlank s
  let unsigned := match trimmed with
    | '+' :: rest => if rest.head? = some '-' then trimmed else rest
    | _ => trimmed
  let plain := dropUnderscores (dropZeroFraction (← dropLeadingZeros? unsigned))
  if plain.length = s.length then none else some plain

/-- A decimal integer as it stands or within what may surround it. -/
def integerOfText (text : String) : Checked Int :=
  let s := text.toList
  ((wholeText? s).or ((plainWhole? s).bind wholeText?)).getD (.fault .unreadableInteger)

def integer (v : Value) : Checked Int :=
  match decoded v with
  | .bool b => .valid b.toNat
  | .int n => .valid n
  | .float x =>
    if !x.isFinite then .fault .notFinite else
      match x.toInt? with
      | some n => if n.natAbs < 0x8000000000000000 then .valid n else .fault .tooManyDigits
      | none => .fault .fractional
  | .str text => integerOfText text
  | _ => .fault .notInteger

def namedNumber? (s : List Char) : Option Binary64 :=
  let (negative, body) := Literal.takeSign s
  let word := (String.ofList body).toLower
  if word = "inf" || word = "infinity" then some (.infinite negative)
  else if word = "nan" then some .notANumber
  else none

/-- A decimal number between blanks, or a word for infinity or for no number. -/
def numberOfText? (text : String) : Option Binary64 :=
  let plain := dropUnderscores (Text.trim Text.isBlank text.toList)
  ((Literal.read? plain).map Literal.toBinary64).or (namedNumber? plain)

def number (v : Value) : Checked Binary64 :=
  match decoded v with
  | .bool b => .valid (.ofInt b.toNat)
  | .int n => if (Binary64.ofInt n).isFinite then .valid (.ofInt n) else .fault .notNumber
  | .float x => .valid x
  | .str text => match numberOfText? text with
    | some x => .valid x
    | none => .fault .unreadableNumber
  | _ => .fault .notNumber

def flawless : Option Moment.Flaw → Checked Unit
  | none => .valid ()
  | some (.impossible reason) => .fault (.impossibleMoment reason)
  | some (.unreadable reason) => .fault (.unreadableMoment reason)

/-- An integer that is taken for a count: a stored one has to fit a word, a given one a float. -/
def isCount (n : Int) : Origin → Bool
  | .stored => isWord n
  | .given => (Binary64.ofInt n).isFinite

/-- Moments are checked and not kept. -/
def moment (origin : Origin) (v : Value) : Checked Unit :=
  match decoded v with
  | .int n => if isCount n origin then flawless (Moment.secondsFlaw? n) else .fault .notMoment
  | .float x => flawless (Moment.floatFlaw? x)
  | .timestamp _ => .valid ()
  | .str text => flawless (Moment.textFlaw? text)
  | _ => .fault .notMoment

def list {α : Type} (origin : Origin) (read : Reader α) : Reader (List α)
  | .list items =>
    .all (items.zipIdx.map fun (item, index) => (read item).under (.index index))
  | _ => .fault (.notList origin.isStored)

def optionalTexts : Reader (Option (List String)) :=
  optional (list .given text)

/-- The step that a key is in the place of a fault. -/
def stepOf : Key → Step
  | .bool b => .number b.toNat
  | .int n => if isWord n then .number n else .key (toString n)
  | .str text => .key text
  | key => .key key.shown

def entry {α : Type} (read : Reader α) (key : Key) (v : Value) : Checked (String × α) :=
  match key with
  | .str text => Prod.mk text <$> (read v).under (.key text)
  | key =>
    .faulty (⟨[stepOf key, .key "[key]"], .notText⟩ :: ((read v).under (stepOf key)).faults)

/-- Maps from texts. The fault of a key comes before that of its value. -/
def table {α : Type} (origin : Origin) (read : Reader α) : Reader (Table String α)
  | .map entries => Table.ofList <$> .all (entries.map fun (key, v) => entry read key v)
  | _ => .fault (.notMap origin.isStored)

/-- The last of the values under a name. -/
def member? {α : Type} (entries : List (Key × α)) (name : String) : Option α :=
  Table.find? entries.reverse (.str name)

/-- A field that must be there. -/
def field {α : Type} (entries : List (Key × Value)) (name : String) (read : Reader α) : Checked α :=
  match member? entries name with
  | some v => (read v).under (.key name)
  | none => .faulty [⟨[.key name], .missing⟩]

/-- A field that has the default where it is left out. -/
def fieldOr {α : Type} (entries : List (Key × Value)) (name : String) (default : α)
    (read : Reader α) : Checked α :=
  match member? entries name with
  | some v => (read v).under (.key name)
  | none => .valid default

def object {α : Type} (title : String) (origin : Origin)
    (fields : List (Key × Value) → Checked α) : Reader α
  | .map entries => fields entries
  | _ => .fault (.notModel title origin.isStored)

/-- Faults of the keys that a model does not know, in their order. -/
def strangers (known : List String) (entries : List (Key × Value)) : List Fault :=
  entries.filterMap fun (key, _) => match key with
    | .str text => if known.contains text then none else some ⟨[.key text], .unexpected⟩
    | key => some ⟨[stepOf key], .keyNotText⟩

end WorkloadConfig.Schema
