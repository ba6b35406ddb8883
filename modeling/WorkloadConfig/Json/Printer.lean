import WorkloadConfig.Failure
import WorkloadConfig.Value.Shown
import WorkloadConfig.Value.Sorted

namespace WorkloadConfig.Json

/-- Code units of sixteen bits: one for a character of the basic plane, else a pair. -/
def units (c : Char) : List Nat :=
  if c.toNat < 0x10000 then [c.toNat]
  else [0xd800 + (c.toNat - 0x10000) / 0x400, 0xdc00 + (c.toNat - 0x10000) % 0x400]

def escaped (c : Char) : List Char :=
  if c = '"' then ['\\', '"']
  else if c = '\\' then ['\\', '\\']
  else if c = '\x08' then ['\\', 'b']
  else if c = '\x0c' then ['\\', 'f']
  else if c = '\n' then ['\\', 'n']
  else if c = '\r' then ['\\', 'r']
  else if c = '\t' then ['\\', 't']
  else if 0x20 ≤ c.toNat && c.toNat < 0x7f then [c]
  else (units c).flatMap fun unit => '\\' :: 'u' :: Text.hex 4 unit

def string (text : String) : String :=
  String.ofList ('"' :: text.toList.flatMap escaped ++ ['"'])

def float (x : Binary64) : String :=
  if x.isNaN then "NaN"
  else if x.isFinite then x.text
  else if x.negative then "-Infinity" else "Infinity"

/-- A scalar; what JSON has no form for is written as its text. -/
def scalar : Scalar → String
  | .null => "null"
  | .bool b => if b then "true" else "false"
  | .int n => toString n
  | .float x => float x
  | .str text => string text
  | .timestamp t => string t.text
  | s => string s.shown

/-- A key is a text, into which other scalars are put as they are written. -/
def key : Key → String
  | .scalar (.null) => string "null"
  | .scalar (.bool b) => string (scalar (.bool b))
  | .scalar (.float x) => string (float x)
  | k => string k.text

/-- Whether the keys of maps are put in order and how the parts are set apart. -/
structure Style where
  sorted : Bool
  colon : String
  comma : String
  indent : Option Nat := none

namespace Style

/-- A fresh line at the depth, if the style has lines. -/
def line (style : Style) (depth : Nat) : String :=
  match style.indent with
  | some width => String.ofList ('\n' :: List.replicate (width * depth) ' ')
  | none => ""

/-- Parts between brackets; nothing stands between the brackets of an empty list or map. -/
def enclose (style : Style) (depth : Nat) (left right : String) (parts : List String) : String :=
  match parts with
  | [] => left ++ right
  | parts => left ++ style.line (depth + 1) ++
      (style.comma ++ style.line (depth + 1)).intercalate parts ++ style.line depth ++ right

def arrange {α : Type} (style : Style) (entries : List (Key × α)) : List (Key × α) :=
  if style.sorted then Sorting.sort (fun a b => a.1.le b.1) entries else entries

mutual

def write (style : Style) (depth : Nat) : Value → String
  | .scalar s => scalar s
  | .list items => style.enclose depth "[" "]" (style.writeItems (depth + 1) items)
  | .map entries => style.enclose depth "\x7b" "\x7d"
      ((style.arrange (style.writeEntries (depth + 1) entries)).map fun (key, value) =>
        Json.key key ++ style.colon ++ value)

def writeItems (style : Style) (depth : Nat) : List Value → List String
  | [] => []
  | v :: rest => style.write depth v :: style.writeItems depth rest

def writeEntries (style : Style) (depth : Nat) : List (Key × Value) → List (Key × String)
  | [] => []
  | (k, v) :: rest => (k, style.write depth v) :: style.writeEntries depth rest

end

end Style

/-- What keeps a scalar from being written. -/
def scalarHindrance? (s : Scalar) : Option Failure :=
  if s.isShort then none else some .tooLong

/-- What keeps a key from being written. -/
def keyHindrance? : Key → Option Failure
  | .scalar (.timestamp _) | .scalar (.bytes _) | .scalar (.unordered _) | .tuple _ => some .illTyped
  | .scalar s => scalarHindrance? s

namespace Style

mutual

/-- What the writing of a value stops at: keys that cannot be put in order, a key that has no text, or
an integer that is too long. -/
def hindrance? (style : Style) : Value → Option Failure
  | .scalar s => scalarHindrance? s
  | .list items => style.itemsHindrance? items
  | .map entries =>
    if style.sorted && !Value.sameKind (Table.keys entries) then some .illTyped
    else (style.arrange (style.entryHindrances entries)).findSome? fun (key, ofValue) =>
      (keyHindrance? key).or ofValue

def itemsHindrance? (style : Style) : List Value → Option Failure
  | [] => none
  | v :: rest => (style.hindrance? v).or (style.itemsHindrance? rest)

def entryHindrances (style : Style) : List (Key × Value) → List (Key × Option Failure)
  | [] => []
  | (k, v) :: rest => (k, style.hindrance? v) :: style.entryHindrances rest

end

/-- The text of a value, unless the writing stops. -/
def text? (style : Style) (v : Value) : Result String :=
  match style.hindrance? v with
  | none => .ok (style.write 0 v)
  | some failure => .error failure

/-- One line without blanks, keys in order. -/
def canonical : Style := ⟨true, ":", ",", none⟩

/-- One line in the order of the value's own keys. -/
def inline : Style := ⟨false, ": ", ", ", none⟩

/-- One line without blanks in the order of the value's own keys. -/
def compact : Style := ⟨false, ":", ",", none⟩

/-- Lines indented by two, keys in order. -/
def document : Style := ⟨true, ": ", ",", some 2⟩

end Style

def canonical (v : Value) : String :=
  Style.canonical.write 0 v

def inline (v : Value) : String :=
  Style.inline.write 0 v

def compact (v : Value) : String :=
  Style.compact.write 0 v

/-- The text of a document, a line break at the end. -/
def document (v : Value) : String :=
  Style.document.write 0 v ++ "\n"

example : canonical (.map [("b", .list [.null, .bool true]), ("a", .str "é\"")]) =
    "\x7b\"a\":\"\\u00e9\\\"\",\"b\":[null,true]\x7d" := by decide +kernel

end WorkloadConfig.Json
