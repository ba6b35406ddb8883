import WorkloadConfig.Value.Basic

namespace WorkloadConfig

/-- A scalar within a message, texts in quotes. -/
def Scalar.shown : Scalar → String
  | .null => "None"
  | .bool b => if b then "True" else "False"
  | .int n => toString n
  | .float x => x.text
  | .str text => Text.quoted text
  | .timestamp t => t.shown
  | .bytes data => Text.quotedBytes data
  | .unordered text => text

namespace Key

def shown : Key → String
  | .scalar s => s.shown
  | .tuple [only] => "(" ++ only.shown ++ ",)"
  | .tuple parts => "(" ++ ", ".intercalate (parts.map Scalar.shown) ++ ")"

/-- The text of a key on its own. -/
def text : Key → String
  | .str text => text
  | .scalar (.timestamp t) => t.text
  | key => key.shown

end Key

namespace Value

mutual

/-- A value within a message: lists and maps in brackets. -/
def shown : Value → String
  | .scalar s => s.shown
  | .list items => "[" ++ ", ".intercalate (shownItems items) ++ "]"
  | .map entries => "\x7b" ++ ", ".intercalate (shownEntries entries) ++ "\x7d"

def shownItems : List Value → List String
  | [] => []
  | v :: rest => shown v :: shownItems rest

def shownEntries : List (Key × Value) → List String
  | [] => []
  | (k, v) :: rest => (k.shown ++ ": " ++ shown v) :: shownEntries rest

end

/-- A value used as a name: a text as it is, a timestamp as its text, and anything else as it is
shown. -/
def asName : Value → String
  | .str text => text
  | .timestamp t => t.text
  | v => v.shown

/-- What several values say together: one alone its own name, more of them in a row. -/
def statement : List Value → String
  | [] => ""
  | [only] => only.asName
  | several => "(" ++ ", ".intercalate (several.map shown) ++ ")"

end Value
end WorkloadConfig
