namespace WorkloadConfig

/-- One step from a document to a part of it. -/
inductive Step where
  | key (text : String)
  | number (n : Int)
  | index (n : Nat)
deriving DecidableEq, Repr

inductive Problem where
  | missing
  | unexpected
  | keyNotText
  | notText
  | notUnicode
  | notInteger
  | notBoolean
  | notNumber
  | notList (stored : Bool)
  | notMap (stored : Bool)
  | notModel (title : String) (stored : Bool)
  | pattern (pattern : String)
  | tooLong (limit : Nat)
  | tooShort (limit : Nat)
  | tooFew (limit : Nat)
  | unreadableBoolean
  | unreadableInteger
  | unreadableNumber
  | fractional
  | notFinite
  | tooManyDigits
  | notAbove (bound : Nat)
  | below (bound : Nat)
  | noneOf (choices : List String)
  | notMoment
  | unreadableMoment (reason : String)
  | impossibleMoment (reason : String)
  | notDocument
  | rule (text : String)
deriving DecidableEq, Repr

namespace Problem

def code : Problem → String
  | missing => "missing"
  | unexpected => "extra_forbidden"
  | keyNotText => "invalid_key"
  | notText => "string_type"
  | notUnicode => "string_unicode"
  | notInteger => "int_type"
  | notBoolean => "bool_type"
  | notNumber => "float_type"
  | notList _ => "list_type"
  | notMap _ => "dict_type"
  | notModel _ _ => "model_type"
  | pattern _ => "string_pattern_mismatch"
  | tooLong _ => "string_too_long"
  | tooShort _ => "string_too_short"
  | tooFew _ => "too_short"
  | unreadableBoolean => "bool_parsing"
  | unreadableInteger => "int_parsing"
  | unreadableNumber => "float_parsing"
  | fractional => "int_from_float"
  | notFinite => "finite_number"
  | tooManyDigits => "int_parsing_size"
  | notAbove _ => "greater_than"
  | below _ => "greater_than_equal"
  | noneOf _ => "enum"
  | notMoment => "datetime_type"
  | unreadableMoment _ => "datetime_from_date_parsing"
  | impossibleMoment _ => "datetime_parsing"
  | notDocument => "json_invalid"
  | rule _ => "value_error"

def counted (n : Nat) (noun : String) : String :=
  toString n ++ " " ++ noun ++ (if n = 1 then "" else "s")

/-- Choices in quotes, the last after "or". -/
def choiceList : List String → String
  | [] => ""
  | [only] => "'" ++ only ++ "'"
  | [first, last] => "'" ++ first ++ "' or '" ++ last ++ "'"
  | first :: rest => "'" ++ first ++ "', " ++ choiceList rest

/-- The text of the problem; a text that is no document has none of its own. -/
def message? : Problem → Option String
  | missing => "Field required"
  | unexpected => "Extra inputs are not permitted"
  | keyNotText => "Keys should be strings"
  | notText => "Input should be a valid string"
  | notUnicode =>
    "Input should be a valid string, unable to parse raw data as a unicode string"
  | notInteger => "Input should be a valid integer"
  | notBoolean => "Input should be a valid boolean"
  | notNumber => "Input should be a valid number"
  | notList false => "Input should be a valid list"
  | notList true => "Input should be a valid array"
  | notMap false => "Input should be a valid dictionary"
  | notMap true => "Input should be an object"
  | notModel title false => "Input should be a valid dictionary or instance of " ++ title
  | notModel _ true => "Input should be an object"
  | pattern text => "String should match pattern '" ++ text ++ "'"
  | tooLong limit => "String should have at most " ++ counted limit "character"
  | tooShort limit => "String should have at least " ++ counted limit "character"
  | tooFew limit =>
    "List should have at least " ++ counted limit "item" ++ " after validation, not 0"
  | unreadableBoolean => "Input should be a valid boolean, unable to interpret input"
  | unreadableInteger => "Input should be a valid integer, unable to parse string as an integer"
  | unreadableNumber => "Input should be a valid number, unable to parse string as a number"
  | fractional => "Input should be a valid integer, got a number with a fractional part"
  | notFinite => "Input should be a finite number"
  | tooManyDigits => "Unable to parse input string as an integer, exceeded maximum size"
  | notAbove bound => "Input should be greater than " ++ toString bound
  | below bound => "Input should be greater than or equal to " ++ toString bound
  | noneOf choices => "Input should be " ++ choiceList choices
  | notMoment => "Input should be a valid datetime"
  | unreadableMoment reason => "Input should be a valid datetime or date, " ++ reason
  | impossibleMoment reason => "Input should be a valid datetime, " ++ reason
  | notDocument => none
  | rule text => "Value error, " ++ text

end Problem

structure Fault where
  place : List Step
  problem : Problem
deriving DecidableEq, Repr

namespace Fault

def here (problem : Problem) : Fault := ⟨[], problem⟩

/-- The same fault seen from one step further out. -/
def under (step : Step) (fault : Fault) : Fault :=
  ⟨step :: fault.place, fault.problem⟩

end Fault

structure Report where
  title : String
  faults : List Fault
deriving DecidableEq, Repr

/-- The head line of a report. -/
def Report.summary (r : Report) : String :=
  Problem.counted r.faults.length "validation error" ++ " for " ++ r.title

/-- A part of a document, or the faults found in it. -/
inductive Checked (α : Type) where
  | valid (a : α)
  | faulty (faults : List Fault)

namespace Checked
variable {α β : Type}

def fault (problem : Problem) : Checked α := .faulty [.here problem]

def faults : Checked α → List Fault
  | .valid _ => []
  | .faulty faults => faults

/-- Two parts are valid together or give the faults of both, in order. -/
def both (f : Checked (α → β)) (a : Checked α) : Checked β :=
  match f, a with
  | .valid f, .valid a => .valid (f a)
  | f, a => .faulty (f.faults ++ a.faults)

instance : Applicative Checked where
  pure := .valid
  seq f a := both f (a ())

/-- A further check of what is valid so far. -/
def andThen (a : Checked α) (next : α → Checked β) : Checked β :=
  match a with
  | .valid a => next a
  | .faulty faults => .faulty faults

def under (step : Step) : Checked α → Checked α
  | .valid a => .valid a
  | .faulty faults => .faulty (faults.map (Fault.under step))

def all : List (Checked α) → Checked (List α)
  | [] => .valid []
  | a :: rest => List.cons <$> a <*> all rest

/-- Adds faults found beside the parts. -/
def also (found : List Fault) (a : Checked α) : Checked α :=
  match a, found with
  | .valid a, [] => .valid a
  | a, found => .faulty (a.faults ++ found)

def report (title : String) : Checked α → Except Report α
  | .valid a => .ok a
  | .faulty faults => .error ⟨title, faults⟩

theorem seq_eq_valid {f : Checked (α → β)} {a : Checked α} {b : β} :
    (f <*> a) = .valid b ↔ ∃ g x, f = .valid g ∧ a = .valid x ∧ g x = b := by
  cases f <;> cases a <;> simp [Seq.seq, both]

theorem map_eq_valid {f : α → β} {a : Checked α} {b : β} :
    (f <$> a) = .valid b ↔ ∃ x, a = .valid x ∧ f x = b := by
  cases a <;> simp [Functor.map, both]

theorem andThen_eq_valid {a : Checked α} {next : α → Checked β} {b : β} :
    a.andThen next = .valid b ↔ ∃ x, a = .valid x ∧ next x = .valid b := by
  cases a <;> simp [andThen]

theorem under_eq_valid {step : Step} {a : Checked α} {x : α} :
    a.under step = .valid x ↔ a = .valid x := by
  cases a <;> simp [under]

theorem also_eq_valid {found : List Fault} {a : Checked α} {x : α} :
    also found a = .valid x ↔ found = [] ∧ a = .valid x := by
  cases a <;> cases found <;> simp [also]

theorem report_eq_ok {title : String} {a : Checked α} {x : α} :
    a.report title = .ok x ↔ a = .valid x := by
  cases a <;> simp [report]

end Checked
end WorkloadConfig
