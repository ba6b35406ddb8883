import WorkloadConfig.Fault
import WorkloadConfig.Number.Decimal
import WorkloadConfig.Sorting
import WorkloadConfig.Table
import WorkloadConfig.Text.Lines
import WorkloadConfig.Text.Quoted
import WorkloadConfig.Value.Path

namespace WorkloadConfig

/-- Why an operation on files was refused. -/
inductive FileRefusal where
  | notFound
  | alreadyThere
  | notDirectory
  | isDirectory
  | nameTooLong
deriving DecidableEq, Repr

structure FileError where
  refusal : FileRefusal
  path : String
deriving DecidableEq, Repr

namespace FileError

def number : FileRefusal → Nat
  | .notFound => 2
  | .alreadyThere => 17
  | .notDirectory => 20
  | .isDirectory => 21
  | .nameTooLong => 36

def wording : FileRefusal → String
  | .notFound => "No such file or directory"
  | .alreadyThere => "File exists"
  | .notDirectory => "Not a directory"
  | .isDirectory => "Is a directory"
  | .nameTooLong => "File name too long"

def message (e : FileError) : String :=
  "[Errno " ++ toString (number e.refusal) ++ "] " ++ wording e.refusal ++ ": " ++
    Text.quoted e.path

end FileError

abbrev Selector := Table String String

namespace Selector

def text (s : Selector) : String :=
  ",".intercalate ((Sorting.sort (fun a b => decide (a.1 ≤ b.1)) s).map fun entry =>
    entry.1 ++ "=" ++ entry.2)

end Selector

inductive ConfigFlaw where
  | unknownSettings (names : List String)
  | invalidSettings (report : Report)
  | missingDirectory (path : String)
  | unreadable (path : String) (error : Option FileError)
  | invalidComposition (path : String) (report : Report)
  | repeatedKind (path : String) (kind : String)
  | invalidRecord (level : String) (name : String) (report : Report)
  | stated (message : String)
deriving DecidableEq, Repr

namespace ConfigFlaw

def repeatedKindMessage (kind : String) : String :=
  "Composition already registered for kind: " ++ kind

def message : ConfigFlaw → String
  | unknownSettings names => "Unknown setting(s): " ++ ", ".intercalate names
  | invalidSettings report => report.summary
  | missingDirectory path => "Config directory not found: " ++ path
  | unreadable path none => "Failed to read " ++ path
  | unreadable path (some error) => "Failed to read " ++ path ++ ": " ++ error.message
  | invalidComposition path report => "Invalid composition in " ++ path ++ ": " ++ report.summary
  | repeatedKind path kind => path ++ ": " ++ repeatedKindMessage kind
  | invalidRecord level name report =>
    "Invalid " ++ level ++ " config " ++ name ++ ": " ++ report.summary
  | stated message => message

def report? : ConfigFlaw → Option Report
  | invalidSettings report | invalidComposition _ report | invalidRecord _ _ report => some report
  | _ => none

end ConfigFlaw

inductive SyntaxFlaw where
  | emptyNamespace
  | emptySegment
  | segmentCount (least most got : Nat)
  | stated (reason : String)
deriving DecidableEq, Repr

def SyntaxFlaw.message : SyntaxFlaw → String
  | emptyNamespace => "empty namespace before '::'"
  | emptySegment => "empty path segment"
  | segmentCount least most got =>
    let range :=
      if least = most then toString least else toString least ++ " to " ++ toString most
    "expected " ++ range ++ " path segments, got " ++ toString got
  | stated reason => reason

inductive StoreFlaw where
  | file (error : FileError)
  | invalidRecord (report : Report)
  | stated (reason : String)
deriving DecidableEq, Repr

def StoreFlaw.message : StoreFlaw → String
  | file error => error.message
  | invalidRecord report => "invalid record: " ++ report.summary
  | stated reason => reason

inductive LockFlaw where
  | held (path : String) (timeout : Binary64)
  | stated (message : String)
deriving DecidableEq, Repr

def LockFlaw.message : LockFlaw → String
  | held path timeout => "Could not lock " ++ path ++ " within " ++ timeout.brief ++ "s"
  | stated message => message

/-- A failure that the conditions of a result report, with a stable code, the identifiers of what it
is about, and whether waiting can help. -/
inductive Cause where
  | unspecified (message : String)
  | config (flaw : ConfigFlaw)
  | configNotFound (selector : Selector)
  | configAmbiguous (selector : Selector) (names : List String)
  | unknownKind (kind : String)
  | missingValue (field : String)
  | referenceSyntax (reference : String) (flaw : SyntaxFlaw)
  | crossNamespace (family path : String)
  | targetNotFound (target ns : String)
  | keyNotFound (target key : String) (available : List String)
  | kindMismatch (target expected got : String)
  | lookupTimeout (what : String) (timeout : Binary64)
  | unpublishable (key field : String)
  | cancelled (stage : String)
  | store (path : String) (flaw : StoreFlaw)
  | locked (flaw : LockFlaw)
deriving DecidableEq, Repr

namespace Cause

/-- The stable code that conditions carry as their reason. -/
def code : Cause → String
  | unspecified _ => "ResolutionFailed"
  | config _ => "ConfigInvalid"
  | configNotFound _ => "ConfigNotFound"
  | configAmbiguous _ _ => "ConfigAmbiguous"
  | unknownKind _ => "UnknownWorkloadKind"
  | missingValue _ => "MissingRequiredValue"
  | referenceSyntax _ _ => "ReferenceSyntax"
  | crossNamespace _ _ => "CrossNamespaceViolation"
  | targetNotFound _ _ => "ReferenceTargetNotFound"
  | keyNotFound _ _ _ => "ReferenceKeyNotFound"
  | kindMismatch _ _ _ => "ReferenceKindMismatch"
  | lookupTimeout _ _ => "LookupTimeout"
  | unpublishable _ _ => "UnpublishableValue"
  | cancelled _ => "Cancelled"
  | store _ _ => "StoreUnavailable"
  | locked _ => "StoreLocked"

/-- Whether waiting can help. -/
def retryable : Cause → Bool
  | unknownKind _ | referenceSyntax _ _ | crossNamespace _ _ | kindMismatch _ _ _
  | unpublishable _ _ => false
  | _ => true

/-- The available keys of a missing one, in order. -/
def available? : Cause → Option (List String)
  | keyNotFound _ _ available => some (Sorting.texts available)
  | _ => none

def listing (keys : List String) : String :=
  if keys = [] then "<none>" else ", ".intercalate (Sorting.texts keys)

def message : Cause → String
  | unspecified message => message
  | config flaw => flaw.message
  | configNotFound selector => "No config matches selector " ++ selector.text
  | configAmbiguous selector names =>
    "Selector " ++ selector.text ++ " matched " ++ toString names.length ++ " configs: " ++
      ", ".intercalate names
  | unknownKind kind => "Unknown workload kind: " ++ kind
  | missingValue field =>
    "No value for required field '" ++ field ++ "' at any precedence level"
  | referenceSyntax reference flaw =>
    "Malformed reference '" ++ reference ++ "': " ++ flaw.message
  | crossNamespace family path =>
    "Cross-namespace references are only allowed for outputs/, got " ++ family ++
      "/ reference '" ++ path ++ "'"
  | targetNotFound target ns =>
    "Referenced instance '" ++ target ++ "' not found in namespace '" ++ ns ++ "'"
  | keyNotFound target key available =>
    "Instance '" ++ target ++ "' has no key '" ++ key ++ "' (available keys: " ++
      listing available ++ ")"
  | kindMismatch target expected got =>
    "Instance '" ++ target ++ "' is a " ++ got ++ ", expected a " ++ expected
  | lookupTimeout what timeout =>
    "Timed out after " ++ timeout.brief ++ "s waiting for " ++ what
  | unpublishable key field =>
    "Published key '" ++ key ++ "' reads field '" ++ field ++
      "', which resolves to a secret/config pointer and cannot be published as a value"
  | cancelled stage => "Reconciliation cancelled before " ++ stage
  | store path flaw => "Output store record " ++ path ++ " is unusable: " ++ flaw.message
  | locked flaw => flaw.message

/-- The identifiers of what the cause is about. -/
def target : Cause → Table String String
  | configNotFound selector => [("selector", selector.text)]
  | configAmbiguous selector _ => [("selector", selector.text)]
  | unknownKind kind => [("kind", kind)]
  | missingValue field => [("field", field)]
  | referenceSyntax reference _ => [("reference", reference)]
  | crossNamespace family path => [("refType", family), ("path", path)]
  | targetNotFound target ns => [("instance", target), ("namespace", ns)]
  | keyNotFound target key _ => [("instance", target), ("key", key)]
  | kindMismatch target _ got => [("instance", target), ("kind", got)]
  | lookupTimeout what _ => [("lookup", what)]
  | unpublishable key field => [("key", key), ("field", field)]
  | store path _ => [("path", path)]
  | _ => []

/-- The report of the document whose rejection is the cause. -/
def report? : Cause → Option Report
  | config flaw => flaw.report?
  | store _ (.invalidRecord report) => some report
  | _ => none

end Cause

/-- A cause, or something outside the domain that escapes to the caller. -/
inductive Failure where
  | resolution (cause : Cause)
  | invalid (report : Report)
  | badPath (text : String)
  | badPair (index length : Nat)
  | repeatedKind (kind : String)
  | nulInPath (making : Bool)
  | unresolved (reference : String)
  | badValue (message : String)
  | badBytes (data : List UInt8)
  | emptyNumber
  | unknownWord
  | unmetAssumption
  | endless
  | tooLarge
  | illTyped
  | noSuchMember
  | timedOut
  | refused (message : String)
  | file (error : FileError)
deriving DecidableEq, Repr

namespace Failure

def tooLongMessage : String :=
  "Exceeds the limit (4300 digits) for integer string conversion; use sys.set_int_max_str_digits() " ++
    "to increase the limit"

/-- An integer has too many digits to be written. -/
def tooLong : Failure := .badValue tooLongMessage

/-- The message of a failure, where it has one to show. -/
def message? : Failure → Option String
  | resolution cause => cause.message
  | badValue message => message
  | badBytes data =>
    let place := Text.validLength data
    "'utf-8' codec can't decode byte 0x" ++ String.ofList (Text.hex 2 (data.getD place 0).toNat) ++
      " in position " ++ toString place ++ ": invalid utf-8"
  | badPath text => FieldPath.invalidMessage text
  | badPair index length =>
    "dictionary update sequence element #" ++ toString index ++ " has length " ++ toString length ++
      "; 2 is required"
  | repeatedKind kind => ConfigFlaw.repeatedKindMessage kind
  | nulInPath false => "embedded null byte"
  | nulInPath true => "mkdir: embedded null character in path"
  | unresolved reference => "Reference '" ++ reference ++ "' reached the applier unresolved"
  | refused message => message
  | emptyNumber | unknownWord | unmetAssumption | endless | tooLarge => none
  | invalid _ | illTyped | noSuchMember | timedOut | file _ => none

end Failure

/-- Runs that may fail. -/
abbrev Result (α : Type) := Except Failure α

namespace Result

def fail {α : Type} (cause : Cause) : Result α := .error (.resolution cause)

def ofReport {α : Type} : Except Report α → Result α
  | .ok a => .ok a
  | .error report => .error (.invalid report)

variable {α β : Type}

@[simp] theorem ok_bind (a : α) (f : α → Result β) : ((.ok a : Result α) >>= f) = f a := rfl

@[simp] theorem error_bind (failure : Failure) (f : α → Result β) :
    ((.error failure : Result α) >>= f) = .error failure := rfl

@[simp] theorem pure_eq (a : α) : (pure a : Result α) = .ok a := rfl

@[simp] theorem throw_eq (failure : Failure) : (throw failure : Result α) = .error failure := rfl

theorem bind_eq_ok {x : Result α} {f : α → Result β} {b : β} :
    (x >>= f) = .ok b ↔ ∃ a, x = .ok a ∧ f a = .ok b := by
  cases x <;> simp

theorem map_eq_ok {x : Result α} {f : α → β} {b : β} :
    (f <$> x) = .ok b ↔ ∃ a, x = .ok a ∧ f a = b := by
  cases x with
  | error failure => simp [Functor.map, Except.map]
  | ok a => simp [Functor.map, Except.map]

theorem bind_eq_error {x : Result α} {f : α → Result β} {failure : Failure} :
    (x >>= f) = .error failure ↔ x = .error failure ∨ ∃ a, x = .ok a ∧ f a = .error failure := by
  cases x <;> simp

theorem map_eq_error {x : Result α} {f : α → β} {failure : Failure} :
    (f <$> x) = .error failure ↔ x = .error failure := by
  cases x <;> simp [Functor.map, Except.map]

/-- A function applied to what a run comes to, if it comes to anything. -/
theorem map_eq_ok_iff {x : Result α} {P : Prop} {a : α} (comes : ∀ b, x = .ok b ↔ P ∧ b = a)
    {f : α → β} {c : β} : f <$> x = .ok c ↔ P ∧ c = f a := by
  rw [map_eq_ok]
  constructor
  · rintro ⟨b, ran, rfl⟩
    obtain ⟨holds, rfl⟩ := (comes b).mp ran
    exact ⟨holds, rfl⟩
  · rintro ⟨holds, rfl⟩
    exact ⟨a, (comes a).mpr ⟨holds, rfl⟩, rfl⟩

/-- Where each item comes to what a function says, if it comes to anything, all of them do. -/
theorem mapM_eq_ok_iff {f : α → Result β} {P : α → Prop} {g : α → β} {items : List α}
    (each : ∀ a ∈ items, ∀ b, f a = .ok b ↔ P a ∧ b = g a) {results : List β} :
    items.mapM f = .ok results ↔ (∀ a ∈ items, P a) ∧ results = items.map g := by
  induction items generalizing results with
  | nil => simp [eq_comm]
  | cons a rest ih =>
    obtain ⟨first, others⟩ := List.forall_mem_cons.mp each
    simp only [List.mapM_cons, bind_eq_ok, pure_eq, Except.ok.injEq, first, ih others,
      List.forall_mem_cons, List.map_cons]
    constructor
    · rintro ⟨_, ⟨ofFirst, rfl⟩, _, ⟨ofRest, rfl⟩, rfl⟩
      exact ⟨⟨ofFirst, ofRest⟩, rfl⟩
    · rintro ⟨⟨ofFirst, ofRest⟩, rfl⟩
      exact ⟨_, ⟨ofFirst, rfl⟩, _, ⟨ofRest, rfl⟩, rfl⟩

theorem exists_of_mapM_error {f : α → Result β} {items : List α} {failure : Failure}
    (fails : items.mapM f = .error failure) : ∃ a ∈ items, f a = .error failure := by
  induction items with
  | nil => cases fails
  | cons a rest ih =>
    simp only [List.mapM_cons, bind_eq_error, pure_eq, reduceCtorEq, and_false, exists_false,
      or_false] at fails
    rcases fails with here | ⟨_, -, behind⟩
    · exact ⟨a, List.mem_cons_self, here⟩
    · obtain ⟨b, member, fails⟩ := ih behind
      exact ⟨b, List.mem_cons_of_mem a member, fails⟩

end Result
end WorkloadConfig
