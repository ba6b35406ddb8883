import WorkloadConfig.Failure
import WorkloadConfig.Text.Upper

namespace WorkloadConfig.Logging

inductive Severity where
  | unset
  | debug
  | info
  | warning
  | error
  | critical
deriving DecidableEq, Repr

namespace Severity

def rank : Severity → Nat
  | unset => 0
  | debug => 10
  | info => 20
  | warning => 30
  | error => 40
  | critical => 50

def word : Severity → String
  | unset => "NOTSET"
  | debug => "DEBUG"
  | info => "INFO"
  | warning => "WARNING"
  | error => "ERROR"
  | critical => "CRITICAL"

/-- The levels that may be asked for, in the order of their names. -/
def choices : List Severity := [critical, debug, error, info, warning]

/-- A name that is no choice may still name a level. -/
def named? (name : String) : Option Severity :=
  if name = "WARN" then some warning
  else if name = "FATAL" then some critical
  else [unset, debug, info, warning, error, critical].find? (·.word = name)

end Severity

structure Loggers where
  own : Severity := .unset
  configured : Bool := false

namespace Loggers

def rootName : String := "kresolve"

def invalidMessage (name : String) : String :=
  "WARNING: invalid log level '" ++ name ++ "', expected one of " ++
    ", ".intercalate (Severity.choices.map Severity.word) ++ "; defaulting to INFO\n"

/-- The level asked for: a text that is not empty, or the variable of the environment. -/
def requested (level : Option String) (env : Table String String) : String :=
  let level := level.getD ""
  Text.upper (if level = "" then (env.find? "KRESOLVE_LOG").getD "" else level)

/-- The form of a record on a line. Its name is taken for a level that has this text. -/
def lineForm : String := "%(levelname)s:%(name)s:%(message)s"

/-- Names that are in use for something other than a level. -/
def misused? (name : String) : Option Failure :=
  if name = "BASIC_FORMAT" then some (.badValue ("Unknown level: " ++ Text.quoted lineForm))
  else if name = "_STYLES" then some .illTyped
  else none

/-- The loggers once a level has been asked for, and what is written about a level that is none.
With nothing asked for nothing changes. -/
def configure (loggers : Loggers) (level : Option String) (env : Table String String) :
    Result (Loggers × String) :=
  let name := requested level env
  match misused? name with
  | some failure => .error failure
  | none =>
    if name = "" then .ok (loggers, "")
    else
      let own := (Severity.named? name).getD .info
      let isChoice := Severity.choices.any (·.word = name)
      .ok (⟨own, true⟩, if isChoice then "" else invalidMessage name)

def isOwn (logger : String) : Bool :=
  logger = rootName || (rootName ++ ".").toList.isPrefixOf logger.toList

/-- The least level that the logger writes. -/
def threshold (loggers : Loggers) (logger : String) : Severity :=
  if isOwn logger && loggers.own ≠ .unset then loggers.own else .warning

/-- What is written for a record; before any configuration that is the bare message. -/
def written (loggers : Loggers) (logger : String) (severity : Severity) (message : String) :
    String :=
  if severity.rank < (loggers.threshold logger).rank then ""
  else if loggers.configured then
    severity.word ++ " " ++ (if logger = "" then "root" else logger) ++ ": " ++ message ++ "\n"
  else message ++ "\n"

end Loggers
end WorkloadConfig.Logging
