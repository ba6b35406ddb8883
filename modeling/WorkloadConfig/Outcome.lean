import WorkloadConfig.Schema

namespace WorkloadConfig

inductive Phase where
  | pending
  | loadingConfig
  | resolving
  | patching
  | publishing
  | complete
  | failed
deriving DecidableEq, Repr

namespace Phase

def all : List Phase :=
  [pending, loadingConfig, resolving, patching, publishing, complete, failed]

def word : Phase → String
  | pending => "Pending"
  | loadingConfig => "LoadingConfig"
  | resolving => "Resolving"
  | patching => "Patching"
  | publishing => "Publishing"
  | complete => "Complete"
  | failed => "Failed"

def read : Schema.Reader Phase := fun v =>
  match all.find? fun phase => v = .str phase.word with
  | some phase => .valid phase
  | none => .fault (.noneOf (all.map word))

end Phase

structure Condition where
  type : String
  status : String
  reason : String
  message : String := ""
  target : Table String String := []
  available : Option (List String) := none
  retryable : Bool := true
deriving DecidableEq

namespace Condition

/-- The instance is not ready, for the cause. -/
def unready (cause : Cause) : Condition where
  type := "Ready"
  status := "False"
  reason := cause.code
  message := cause.message
  target := cause.target
  available := cause.available?
  retryable := cause.retryable

/-- The instance is ready with so many resources. -/
def ready (count : Nat) : Condition where
  type := "Ready"
  status := "True"
  reason := "Reconciled"
  message := "Generated " ++ toString count ++ " resource(s)"

def read : Schema.Reader Condition :=
  Schema.object "Condition" .given fun entries =>
    (fun type status reason message target available retryable _ =>
      Condition.mk type status reason message target available retryable)
      <$> Schema.field entries "type" Schema.text
      <*> Schema.field entries "status" Schema.text
      <*> Schema.field entries "reason" Schema.text
      <*> Schema.fieldOr entries "message" "" Schema.text
      <*> Schema.fieldOr entries "target" [] (Schema.table .given Schema.text)
      <*> Schema.fieldOr entries "available_keys" none Schema.optionalTexts
      <*> Schema.fieldOr entries "retryable" true Schema.boolean
      <*> Schema.fieldOr entries "last_transition_time" () (Schema.moment .given)

end Condition

/-- How far a pass came, what it generated, and by its conditions why it went no further. -/
structure Outcome where
  name : String
  ns : String
  phase : Phase := .pending
  failedStage : Option Phase := none
  resources : List Value := []
  rendered : String := ""
  published : Bool := false
  conditions : List Condition := []
deriving DecidableEq

namespace Outcome

def success (o : Outcome) : Bool :=
  o.phase = .complete

/-- The reason of the first condition that is not met, unless the pass completed. -/
def errorCode? (o : Outcome) : Option String :=
  if o.success then none
  else (o.conditions.find? (·.status = "False")).map (·.reason)

def title : String := "ReconcileResult"

def read : Schema.Reader Outcome :=
  Schema.object title .given fun entries =>
    (fun name ns phase failedStage resources rendered published conditions =>
      Outcome.mk name ns phase failedStage (resources.map Value.ofTable) rendered published
        conditions)
      <$> Schema.field entries "instance" Schema.text
      <*> Schema.field entries "namespace" Schema.text
      <*> Schema.fieldOr entries "phase" .pending Phase.read
      <*> Schema.fieldOr entries "failed_stage" none (Schema.optional Phase.read)
      <*> Schema.fieldOr entries "resources" []
        (Schema.list .given (Schema.table .given (Schema.anything .given)))
      <*> Schema.fieldOr entries "rendered" "" Schema.text
      <*> Schema.fieldOr entries "published" false Schema.boolean
      <*> Schema.fieldOr entries "conditions" [] (Schema.list .given Condition.read)

def ofValue (v : Value) : Except Report Outcome :=
  (read v).report title

end Outcome
end WorkloadConfig
