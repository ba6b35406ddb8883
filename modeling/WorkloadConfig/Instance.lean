import WorkloadConfig.Label

namespace WorkloadConfig

/-- One deployable workload, named within a namespace, with the values that its author gave it. -/
structure Instance where
  kind : String
  name : DnsLabel
  ns : DnsLabel
  uid : Option String := none
  labels : Table String String := []
  spec : Table String Value := []

namespace Instance

def address (i : Instance) : String :=
  i.ns.text ++ "/" ++ i.name.text

/-- The value of the author at a path, null where there is none. -/
def specValue (i : Instance) (p : FieldPath) : Value :=
  (Value.ofTable i.spec).valueAt p

def kindOf : Schema.Reader String := fun v =>
  (Schema.text v).andThen fun text =>
    if text = "" then .fault (.tooShort 1) else .valid text

def title : String := "WorkloadInstance"

def read : Schema.Reader Instance :=
  Schema.object title .given fun entries =>
    .also (Schema.strangers ["kind", "name", "namespace", "uid", "labels", "spec"] entries) <|
      Instance.mk
        <$> Schema.field entries "kind" kindOf
        <*> Schema.field entries "name" DnsLabel.read
        <*> Schema.field entries "namespace" DnsLabel.read
        <*> Schema.fieldOr entries "uid" none (Schema.optional Schema.text)
        <*> Schema.fieldOr entries "labels" [] (Schema.table .given Schema.text)
        <*> Schema.fieldOr entries "spec" [] (Schema.table .given (Schema.anything .given))

def ofValue (v : Value) : Except Report Instance :=
  (read v).report title

end Instance
end WorkloadConfig
