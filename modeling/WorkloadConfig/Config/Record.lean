import WorkloadConfig.Schema
import WorkloadConfig.Value.Agreement

namespace WorkloadConfig

structure RecordMetadata where
  name : String
  labels : Table String String := []

structure EnvironmentInfo where
  name : String
  domain : String := ""
  region : String := ""

/-- Field values by the path text of the field, for every kind or instance. -/
abbrev FieldValues := Table String (Table String Value)

/-- Defaults for the fields of every kind of workload. -/
structure ClusterConfig where
  name : String
  environment : EnvironmentInfo
  defaults : FieldValues := []

/-- Overrides for the fields of the instances of one project. -/
structure ProjectConfig where
  name : String
  project : String
  overrides : FieldValues := []

namespace FieldValues

/-- The value for a field, null where none is given. -/
def valueFor (values : FieldValues) (owner path : String) : Value :=
  (Table.find? ((Table.find? values owner).getD []) path).getD .null

/-- A map, or null for an empty one. -/
def orEmpty {α : Type} (read : Schema.Reader (Table String α)) : Schema.Reader (Table String α)
  | .null => .valid []
  | v => read v

def read : Schema.Reader FieldValues :=
  orEmpty (Schema.table .given (orEmpty (Schema.table .given (Schema.anything .given))))

end FieldValues

def RecordMetadata.read : Schema.Reader RecordMetadata :=
  Schema.object "RecordMetadata" .given fun entries =>
    RecordMetadata.mk
      <$> Schema.field entries "name" Schema.text
      <*> Schema.fieldOr entries "labels" [] (Schema.table .given Schema.text)

def EnvironmentInfo.read : Schema.Reader EnvironmentInfo :=
  Schema.object "EnvironmentMetadata" .given fun entries =>
    EnvironmentInfo.mk
      <$> Schema.field entries "name" Schema.text
      <*> Schema.fieldOr entries "domain" "" Schema.text
      <*> Schema.fieldOr entries "region" "" Schema.text

namespace ConfigRecord

/-- Only maps have entries to ask for. -/
def member (v : Value) (key : String) : Result Value :=
  if v.isMap then .ok (v.lookup (.str key)) else .error .noSuchMember

/-- A part of a document that may be left out: what is not given counts as an empty map. -/
def given (v : Value) : Value :=
  if v.isGiven then v else .map []

/-- The labels of a record, by which it is found. -/
def labels (record : Value) : Result Value := do
  let metadata ← member record "metadata"
  let labels ← member (given metadata) "labels"
  .ok (given labels)

/-- The name of a record in messages. -/
def name (record : Value) : String :=
  match (given (record.lookup "metadata")).entries.find? fun entry => entry.1 = .str "name" with
  | some entry => entry.2.asName
  | none => "<unnamed>"

def metadata (record : Value) : Result RecordMetadata := do
  let given := (Table.find? record.entries (.str "metadata")).getD (.map [])
  if record.isMap then
    Result.ofReport ((RecordMetadata.read given).report "RecordMetadata")
  else .error .noSuchMember

/-- A pair in a list that is to be read as a map. -/
def pair (index : Nat) : Value → Result (Key × Value)
  | .str text => match text.toList with
    | [a, b] => .ok (.str (String.singleton a), .str (String.singleton b))
    | other => .error (.badPair index other.length)
  | .list [.scalar key, v] => .ok (.scalar key, v)
  | .list items =>
    if items.length = 2 then .error .illTyped else .error (.badPair index items.length)
  | .map [(a, _), (.scalar b, _)] => .ok (a, .scalar b)
  | .map [(a, _), (.tuple parts, _)] => .ok (a, .list (parts.map .scalar))
  | .map entries => .error (.badPair index entries.length)
  | _ => .error .illTyped

/-- The entries of a map, or of a list of pairs. -/
def pairedEntries : Value → Result (List (Key × Value))
  | .map entries => .ok entries
  | .list items => do
    let pairs ← items.zipIdx.mapM fun (item, index) => pair index item
    .ok (pairs.foldl Key.putAligned [])
  | .str text => if text = "" then .ok [] else .error (.badPair 0 1)
  | _ => .error .illTyped

/-- The name of the record unless the entries have one of their own. -/
def named (name : String) (entries : List (Key × Value)) : Value :=
  .map (Table.putAll [(.str "name", .str name)] entries)

end ConfigRecord

namespace ClusterConfig

def title : String := "ClusterConfig"

def read : Schema.Reader ClusterConfig :=
  Schema.object title .given fun entries =>
    .also (Schema.strangers ["name", "environment", "defaults"] entries) <|
      ClusterConfig.mk
        <$> Schema.field entries "name" Schema.text
        <*> Schema.field entries "environment" EnvironmentInfo.read
        <*> Schema.fieldOr entries "defaults" [] FieldValues.read

def defaultFor (c : ClusterConfig) (kind path : String) : Value :=
  c.defaults.valueFor kind path

/-- The spec of the record under the record's name. -/
def ofRecord (record : Value) : Result ClusterConfig := do
  let metadata ← ConfigRecord.metadata record
  let spec := ConfigRecord.given (record.lookup "spec")
  if spec.isMap then
    Result.ofReport ((read (ConfigRecord.named metadata.name spec.entries)).report title)
  else .error .illTyped

end ClusterConfig

namespace ProjectConfig

def title : String := "ProjectConfig"

def read : Schema.Reader ProjectConfig :=
  Schema.object title .given fun entries =>
    .also (Schema.strangers ["name", "project", "overrides"] entries) <|
      ProjectConfig.mk
        <$> Schema.field entries "name" Schema.text
        <*> Schema.field entries "project" Schema.text
        <*> Schema.fieldOr entries "overrides" [] FieldValues.read

def overrideFor (p : ProjectConfig) (name path : String) : Value :=
  p.overrides.valueFor name path

/-- The spec of the record under the record's name, for the project of its label unless the spec
names one. -/
def ofRecord (record : Value) : Result ProjectConfig := do
  let metadata ← ConfigRecord.metadata record
  let entries ← ConfigRecord.pairedEntries (ConfigRecord.given (record.lookup "spec"))
  let project := (Table.find? metadata.labels "project").getD ""
  let entries :=
    if Table.contains entries (.str "project") then entries
    else entries ++ [(.str "project", .str project)]
  Result.ofReport ((read (ConfigRecord.named metadata.name entries)).report title)

end ProjectConfig
end WorkloadConfig
