import WorkloadConfig.Json.Printer
import WorkloadConfig.Json.Reader
import WorkloadConfig.Schema
import WorkloadConfig.Text.Lines

namespace WorkloadConfig

/-- A secret with the values that an instance does not show. -/
structure Connection where
  name : String
  data : Table String String := []
deriving DecidableEq

/-- What an instance provides to others. The values of its outputs may be read, those of its connection
only be pointed at. -/
structure Record where
  kind : String
  ns : String
  name : String
  outputs : Table String Value := []
  connection : Connection
  resources : List String := []
  generation : Int := 0
deriving DecidableEq

/-- What a reference can see of a record. -/
structure Target where
  kind : String
  ns : String
  name : String
  outputs : Table String Value := []
  connectionSecret : String
  connectionKeys : Option (List String) := none
  resources : Option (List String) := none
deriving DecidableEq

/-- The name of an instance's connection secret. -/
def connectionSecretName (name : String) : String :=
  name ++ "-conn"

def Connection.read (origin : Schema.Origin) : Schema.Reader Connection :=
  Schema.object "ConnectionSecret" origin fun entries =>
    Connection.mk
      <$> Schema.field entries "name" Schema.text
      <*> Schema.fieldOr entries "data" [] (Schema.table origin Schema.text)

namespace Record

def title : String := "PublishedOutputs"

def address (r : Record) : String := r.ns ++ "/" ++ r.name

/-- The record as it is stored after the one before it under its name. -/
def following (r : Record) (previous : Option Record) : Record :=
  { r with generation := match previous with
      | some old => old.generation + 1
      | none => 1 }

def read (origin : Schema.Origin) : Schema.Reader Record :=
  Schema.object title origin fun entries =>
    (fun kind ns name outputs connection resources generation _ =>
      Record.mk kind ns name outputs connection resources generation)
      <$> Schema.field entries "kind" Schema.text
      <*> Schema.field entries "namespace" Schema.text
      <*> Schema.field entries "instance" Schema.text
      <*> Schema.fieldOr entries "outputs" [] (Schema.table origin (Schema.anything origin))
      <*> Schema.field entries "connection" (Connection.read origin)
      <*> Schema.fieldOr entries "resources" [] (Schema.list origin Schema.text)
      <*> Schema.fieldOr entries "generation" 0 Schema.integer
      <*> Schema.fieldOr entries "updated_at" () (Schema.moment origin)

def ofValue (v : Value) : Except Report Record :=
  (read .given v).report title

end Record

/-- The text that bytes encode. -/
def textOfBytes (data : List UInt8) : Result String :=
  match Text.ofBytes? data with
  | some text => .ok text
  | none => .error (.badBytes data)

/-- A scalar as JSON can hold it. -/
def Scalar.asJson : Scalar → Result Scalar
  | .timestamp t => .ok (.str t.iso)
  | .float x => .ok (if x.isFinite then .float x else .null)
  | .bytes data => .str <$> textOfBytes data
  | .unordered text => .ok (.str text)
  | s => .ok s

/-- The text that a scalar has as a key in storage. -/
def Scalar.keyText : Scalar → Result String
  | .str text => .ok text
  | .bool b => .ok (if b then "true" else "false")
  | .timestamp t => .ok t.iso
  | .bytes data => textOfBytes data
  | s => if s.isShort then .ok s.shown else .error .tooLong

/-- The text of a key in storage, the parts of a tuple set apart by commas. -/
def Key.stored : Key → Result String
  | .scalar s => s.keyText
  | .tuple parts => ",".intercalate <$> parts.mapM Scalar.keyText

namespace Value

mutual

/-- The value as JSON can hold it: texts for its keys and timestamps, null for infinities. -/
def asJson : Value → Result Value
  | .scalar s => .scalar <$> s.asJson
  | .list items => .list <$> asJsonItems items
  | .map entries => (fun entries => .map (Table.ofList entries)) <$> asJsonEntries entries

def asJsonItems : List Value → Result (List Value)
  | [] => .ok []
  | v :: rest => do
    let first ← asJson v
    let others ← asJsonItems rest
    .ok (first :: others)

def asJsonEntries : List (Key × Value) → Result (List (Key × Value))
  | [] => .ok []
  | (k, v) :: rest => do
    let key ← k.stored
    let first ← asJson v
    let others ← asJsonEntries rest
    .ok ((.str key, first) :: others)

end

end Value

namespace Record

def toValue (r : Record) : Table String Value := [
  ("kind", .str r.kind),
  ("namespace", .str r.ns),
  ("instance", .str r.name),
  ("outputs", .ofTable r.outputs),
  ("connection", .map [("name", .str r.connection.name), ("data", .ofLabels r.connection.data)]),
  ("resources", .list (r.resources.map .str)),
  ("generation", .int r.generation),
  ("address", .str r.address)]

/-- The record as JSON can hold it, with the moment of its writing. -/
def asJson (r : Record) (now : String) : Result Value :=
  (Value.ofTable (r.toValue ++ [("updated_at", .str now)])).asJson

/-- The document that a record is stored as. -/
def document (r : Record) (now : String) : Result String := do
  let v ← r.asJson now
  let text ← Json.Style.document.text? v
  .ok (text ++ "\n")

/-- The record that a stored document holds. -/
def ofDocument (limits : Json.Limits) (text : String) : Except Report Record :=
  match Json.readStored? limits text with
  | some v => (read .stored v).report title
  | none => .error ⟨title, [.here .notDocument]⟩

end Record

namespace Target

/-- Of the connection only its name and keys; an instance without resources says nothing of them. -/
def ofRecord (r : Record) : Target where
  kind := r.kind
  ns := r.ns
  name := r.name
  outputs := r.outputs
  connectionSecret := r.connection.name
  connectionKeys := some (Sorting.texts r.connection.data.keys)
  resources := if r.resources = [] then none else some r.resources

def title : String := "TargetInstance"

def ofValue (v : Value) : Except Report Target :=
  let read := Schema.object title .given fun entries =>
    Target.mk
      <$> Schema.field entries "kind" Schema.text
      <*> Schema.field entries "namespace" Schema.text
      <*> Schema.field entries "name" Schema.text
      <*> Schema.fieldOr entries "outputs" [] (Schema.table .given (Schema.anything .given))
      <*> Schema.field entries "connection_secret" Schema.text
      <*> Schema.fieldOr entries "connection_keys" none Schema.optionalTexts
      <*> Schema.fieldOr entries "resources" none Schema.optionalTexts
  (read v).report title

end Target
end WorkloadConfig
