import WorkloadConfig.Published
import WorkloadConfig.Resource

namespace WorkloadConfig

namespace Publication

/-- The value of the published field, null where it has none. A pointer cannot be published. -/
def literal (p : Publication) (fields : Assignment) (refs : Resolutions) : Result Value :=
  match fields.find? p.fromField.text with
  | none => .ok .null
  | some v => refs.inject
      (fun _ => Result.fail (.unpublishable p.key.text p.fromField.text)) v

/-- A text as it is, anything else as canonical text. -/
def secretText : Value → Result String
  | .str text => .ok text
  | v => v.canonical?

end Publication

/-- The published values so far. -/
structure Published where
  outputs : Table String Value := []
  connection : Table String String := []

namespace Published

/-- Adds the value of one publication unless it is null. -/
def add (fields : Assignment) (refs : Resolutions) (done : Published) (p : Publication) :
    Result Published := do
  let v ← p.literal fields refs
  if v = .null then .ok done
  else if p.sensitive then do
    let text ← Publication.secretText v
    .ok { done with connection := done.connection.put p.key.text text }
  else .ok { done with outputs := done.outputs.put p.key.text v }

end Published

def byKey {α : Type} (t : Table String α) : Table String α :=
  Sorting.sort (fun a b => decide (a.1 ≤ b.1)) t

/-- Outputs in the order of their keys, and each with its own keys in order. -/
def sortedOutputs (outputs : Table String Value) : Result (Table String Value) :=
  if (Value.ofTable outputs).hasOrder then .ok (byKey (outputs.mapValues Value.sortKeys))
  else .error .illTyped

namespace Instance

/-- The record to publish; fields without a value are left out. -/
def record (i : Instance) (c : Composition) (fields : Assignment) (refs : Resolutions) :
    Result Record := do
  let published ← c.publish.foldlM (Published.add fields refs) {}
  let outputs ← sortedOutputs published.outputs
  .ok {
    kind := i.kind
    ns := i.ns.text
    name := i.name.text
    outputs
    connection := ⟨connectionSecretName i.name.text, byKey published.connection⟩
    resources := Sorting.texts c.templateNames }

end Instance

/-- The secret that carries the connection of a record. -/
def Record.connectionManifest (r : Record) (manager : String) : Value :=
  Value.sortKeys (.map [
    ("apiVersion", .str "v1"),
    ("kind", .str "Secret"),
    ("type", .str "Opaque"),
    ("metadata", .map [
      ("name", .str r.connection.name),
      ("namespace", .str r.ns),
      ("labels", .map [(managedByLabel, .str manager), (instanceLabel, .str r.name)])]),
    ("stringData", .ofLabels r.connection.data)])

end WorkloadConfig
