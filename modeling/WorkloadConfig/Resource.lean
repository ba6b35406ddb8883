import WorkloadConfig.Composition
import WorkloadConfig.Digest
import WorkloadConfig.Json.Printer
import WorkloadConfig.Reference.Leaves
import WorkloadConfig.Value.Sorted

namespace WorkloadConfig

/-- Field values by the paths of the fields. -/
abbrev Assignment := Table String Value

namespace Value

/-- Canonical text, which a value has only if its keys have an order and can be written. -/
def canonical? (v : Value) : Result String :=
  Json.Style.canonical.text? v

def sorted? (v : Value) : Result Value :=
  if v.hasOrder then .ok v.sortKeys else .error .illTyped

/-- The entries of a map, none where nothing is given, and a failure for anything else. -/
def spread (v : Value) : Result (List (Key × Value)) :=
  if !v.isGiven then .ok []
  else match v with
    | .map entries => .ok entries
    | _ => .error .illTyped

end Value

def managedByLabel : String := "app.kubernetes.io/managed-by"
def instanceLabel : String := "kresolve.io/instance"
def kindLabel : String := "kresolve.io/kind"
def digestAnnotation : String := "kresolve.io/inputs-digest"
def ownerApiVersion : String := "kresolve.io/v1"

namespace Template

/-- The skeleton under the template's own version and kind. -/
def skeleton (t : Template) : Value :=
  .map (Table.put (Table.put (Value.ofTable t.base).entries (.str "apiVersion") (.str t.apiVersion))
    (.str "kind") (.str t.kind))

/-- The patches whose fields have a value, in order. -/
def present {α : Type} (t : Template) (fields : Table String α) : List (FieldPath × α) :=
  t.patches.filterMap fun p => (fields.find? p.field.text).map fun v => (p.place, v)

def patched (t : Template) (fields : Assignment) : Value :=
  (t.present fields).foldl (fun resource (place, v) => resource.set place.segments v) t.skeleton

/-- Replaces the references at and below the path. -/
def injectAt (refs : Resolutions) (resource : Value) (path : FieldPath) : Result Value := do
  let new ← refs.injectFields (resource.valueAt path)
  .ok (resource.set path.segments new)

/-- The resource before the metadata: its field values written, then the references among them
replaced once. -/
def filled (t : Template) (fields : Assignment) (refs : Resolutions) : Result Value :=
  (FieldPath.outermost ((t.present fields).map (·.1))).foldlM (injectAt refs) (t.patched fields)

end Template

namespace Instance

def resourceName (i : Instance) (t : Template) : String :=
  i.name.text ++ "-" ++ t.name.text

def reservedLabels (i : Instance) (manager : String) : List (Key × Value) := [
  (managedByLabel, .str manager),
  (instanceLabel, .str i.name.text),
  (kindLabel, .str i.kind)]

def ownerUid (i : Instance) : List (Key × Value) :=
  match i.uid with
  | some uid => if uid = "" then [] else [("uid", .str uid)]
  | none => []

/-- The instance as the owner of its resources. -/
def owner (i : Instance) : Value :=
  let entries : List (Key × Value) := [
    ("apiVersion", .str ownerApiVersion),
    ("kind", .str i.kind),
    ("name", .str i.name.text),
    ("controller", .bool true),
    ("blockOwnerDeletion", .bool true)]
  .map (entries ++ i.ownerUid)

/-- The metadata of a resource: the engine's entries over those of the instance over its own. -/
def metadata (i : Instance) (manager : String) (t : Template) (resource : Value) :
    Result Value := do
  let digest := Digest.ofText (← resource.canonical?)
  let own := (resource.lookup (.str "metadata")).entries
  let named := Table.putAll own [("name", .str (i.resourceName t)), ("namespace", .str i.ns.text)]
  let labels ← (Value.map named).lookup (.str "labels") |>.spread
  let labels := Table.putAll (Table.putAll (Table.ofList labels) (Value.ofLabels i.labels).entries)
    (i.reservedLabels manager)
  let annotations ← (Value.map named).lookup (.str "annotations") |>.spread
  let annotations := Table.put annotations (.str digestAnnotation) (.str digest)
  .ok (.map (Table.putAll named [
    ("labels", .map labels),
    ("annotations", .map annotations),
    ("ownerReferences", .list [i.owner])]))

/-- One finished resource. -/
def resource (i : Instance) (manager : String) (fields : Assignment) (refs : Resolutions)
    (t : Template) : Result Value := do
  let filled ← t.filled fields refs
  let metadata ← i.metadata manager t filled
  Value.sorted? (.map (Table.put filled.entries (.str "metadata") metadata))

/-- The resources of all templates in their order. -/
def resources (i : Instance) (c : Composition) (manager : String) (fields : Assignment)
    (refs : Resolutions) : Result (List Value) :=
  c.resources.mapM (i.resource manager fields refs)

end Instance

/-- The canonical text of resources together. -/
def render (resources : List Value) : Result String :=
  (Value.list resources).canonical?

end WorkloadConfig
