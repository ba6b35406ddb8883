import WorkloadConfig.Registry
import WorkloadConfig.Resource
import WorkloadConfig.Value.Linked

namespace WorkloadConfig

/-- A template whose skeleton may hold a map at several places. -/
structure Blueprint where
  name : Label
  apiVersion : String := "v1"
  kind : String
  base : Table String Linked := []
  patches : List Patch := []

/-- A composition of such templates. -/
structure Design where
  kind : String
  description : String := ""
  blueprints : List Blueprint
  publish : List Publication := []

namespace Blueprint

/-- The template, with a map of its own at each place of the skeleton. -/
def template (b : Blueprint) : Template where
  name := b.name
  apiVersion := b.apiVersion
  kind := b.kind
  base := b.base.mapValues Linked.value
  patches := b.patches

def ofTemplate (t : Template) (base : Table String Linked) : Blueprint where
  name := t.name
  apiVersion := t.apiVersion
  kind := t.kind
  base
  patches := t.patches

/-- The entries of a map under texts. -/
def tableOf (v : Linked) : Table String Linked :=
  Table.ofList (v.entries.filterMap fun (key, v) => match key with
    | .str text => some (text, v)
    | _ => none)

/-- The skeleton in a part of a document. -/
def baseOf (part : Linked) : Table String Linked :=
  match Schema.member? part.entries "base" with
  | some base => tableOf base
  | none => []

def skeleton (b : Blueprint) : Linked :=
  ((Linked.ofTable b.base).set ["apiVersion"] (.str b.apiVersion)).set ["kind"] (.str b.kind)

/-- The resource with copies of the field values written into it, in the order of the patches. -/
def patched (b : Blueprint) (fields : Table String Linked) : Linked :=
  (b.template.present fields).foldl (fun resource (place, v) => resource.place place.segments v)
    b.skeleton

def injectAt (refs : Resolutions) (resource : Linked) (path : FieldPath) : Result Linked := do
  let new ← refs.injectFields (resource.value.valueAt path)
  .ok (resource.place path.segments (.plain new))

def filled (b : Blueprint) (fields : Table String Linked) (refs : Resolutions) : Result Linked :=
  (FieldPath.outermost ((b.template.present fields).map (·.1))).foldlM (injectAt refs)
    (b.patched fields)

end Blueprint

/-- The entries that the engine writes into the metadata of a resource. -/
def stampedKeys : List String := ["name", "namespace", "labels", "annotations", "ownerReferences"]

/-- The resource with these entries in the map of its metadata. -/
def Linked.stamped (resource : Linked) (metadata : Value) : Linked :=
  stampedKeys.foldl (fun resource key =>
    resource.place ["metadata", key] (.plain (metadata.lookup (.str key)))) resource

namespace Instance

/-- One finished resource, its skeleton changed in place. -/
def resourceOf (i : Instance) (manager : String) (fields : Table String Linked)
    (refs : Resolutions) (b : Blueprint) : Result Value := do
  let filled ← b.filled fields refs
  let metadata ← i.metadata manager b.template filled.value
  (filled.stamped metadata).value.sorted?

def resourcesOf (i : Instance) (d : Design) (manager : String) (fields : Table String Linked)
    (refs : Resolutions) : Result (List Value) :=
  d.blueprints.mapM (i.resourceOf manager fields refs)

end Instance

namespace Design

def composition (d : Design) : Composition where
  kind := d.kind
  description := d.description
  resources := d.blueprints.map Blueprint.template
  publish := d.publish

/-- The skeletons in a document. -/
def basesOf (document : Linked) : List (Table String Linked) :=
  match Schema.member? document.entries "resources" with
  | some (.list parts) => parts.map Blueprint.baseOf
  | _ => []

/-- The composition of a document with the skeletons as they stand there. -/
def ofDocument (document : Linked) : Except Report Design := do
  let c ← Composition.ofValue document.value
  .ok {
    kind := c.kind
    description := c.description
    blueprints := List.zipWith Blueprint.ofTemplate c.resources (basesOf document)
    publish := c.publish }

end Design

/-- The designs by the kind of workload they are for, at most one for each kind. -/
abbrev Designs := Table String Design

namespace Designs

def register (designs : Designs) (d : Design) : Result Designs :=
  Registry.registered designs d.kind d

def registry (designs : Designs) : Registry :=
  designs.mapValues Design.composition

end Designs
end WorkloadConfig
