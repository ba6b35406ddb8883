import WorkloadConfig.Instance
import WorkloadConfig.Sorting
import WorkloadConfig.Value.Agreement

namespace WorkloadConfig

/-- Copies the value of a field to a place in the resource. A null default is none. -/
structure Patch where
  field : FieldPath
  place : FieldPath
  default : Value := .null
  required : Bool := false

/-- The skeleton of one resource with patches that copy field values into it. -/
structure Template where
  name : Label
  apiVersion : String := "v1"
  kind : String
  base : Table String Value := []
  patches : List Patch := []

/-- Names a field whose value other instances may refer to. -/
structure Publication where
  key : OutputKey
  fromField : FieldPath
  sensitive : Bool := false

/-- How one kind of workload turns into resources. -/
structure Composition where
  kind : String
  description : String := ""
  resources : List Template
  publish : List Publication := []

/-- What all patches that read one field say of it together. -/
structure Declaration where
  path : String
  default : Value := .null
  required : Bool := false

/-- Why the parts of a composition do not fit together. -/
inductive Inconsistency where
  | repeatedTemplates (names : List String)
  | conflictingDefaults (field : String)
  | undeclaredField (key field : String)
  | repeatedKey (key : String)
deriving DecidableEq, Repr

def Inconsistency.message : Inconsistency → String
  | repeatedTemplates names => "Duplicate resource template name(s): " ++ ", ".intercalate names
  | conflictingDefaults field => "Conflicting defaults for field '" ++ field ++ "'"
  | undeclaredField key field =>
    "Published key '" ++ key ++ "' reads undeclared field '" ++ field ++ "'"
  | repeatedKey key => "Duplicate published key '" ++ key ++ "'"

namespace Composition

def patches (c : Composition) : List Patch :=
  c.resources.flatMap Template.patches

def templateNames (c : Composition) : List String :=
  c.resources.map (·.name.text)

def repeatedNames (names : List String) : List String :=
  Sorting.texts (names.filter (fun n => names.count n > 1)).eraseDups

/-- Each default must agree with the one last given for its field. -/
def checkDefaults (seen : Table FieldPath Value) : List Patch → Except Inconsistency Unit
  | [] => .ok ()
  | p :: rest =>
    if p.default = .null then checkDefaults seen rest
    else if (seen.find? p.field).any (!·.agrees p.default) then
      .error (.conflictingDefaults p.field.text)
    else checkDefaults (seen.put p.field p.default) rest

def checkPublications (declared : List FieldPath) (seen : List String) :
    List Publication → Except Inconsistency Unit
  | [] => .ok ()
  | p :: rest =>
    if !declared.contains p.fromField then
      .error (.undeclaredField p.key.text p.fromField.text)
    else if seen.contains p.key.text then .error (.repeatedKey p.key.text)
    else checkPublications declared (p.key.text :: seen) rest

/-- Template names are distinct, the defaults of a field agree, and publications read declared
fields under distinct keys. -/
def check (c : Composition) : Except Inconsistency Unit :=
  let repeated := repeatedNames c.templateNames
  if repeated ≠ [] then .error (.repeatedTemplates repeated)
  else do
    checkDefaults [] c.patches
    checkPublications (c.patches.map Patch.field) [] c.publish

def declare (declared : Table String Declaration) (p : Patch) : Table String Declaration :=
  let path := p.field.text
  let old := (declared.find? path).getD ⟨path, .null, false⟩
  declared.put path ⟨path, if p.default = .null then old.default else p.default,
    old.required || p.required⟩

/-- The declared fields in the order of their first mention. -/
def fields (c : Composition) : List Declaration :=
  (c.patches.foldl declare []).map (·.2)

end Composition

namespace Patch

def read : Schema.Reader Patch :=
  Schema.object "FieldPatch" .given fun entries =>
    .also (Schema.strangers ["field", "to", "default", "required"] entries) <|
      Patch.mk
        <$> Schema.field entries "field" FieldPath.read
        <*> Schema.field entries "to" FieldPath.read
        <*> Schema.fieldOr entries "default" .null (Schema.anything .given)
        <*> Schema.fieldOr entries "required" false Schema.boolean

end Patch

def Template.read : Schema.Reader Template :=
  Schema.object "ResourceTemplate" .given fun entries =>
    .also (Schema.strangers ["name", "api_version", "kind", "base", "patches"] entries) <|
      Template.mk
        <$> Schema.field entries "name" Label.read
        <*> Schema.fieldOr entries "api_version" "v1" Schema.text
        <*> Schema.field entries "kind" Schema.text
        <*> Schema.fieldOr entries "base" [] (Schema.table .given (Schema.anything .given))
        <*> Schema.fieldOr entries "patches" [] (Schema.list .given Patch.read)

def Publication.read : Schema.Reader Publication :=
  Schema.object "PublishSpec" .given fun entries =>
    .also (Schema.strangers ["key", "from_field", "sensitive"] entries) <|
      Publication.mk
        <$> Schema.field entries "key" OutputKey.read
        <*> Schema.field entries "from_field" FieldPath.read
        <*> Schema.fieldOr entries "sensitive" false Schema.boolean

namespace Composition

def title : String := "Composition"

def someTemplates : Schema.Reader (List Template) := fun v =>
  (Schema.list .given Template.read v).andThen fun templates =>
    if templates.isEmpty then .fault (.tooFew 1) else .valid templates

def parts : Schema.Reader Composition :=
  Schema.object title .given fun entries =>
    .also (Schema.strangers ["kind", "description", "resources", "publish"] entries) <|
      Composition.mk
        <$> Schema.field entries "kind" Instance.kindOf
        <*> Schema.fieldOr entries "description" "" Schema.text
        <*> Schema.field entries "resources" someTemplates
        <*> Schema.fieldOr entries "publish" [] (Schema.list .given Publication.read)

/-- The parts are checked against each other only if each of them is valid. -/
def read : Schema.Reader Composition := fun v =>
  (parts v).andThen fun c => match c.check with
    | .ok _ => .valid c
    | .error flaw => .fault (.rule flaw.message)

def ofValue (v : Value) : Except Report Composition :=
  (read v).report title

end Composition
end WorkloadConfig
