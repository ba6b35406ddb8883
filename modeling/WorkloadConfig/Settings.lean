import WorkloadConfig.EnvFile
import WorkloadConfig.Schema

namespace WorkloadConfig

/-- Each is taken from the first of these places that gives it: the arguments of the call, the
environment, a file of bindings, the default. -/
structure Settings where
  lookupTimeout : Binary64 := .ofInt 5
  fallbackNamespace : String := "platform"
  secretsKind : String := "Secrets"
  configsKind : String := "Configs"
  maxWorkers : Int := 4
  fieldManager : String := "kresolve"
deriving DecidableEq

namespace Settings

def title : String := "EngineSettings"

def names : List String :=
  ["lookup_timeout", "fallback_namespace", "secrets_kind", "configs_kind", "max_workers",
    "field_manager"]

/-- The environment variable of a setting. -/
def variableFor (name : String) : String :=
  "KRESOLVE_" ++ name.toUpper

def positive : Schema.Reader Binary64 := fun v =>
  (Schema.number v).andThen fun x =>
    if x.isPositive then .valid x else .fault (.notAbove 0)

def atLeastOne : Schema.Reader Int := fun v =>
  (Schema.integer v).andThen fun n => if 1 ≤ n then .valid n else .fault (.below 1)

def defaults : Settings := {}

def read (given : Table String Value) : Checked Settings :=
  let entries := (Value.ofTable given).entries
  Settings.mk
    <$> Schema.fieldOr entries "lookup_timeout" defaults.lookupTimeout positive
    <*> Schema.fieldOr entries "fallback_namespace" defaults.fallbackNamespace Schema.text
    <*> Schema.fieldOr entries "secrets_kind" defaults.secretsKind Schema.text
    <*> Schema.fieldOr entries "configs_kind" defaults.configsKind Schema.text
    <*> Schema.fieldOr entries "max_workers" defaults.maxWorkers atLeastOne
    <*> Schema.fieldOr entries "field_manager" defaults.fieldManager Schema.text

/-- Lower case, in which the sign for kelvin is a letter. -/
def lowered (name : String) : String :=
  name.map fun c => if c = '\u212a' then 'k' else c.toLower

/-- The last variable that is spelled as the setting's, in whatever case. -/
def fromEnvironment? (env : Table String String) (name : String) : Option String :=
  (env.reverse.find? fun entry => lowered entry.1 = lowered (variableFor name)).map (·.2)

/-- Settings from arguments, which stand above the environment. -/
def ofArguments (env : Table String String) (arguments : Table String Value) :
    Except Report Settings :=
  let given : Table String Value := names.filterMap fun name =>
    (Table.find? arguments name).or ((fromEnvironment? env name).map .str) |>.map (name, ·)
  (read given).report title

/-- The value that a setting is loaded with, if any: an argument other than null, the variable in
its own spelling, or the binding of that name. -/
def chosen? (overrides : Table String Value) (env : Table String String)
    (bound : Table String (Option String)) (name : String) : Option Value :=
  match Table.find? overrides name with
  | some .null | none =>
    ((env.find? (variableFor name)).or ((bound.find? (variableFor name)).join)).map .str
  | some v => some v

/-- The name that a directory of settings is given by, which no override may have. -/
def directoryArgument : String := "config_dir"

/-- Overrides that do not take the directory's name. -/
def checkNames (overrides : Table String Value) : Result Unit :=
  if overrides.contains directoryArgument then .error .illTyped else .ok ()

/-- Settings from arguments, the environment and a file of bindings. An argument that no setting has
is refused even if it is null. -/
def load (overrides : Table String Value) (env : Table String String)
    (bound : Table String (Option String)) : Result Settings := do
  checkNames overrides
  let unknown := Sorting.texts (overrides.keys.filter (!names.contains ·))
  if unknown ≠ [] then Result.fail (.config (.unknownSettings unknown))
  else
    let given := names.filterMap fun name => (chosen? overrides env bound name).map (name, ·)
    match ofArguments env given with
    | .ok settings => .ok settings
    | .error report => Result.fail (.config (.invalidSettings report))

end Settings
end WorkloadConfig
