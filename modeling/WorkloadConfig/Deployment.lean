import WorkloadConfig.Config.Files
import WorkloadConfig.Design.Files
import WorkloadConfig.Pass
import WorkloadConfig.Store.Directory

namespace WorkloadConfig

/-- An engine set up from a directory:

    <directory>/.env            bindings of settings, optional
    <directory>/configs/        config records
    <directory>/compositions/   compositions

Published records are stored in a directory of their own. -/
structure Deployment where
  designs : Designs
  settings : Settings
  configs : Location
  records : Location

namespace Deployment

def stateDirectory : String := ".kresolve-state"

/-- The bindings of the settings file, none where there is no such file. -/
def bindings (t : FileTree) (directory : Location) (env : Table String String) :
    Result (Table String (Option String)) := do
  let file := directory.join ".env"
  if ← t.checkFile file then EnvFile.read env <$> t.read file else .ok []

/-- The settings of a directory. -/
def settingsOf (t : FileTree) (directory : Location) (overrides : Table String Value)
    (env : Table String String) : Result Settings := do
  Settings.checkNames overrides
  Settings.load overrides env (← bindings t directory env)

/-- The engine that the files of the directory describe, its records in the given directory or else
beside them. -/
def ofDirectory (t : FileTree) (directory : Location) (records : Option Location)
    (overrides : Table String Value) (env : Table String String) : Result Deployment := do
  Settings.checkNames overrides
  if !(← t.checkDirectory directory) then
    Result.fail (.config (.missingDirectory directory.text))
  else
    let settings ← settingsOf t directory overrides env
    let designs ← Designs.ofFiles t (directory.join "compositions")
    .ok {
      designs
      settings
      configs := directory.join "configs"
      records := records.getD (directory.join stateDirectory) }

def engine (d : Deployment) : Engine where
  registry := d.designs.registry
  settings := d.settings

/-- The config source as the files stand. -/
def source (d : Deployment) (t : FileTree) : ConfigSource :=
  .ofDirectory t d.configs

def store (d : Deployment) (t : FileTree) (now : String) : DirectoryStore where
  tree := t
  root := d.records
  lockTimeout := d.settings.lookupTimeout
  now

/-- Resources are made of the skeletons as they stand in the files. -/
def maker (d : Deployment) (i : Instance) : Engine.Maker := fun c r =>
  match d.designs.find? i.kind with
  | some design => i.resourcesOf design d.settings.fieldManager (r.fields.mapValues .plain) r.refs
  | none => d.engine.maker i c r

def pass {σ : Type} [OutputStore σ] (d : Deployment) (around : Surroundings) (i : Instance)
    (s : σ) : Result Outcome × Progress σ :=
  d.engine.passBy (d.maker i) around i s

end Deployment
end WorkloadConfig
