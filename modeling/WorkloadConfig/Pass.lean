import WorkloadConfig.Config.Loader
import WorkloadConfig.Fields
import WorkloadConfig.Outcome
import WorkloadConfig.Publishing
import WorkloadConfig.Registry
import WorkloadConfig.Resolution

namespace WorkloadConfig

structure Engine where
  registry : Registry
  settings : Settings := {}

/-- What surrounds a pass: the config source, how the store answers lookups, and before which stages
the pass is found cancelled. -/
structure Surroundings where
  source : ConfigSource
  availability : Availability := .answering
  cancelled : Phase → Bool := fun _ => false

/-- How far a pass has come, the store as it is now, and how often the source was asked. -/
structure Progress (σ : Type) where
  store : σ
  phase : Phase := .pending
  asked : Nat := 0

abbrev PassM (σ : Type) := ExceptT Failure (StateM (Progress σ))

/-- The field values of an instance and what the references among them were resolved to. -/
structure Resolution where
  fields : Assignment
  refs : Resolutions

namespace Engine
variable {σ : Type}

/-- Enters a stage unless the pass is cancelled before it. -/
def enter (around : Surroundings) (phase : Phase) : PassM σ Unit := do
  if around.cancelled phase then throw (.resolution (.cancelled phase.word))
  modify fun p => { p with phase }

/-- The composition of the instance's kind and the configuration of its namespace. -/
def load (e : Engine) (around : Surroundings) (i : Instance) :
    PassM σ (Composition × LoadedConfig) := do
  let composition ← e.registry.get i.kind
  let loader : ConfigLoader := { timeout := e.settings.lookupTimeout }
  let (outcome, loader) := loader.load around.source i.ns.text
  modify fun p => { p with asked := p.asked + loader.asked }
  return (composition, ← outcome)

/-- Only references left in the merged values are looked up. -/
def resolve [TargetLookup σ] (e : Engine) (around : Surroundings) (i : Instance)
    (c : Composition) (config : LoadedConfig) : PassM σ Resolution := do
  let fields ← (FieldLevels.mk i config.cluster config.project).resolve c.fields
  let fields := fields.mapValues ResolvedField.value
  let references ← Reference.collect (fields.map (·.2))
  let resolver : Resolver := ⟨i.ns.text, e.settings⟩
  let p ← get
  let (refs, lookups) := resolver.resolveAll references
    { store := p.store, cache := { timeout := e.settings.lookupTimeout }
      availability := around.availability }
  set { p with store := lookups.store }
  return ⟨fields, ← refs⟩

def store [OutputStore σ] (r : Record) : PassM σ Record := do
  let p ← get
  let (outcome, store) := OutputStore.publish p.store r
  set { p with store }
  outcome

/-- How resources are made of a composition and what was resolved for it. -/
abbrev Maker := Composition → Resolution → Result (List Value)

def maker (e : Engine) (i : Instance) : Maker := fun c r =>
  i.resources c e.settings.fieldManager r.fields r.refs

/-- The stages of a pass, with all resources at the end. -/
def stagesBy [OutputStore σ] (make : Maker) (e : Engine) (around : Surroundings) (i : Instance) :
    PassM σ (List Value) := do
  enter around .loadingConfig
  let (composition, config) ← e.load around i
  enter around .resolving
  let r ← e.resolve around i composition config
  enter around .patching
  let resources ← make composition r
  enter around .publishing
  let record ← i.record composition r.fields r.refs
  let _ ← store record
  return resources ++ [record.connectionManifest e.settings.fieldManager]

def stages [OutputStore σ] (e : Engine) (around : Surroundings) (i : Instance) :
    PassM σ (List Value) :=
  e.stagesBy (e.maker i) around i

def completed (i : Instance) (resources : List Value) : Result Outcome := do
  let rendered ← render resources
  .ok {
    name := i.name.text
    ns := i.ns.text
    phase := .complete
    resources
    rendered
    published := true
    conditions := [.ready resources.length] }

def stopped (i : Instance) (stage : Phase) (cause : Cause) : Outcome where
  name := i.name.text
  ns := i.ns.text
  phase := .failed
  failedStage := some stage
  conditions := [.unready cause]

/-- One pass of an instance over the store. -/
def passBy [OutputStore σ] (make : Maker) (e : Engine) (around : Surroundings) (i : Instance)
    (s : σ) : Result Outcome × Progress σ :=
  match e.stagesBy make around i { store := s } with
  | (.ok resources, p) => (completed i resources, p)
  | (.error (.resolution cause), p) => (.ok (stopped i p.phase cause), p)
  | (.error failure, p) => (.error failure, p)

def pass [OutputStore σ] (e : Engine) (around : Surroundings) (i : Instance) (s : σ) :
    Result Outcome × Progress σ :=
  e.passBy (e.maker i) around i s

end Engine
end WorkloadConfig
