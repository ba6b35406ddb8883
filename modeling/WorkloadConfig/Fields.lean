import WorkloadConfig.Composition
import WorkloadConfig.Config.Record
import WorkloadConfig.Value.Merge

namespace WorkloadConfig

/-- Levels of precedence, the lowest first. -/
inductive Level where
  | composition
  | cluster
  | spec
  | project
deriving DecidableEq, Repr

namespace Level

def word : Level → String
  | composition => "composition"
  | cluster => "cluster"
  | spec => "spec"
  | project => "project"

/-- Null gives no value, and in the spec neither does an empty text, list or map. -/
def passesOver : Level → Value → Bool
  | spec, v => v.isAbsent
  | _, v => v = .null

end Level

structure ResolvedField where
  path : String
  value : Value
  sources : List Level

/-- What the levels of one instance are. -/
structure FieldLevels where
  inst : Instance
  cluster : ClusterConfig
  project : Option ProjectConfig

namespace FieldLevels

/-- What every level says of a field, the lowest first. -/
def candidates (levels : FieldLevels) (d : Declaration) : Result (List (Level × Value)) :=
  match FieldPath.ofText? d.path with
  | none => .error (.badPath d.path)
  | some path => .ok [
      (.composition, d.default),
      (.cluster, levels.cluster.defaultFor levels.inst.kind d.path),
      (.spec, levels.inst.specValue path),
      (.project, match levels.project with
        | some project => project.overrideFor levels.inst.name.text d.path
        | none => .null)]

/-- The candidates that give a value. -/
def giving (candidates : List (Level × Value)) : List (Level × Value) :=
  candidates.filter fun (level, v) => !level.passesOver v

def layered (given : List (Level × Value)) : Value :=
  given.foldl (fun base (_, v) => base.merge v) .null

/-- The value of one field, if any level gives one. -/
def resolveField (levels : FieldLevels) (d : Declaration) : Result (Option ResolvedField) := do
  let given := giving (← levels.candidates d)
  if given = [] then
    if d.required then Result.fail (.missingValue d.path) else .ok none
  else .ok (some ⟨d.path, layered given, given.map (·.1)⟩)

/-- The values of all fields that have one, by their paths. -/
def resolve (levels : FieldLevels) : List Declaration → Result (Table String ResolvedField)
  | declarations => declarations.foldlM (fun fields d => do
      match ← levels.resolveField d with
      | some field => .ok (fields.put d.path field)
      | none => .ok fields) []

end FieldLevels
end WorkloadConfig
