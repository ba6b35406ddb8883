import WorkloadConfig.Published

namespace WorkloadConfig

/-- Answers what a reference can see of an instance; that there is none is no failure. -/
class TargetLookup (σ : Type) where
  get : σ → (ns name : String) → Result (Option Target) × σ

/-- Keeps the last record published under each namespace and name. -/
class OutputStore (σ : Type) extends TargetLookup σ where
  read : σ → (ns name : String) → Result (Option Record)
  publish : σ → Record → Result Record × σ

/-- A lookup among targets that never change. -/
structure FixedTargets where
  targets : Table (String × String) Target

instance : TargetLookup FixedTargets where
  get fixed ns name := (.ok (fixed.targets.find? (ns, name)), fixed)

end WorkloadConfig
