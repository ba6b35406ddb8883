import WorkloadConfig.Availability
import WorkloadConfig.Store.Basic

namespace WorkloadConfig

/-- Keeps every answer, also that there is no such instance, so a name is asked for only once; what
fails is not kept. -/
structure InstanceCache where
  timeout : Binary64
  entries : Table (String × String) (Option Target) := []
  external : Nat := 0

/-- A store that is asked through a cache, and how it answers. -/
structure Lookups (σ : Type) where
  store : σ
  cache : InstanceCache
  availability : Availability := .answering

/-- Runs that look instances up. What was looked up stays known when a run fails. -/
abbrev LookupM (σ : Type) := ExceptT Failure (StateM (Lookups σ))

namespace Lookups
variable {σ : Type} [TargetLookup σ]

/-- Asks the store and keeps the answer. -/
def ask (ns name : String) : LookupM σ (Option Target) := fun s =>
  let what := "instance " ++ ns ++ "/" ++ name
  match s.availability.obstacle? s.cache.timeout what with
  | some failure => (.error failure, s)
  | none =>
    match TargetLookup.get s.store ns name with
    | (.error failure, store) => (.error failure, { s with store })
    | (.ok found, store) =>
      (.ok found, { s with store, cache := { s.cache with
        entries := s.cache.entries.put (ns, name) found
        external := s.cache.external + 1 } })

def get (ns name : String) : LookupM σ (Option Target) := fun s =>
  match s.cache.entries.find? (ns, name) with
  | some found => (.ok found, s)
  | none => ask ns name s

end Lookups

/-- A way to find instances in the course of a run that may fail. -/
abbrev Finder (m : Type → Type) := String → String → m (Option Target)

namespace Finder
variable {m : Type → Type} [Monad m] [MonadExceptOf Failure m]

def «exists» (find : Finder m) (ns name : String) : m Bool := do
  return (← find ns name).isSome

/-- The target, whose absence is a failure. -/
def require (find : Finder m) (ns name : String) : m Target := do
  match ← find ns name with
  | some target => return target
  | none => throw (.resolution (.targetNotFound name ns))

end Finder

namespace Lookups
variable {σ : Type} [TargetLookup σ]

/-- Finding by asking the store through the cache. -/
def finder : Finder (LookupM σ) := get

def «exists» (ns name : String) : LookupM σ Bool :=
  finder.exists ns name

end Lookups
end WorkloadConfig
