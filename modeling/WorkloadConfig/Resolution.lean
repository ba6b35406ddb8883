import WorkloadConfig.Lookup
import WorkloadConfig.Reference.Leaves
import WorkloadConfig.Settings

namespace WorkloadConfig

/-- Resolves references for an instance in a namespace. Outputs are values; a connection, secret or
config is a pointer into the namespace itself, whatever other namespaces hold. -/
structure Resolver where
  ns : String
  settings : Settings

namespace Resolver

/-- An output of the target. -/
def output (target key : String) (found : Target) : Result Resolved :=
  match found.outputs.find? key with
  | some value => .ok (.literal value)
  | none => Result.fail (.keyNotFound target key found.outputs.keys)

/-- The resolution, provided that the name is one of those that the target lists. A target that lists
none is not checked. -/
def checked (target name : String) (listed : Option (List String)) (resolved : Resolved) :
    Result Resolved :=
  match listed with
  | some names =>
    if names.contains name then .ok resolved else Result.fail (.keyNotFound target name names)
  | none => .ok resolved

def connection (target key : String) (found : Target) : Result Resolved :=
  checked target key found.connectionKeys (.pointer ⟨found.connectionSecret, some key, .secret⟩)

/-- A resource that an instance of the expected kind manages. -/
def managed (expected : String) (source : PointerSource) (target resource : String)
    (key : Option String) (found : Target) : Result Resolved :=
  if found.kind = expected then
    checked target resource found.resources (.pointer ⟨target ++ "-" ++ resource, key, source⟩)
  else Result.fail (.kindMismatch target expected found.kind)

/-- What a reference stands for in the target that it leads to. -/
def shown (r : Resolver) : Reference → Target → Result Resolved
  | .output _ target key => output target key
  | .connection target key => connection target key
  | .secret target resource key => managed r.settings.secretsKind .secret target resource key
  | .config target resource key => managed r.settings.configsKind .config target resource key

/-- The namespace to fall back on, if there is one and it is another. -/
def fallback? (r : Resolver) : Option String :=
  let fallback := r.settings.fallbackNamespace
  if fallback ≠ "" && fallback ≠ r.ns then some fallback else none

section
variable {m : Type → Type} [Monad m] [MonadExceptOf Failure m]

/-- Where an output is looked for that the resolver's own namespace does not have. -/
def fallbackNamespace (r : Resolver) (find : Finder m) (target : String) : m String :=
  match r.fallback? with
  | some fallback => do
    if ← find.exists fallback target then return fallback
    else throw (.resolution (.targetNotFound target r.ns))
  | none => throw (.resolution (.targetNotFound target r.ns))

/-- Where an output is looked for: in the namespace it names, else in the resolver's own, else in
the one to fall back on. -/
def outputNamespace (r : Resolver) (find : Finder m) (target : String) :
    Option String → m String
  | some ns => return ns
  | none => do
    if ← find.exists r.ns target then return r.ns else r.fallbackNamespace find target

/-- Where the target of a reference is looked for. -/
def namespaceOf (r : Resolver) (find : Finder m) : Reference → m String
  | .output explicit target _ => r.outputNamespace find target explicit
  | _ => return r.ns

/-- What a reference stands for among the instances that can be found. -/
def resolveBy (r : Resolver) (find : Finder m) (reference : Reference) : m Resolved := do
  let ns ← r.namespaceOf find reference
  let found ← find.require ns reference.target
  MonadExcept.ofExcept (r.shown reference found)

end

variable {σ : Type} [TargetLookup σ]

def resolve (r : Resolver) : Reference → LookupM σ Resolved :=
  r.resolveBy Lookups.finder

/-- The outcome of every reference, one after the other. -/
def outcomes (r : Resolver) : List Reference → StateM (Lookups σ) (List (String × Result Resolved))
  | [] => return []
  | reference :: rest => do
    let outcome ← (r.resolve reference).run
    return (reference.text, outcome) :: (← r.outcomes rest)

/-- The resolutions, or the failure of the first reference that has one. -/
def gather : List (String × Result Resolved) → Result Resolutions
  | [] => .ok []
  | (text, outcome) :: rest => do
    let resolved ← outcome
    let others ← gather rest
    .ok ((text, resolved) :: others)

/-- Resolves every reference, also after one has failed. -/
def resolveAll (r : Resolver) (references : List Reference) : LookupM σ Resolutions := fun s =>
  let (all, s) := r.outcomes references.eraseDups s
  (gather all, s)

end Resolver
end WorkloadConfig
