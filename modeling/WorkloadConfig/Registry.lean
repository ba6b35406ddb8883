import WorkloadConfig.Composition

namespace WorkloadConfig

/-- The compositions by the kind of workload they are for, at most one for each kind. -/
abbrev Registry := Table String Composition

namespace Registry

/-- Adds what is for a kind unless there is something for it already. -/
def registered {α : Type} (t : Table String α) (kind : String) (a : α) : Result (Table String α) :=
  if t.contains kind then .error (.repeatedKind kind) else .ok (t.put kind a)

def register (r : Registry) (c : Composition) : Result Registry :=
  registered r c.kind c

def get (r : Registry) (kind : String) : Result Composition :=
  match r.find? kind with
  | some c => .ok c
  | none => Result.fail (.unknownKind kind)

def kinds (r : Registry) : List String :=
  Sorting.texts r.keys

/-- The compositions in the order of their kinds. -/
def inOrder (r : Registry) : List Composition :=
  r.kinds.filterMap r.find?

end Registry
end WorkloadConfig
