import WorkloadConfig.Failure

namespace WorkloadConfig.Value

/-- The document with the value at the path. What is no map has no entries to write, and none to go
through on the way to them. -/
def write (v : Value) (p : FieldPath) (new : Value) : Result Value :=
  if v.isMap then .ok (v.set p.segments new)
  else if p.segments.length = 1 then .error .illTyped
  else .error .noSuchMember

end WorkloadConfig.Value
