import WorkloadConfig.Failure

namespace WorkloadConfig

/-- How a collaborator behind a call answers. A call waits for its answer only so long. -/
inductive Availability where
  | answering
  | silent
  | timingOut
  | refusing
deriving DecidableEq, Repr

namespace Availability

/-- A wait is counted in nanoseconds by a signed word of sixty-four bits. There is none to count
where the timeout is not positive. -/
def isCountable (timeout : Binary64) : Bool :=
  !timeout.isPositive || (timeout.isFinite &&
    timeout.ratio.1 * 1000000000 < 0x8000000000000000 * timeout.ratio.2)

/-- Why a collaborator that does not answer gives nothing, if so. -/
def obstacle? (a : Availability) (timeout : Binary64) (what : String) : Option Failure :=
  match a with
  | answering => none
  | silent =>
    some (if isCountable timeout then .resolution (.lookupTimeout what timeout) else .tooLarge)
  | timingOut => some .timedOut
  | refusing => some (.refused "api down")

/-- The answer, if the collaborator gives one. -/
def bounded {α : Type} (a : Availability) (timeout : Binary64) (what : String)
    (answer : Result α) : Result α :=
  match a.obstacle? timeout what with
  | none => answer
  | some failure => .error failure

end Availability
end WorkloadConfig
