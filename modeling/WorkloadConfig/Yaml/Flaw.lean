import WorkloadConfig.Failure

namespace WorkloadConfig.Yaml

/-- Why a text gives no documents: it is not well formed, or a value that it writes is none. -/
inductive Flaw where
  | malformed
  | failing (failure : Failure)
deriving DecidableEq, Repr, Inhabited

namespace Flaw

def badValue (message : String) : Flaw := .failing (.badValue message)

end Flaw
end WorkloadConfig.Yaml
