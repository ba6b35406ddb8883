import WorkloadConfig.Yaml.Scan

namespace WorkloadConfig.Yaml

inductive Directive where
  | version (major minor : Nat)
  | handle (name uri : String)
  | other
deriving DecidableEq, Repr

inductive Token where
  | directive (d : Directive)
  /-- The line of hyphens, with the version that the document is read by. -/
  | documentStart (version : Version)
  /-- The line of points, and whether nothing but a comment follows on it. -/
  | documentEnd (alone : Bool)
  | streamEnd
  | blockListStart
  | blockMapStart
  | blockEnd
  | flowListStart
  | flowMapStart
  | flowListEnd
  | flowMapEnd
  | blockEntry
  | flowEntry
  | key
  | value
  | recall (name : String)
  | anchor (name : String)
  | tag (handle : Option String) (suffix : String)
  | scalar (text : String) (isPlain : Bool)
  /-- The text cannot be read any further. -/
  | broken (flaw : Flaw)
deriving DecidableEq, Repr

end WorkloadConfig.Yaml
