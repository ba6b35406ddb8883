import WorkloadConfig.Config.Source
import WorkloadConfig.Yaml.Files

namespace WorkloadConfig.ConfigSource

/-- The records of the files in their order, each file read by the version that the one before it
ends with. -/
def recordsOf (t : FileTree) (version : Yaml.Version) : List Location → Result (List Value)
  | [] => .ok []
  | l :: rest => do
    let (documents, last) ← t.documentsFrom version l
    let others ← recordsOf t last rest
    .ok ((documents.map Linked.value).filter Value.isMap ++ others)

/-- The source as the files of the directory stand. -/
def ofDirectory (t : FileTree) (l : Location) : ConfigSource :=
  { records := t.documentFiles l >>= recordsOf t .oneTwo }

end WorkloadConfig.ConfigSource
