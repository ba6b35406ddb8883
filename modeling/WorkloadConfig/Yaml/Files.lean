import WorkloadConfig.FileTree
import WorkloadConfig.Yaml.Stream

namespace WorkloadConfig.FileTree

def isDocumentName (name : String) : Bool :=
  ".yaml".toList.isSuffixOf name.toList || ".yml".toList.isSuffixOf name.toList

/-- The document files of a directory, and none of anything else. -/
def documentFiles (t : FileTree) (l : Location) : Result (List Location) := do
  return (Sorting.texts ((← t.children l).filter isDocumentName)).map l.join

/-- The documents of a file. Documents without a line that begins them are read by the given
version; the version of the last document is handed on. -/
def documentsFrom (version : Yaml.Version) (t : FileTree) (l : Location) :
    Result (List Linked × Yaml.Version) :=
  match t.read l with
  | .ok text => match Yaml.readFrom version text with
    | .ok found => .ok found
    | .error .malformed => Result.fail (.config (.unreadable l.text none))
    | .error (.failing failure) => .error failure
  | .error (.file e) => Result.fail (.config (.unreadable l.text (some e)))
  | .error failure => .error failure

def documents (t : FileTree) (l : Location) : Result (List Linked) :=
  Prod.fst <$> t.documentsFrom .oneTwo l

end WorkloadConfig.FileTree
