import WorkloadConfig.Design
import WorkloadConfig.Yaml.Files

namespace WorkloadConfig.Designs

/-- Adds the composition that a document of the file holds. An empty document holds none. -/
def addDocument (l : Location) (designs : Designs) (document : Linked) : Result Designs :=
  if document.value = .null then .ok designs else
    match Design.ofDocument document with
    | .error report => Result.fail (.config (.invalidComposition l.text report))
    | .ok design => match designs.register design with
      | .error (.repeatedKind kind) => Result.fail (.config (.repeatedKind l.text kind))
      | outcome => outcome

/-- All documents of a file are read before the first of them is added. -/
def addFile (t : FileTree) (designs : Designs) (l : Location) : Result Designs := do
  (← t.documents l).foldlM (addDocument l) designs

def ofFiles (t : FileTree) (l : Location) : Result Designs := do
  let files ← if ← t.checkDirectory l then t.documentFiles l else .ok [l]
  files.foldlM (addFile t) []

end WorkloadConfig.Designs
