import WorkloadConfig.FileTree

namespace WorkloadConfig

/-- The hidden file beside the location, told from others by what was drawn. -/
def Location.draft (l : Location) (draw : Draw) : Location :=
  ⟨l.base, l.segments.dropLast ++ ["." ++ l.segments.getLast?.getD "" ++ "." ++ draw.text]⟩

namespace FileTree

def noDraftMessage : String :=
  "[Errno 17] No usable temporary file name found"

/-- Creates the first draft whose name is not taken. -/
def createDraft (t : FileTree) (l : Location) : List Draw → Result (Location × FileTree)
  | [] => Result.fail (.store l.text (.stated noDraftMessage))
  | draw :: rest =>
    match t.create (l.draft draw) with
    | .ok t => .ok (l.draft draw, t)
    | .error (.file ⟨.alreadyThere, _⟩) => t.createDraft l rest
    | .error failure => .error failure

/-- Writes the text to the draft and puts the draft in the place of the document. -/
def submit (t : FileTree) (draft l : Location) (text : String) : Result Unit × FileTree :=
  match t.write draft text with
  | .error failure => (.error failure, t)
  | .ok t => match t.rename draft l with
    | .error failure => (.error failure, t)
    | .ok t => (.ok (), t)

/-- Writes the document whole. What is left of the draft is discarded. -/
def install (t : FileTree) (l : Location) (text : String) : Result Unit × FileTree :=
  match t.createDraft l t.draws.all with
  | .error failure => (.error failure, t)
  | .ok (draft, t) =>
    let (outcome, t) := t.submit draft l text
    match t.discard draft with
    | .ok t => (outcome, t)
    | .error failure => (.error failure, t)

end FileTree
end WorkloadConfig
