import WorkloadConfig.Store.Basic
import WorkloadConfig.Store.Draft

namespace WorkloadConfig

/-- The limits are those of the reader of its documents. -/
structure DirectoryStore (limits : Json.Limits := {}) where
  tree : FileTree
  root : Location
  lockTimeout : Binary64
  now : String

namespace DirectoryStore
variable {limits : Json.Limits}

def documentAt (s : DirectoryStore limits) (ns name : String) : Location :=
  (s.root.join ns).join (name ++ ".json")

/-- Files that cannot be used make the record unusable. -/
def unusable {α : Type} (l : Location) : Result α → Result α
  | .error (.file e) => Result.fail (.store l.text (.file e))
  | outcome => outcome

def read (s : DirectoryStore limits) (ns name : String) : Result (Option Record) :=
  let l := s.documentAt ns name
  match s.tree.read l with
  | .ok text => match Record.ofDocument limits text with
    | .ok record => .ok (some record)
    | .error report => Result.fail (.store l.text (.invalidRecord report))
  | .error (.file ⟨.notFound, _⟩) => .ok none
  | .error failure => unusable l (.error failure)

/-- Takes the lock beside the location after making the directories on the way to it. -/
def lock (t : FileTree) (l : Location) (timeout : Binary64) : Result Place × FileTree :=
  let lockFile := l.withSuffix ".lock"
  match t.makeDirectories lockFile.parent with
  | (.error failure, t) => (.error failure, t)
  | (.ok _, t) =>
    match t.touch lockFile with
    | .error failure => (.error failure, t)
    | .ok t =>
      match t.placeOf lockFile with
      | .error failure => (.error failure, t)
      | .ok place =>
        match t.lock? place with
        | some t => (.ok place, t)
        | none => (Result.fail (.locked (.held lockFile.text timeout)), t)

/-- The document before, if there is one, is copied to the backup. -/
def backUp (t : FileTree) (l : Location) : Result FileTree :=
  match t.read l with
  | .ok text => t.write (l.withSuffix ".backup") text
  | .error (.file ⟨.notFound, _⟩) => .ok t
  | .error failure => .error failure

/-- Keeps the document before as a backup and writes the new one, if there is one to write. -/
def write (t : FileTree) (l : Location) (document : Result String) : Result Unit × FileTree :=
  match t.makeDirectories l.parent with
  | (.error failure, t) => (.error failure, t)
  | (.ok _, t) =>
    match backUp t l with
    | .error failure => (.error failure, t)
    | .ok t => match document with
      | .error failure => (.error failure, t)
      | .ok text => t.install l text

/-- What happens under the lock. -/
def replace (s : DirectoryStore limits) (l : Location) (r : Record) : Result Record × FileTree :=
  match s.read r.ns r.name with
  | .error failure => (.error failure, s.tree)
  | .ok held =>
    let stored := r.following held
    let (outcome, t) := write s.tree l (stored.document s.now)
    ((fun _ => stored) <$> outcome, t)

def publish (s : DirectoryStore limits) (r : Record) : Result Record × DirectoryStore limits :=
  let l := s.documentAt r.ns r.name
  match lock s.tree l s.lockTimeout with
  | (.error failure, t) => (unusable l (.error failure), { s with tree := t })
  | (.ok place, t) =>
    let (outcome, t) := ({ s with tree := t } : DirectoryStore limits).replace l r
    (unusable l outcome, { s with tree := t.unlock place })

end DirectoryStore

instance {limits : Json.Limits} : OutputStore (DirectoryStore limits) where
  get s ns name := ((·.map Target.ofRecord) <$> s.read ns name, s)
  read s ns name := s.read ns name
  publish s r := s.publish r

end WorkloadConfig
