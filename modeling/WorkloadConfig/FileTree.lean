import WorkloadConfig.Failure
import WorkloadConfig.Text.Lines

namespace WorkloadConfig

/-- A path below a base directory, or from the root of all files where the base is empty. -/
structure Location where
  base : String
  segments : List String
deriving DecidableEq, Repr

namespace Location

def text (l : Location) : String :=
  if l.base = "" && l.segments = [] then "/"
  else l.segments.foldl (fun path segment => path ++ "/" ++ segment) l.base

/-- The bytes that the base directory counts in the length of a path. -/
def baseLength : Nat := 20

/-- The length of the path in bytes. -/
def length (l : Location) : Nat :=
  (if l.base = "" then 0 else baseLength) + (l.segments.map fun name => name.utf8ByteSize + 1).foldl (· + ·) 0

def partsOf (path : String) : List String :=
  ((path.toList.splitOn '/').map String.ofList).filter fun part => part ≠ "" && part ≠ "."

/-- The path below the location; a path from the root replaces it. -/
def join (l : Location) (path : String) : Location :=
  if path.toList.head? = some '/' then ⟨"", partsOf path⟩
  else ⟨l.base, l.segments ++ partsOf path⟩

def withSuffix (l : Location) (suffix : String) : Location :=
  match l.segments.getLast? with
  | some last => ⟨l.base, l.segments.dropLast ++ [last ++ suffix]⟩
  | none => ⟨l.base ++ suffix, []⟩

def parent (l : Location) : Location :=
  ⟨l.base, l.segments.dropLast⟩

def keep (l : Location) (n : Nat) : Location :=
  ⟨l.base, l.segments.take n⟩

def hasNul (l : Location) : Bool :=
  l.segments.any (·.toList.contains '\x00')

end Location

inductive Node where
  | directory
  | file (text : String)
deriving DecidableEq, Repr

/-- A place is the list of names that lead to it. -/
abbrev Place := List String

def isDrawnChar (c : Char) : Bool :=
  c.isLower || c.isDigit || c = '_'

/-- Eight characters drawn for the name of a file. -/
structure Draw where
  text : String
  valid : (text.length = 8 && text.toList.all isDrawnChar) = true
deriving DecidableEq

/-- What is drawn for a file, and again for each name before that is taken. -/
structure Draws where
  first : Draw := ⟨"00000000", Eq.refl true⟩
  others : List Draw := []

def Draws.all (draws : Draws) : List Draw :=
  draws.first :: draws.others

structure FileTree where
  nodes : Table Place Node := []
  locked : List Place := []
  draws : Draws := {}

namespace FileTree

/-- The base directory is always there. -/
def node? (t : FileTree) (place : Place) : Option Node :=
  if place = [] then some .directory else t.nodes.find? place

def refuse {α : Type} (refusal : FileRefusal) (l : Location) : Result α :=
  .error (.file ⟨refusal, l.text⟩)

def longestName : Nat := 255

def longestPath : Nat := 4095

/-- The place that names lead to from a place. Every step but the last must be a directory. -/
def walk (t : FileTree) (here : Place) : List String → Except FileRefusal Place
  | [] => .ok here
  | name :: rest =>
    match t.node? here with
    | none => .error .notFound
    | some (.file _) => .error .notDirectory
    | some .directory =>
      if name = ".." then
        if here = [] then .error .notFound else t.walk here.dropLast rest
      else if longestName < name.utf8ByteSize then .error .nameTooLong
      else t.walk (here ++ [name]) rest

def placeOf (t : FileTree) (l : Location) : Result Place :=
  if l.hasNul then .error (.nulInPath false)
  else if longestPath < l.length then refuse .nameTooLong l
  else if l.base = "" then refuse .notFound l
  else match t.walk [] l.segments with
    | .ok place => .ok place
    | .error refusal => refuse refusal l

/-- What is at the location. Of all that stands in the way only a length is a failure. -/
def look (t : FileTree) (l : Location) : Result (Option Node) :=
  match t.placeOf l with
  | .ok place => .ok (t.node? place)
  | .error (.file ⟨.nameTooLong, path⟩) => .error (.file ⟨.nameTooLong, path⟩)
  | .error _ => .ok none

def checkDirectory (t : FileTree) (l : Location) : Result Bool := do
  return (← t.look l) = some .directory

def checkFile (t : FileTree) (l : Location) : Result Bool := do
  match ← t.look l with
  | some (.file _) => return true
  | _ => return false

def nodeAt? (t : FileTree) (l : Location) : Option Node :=
  match t.placeOf l with
  | .ok place => t.node? place
  | .error _ => none

def isDirectory (t : FileTree) (l : Location) : Bool :=
  t.nodeAt? l = some .directory

def read (t : FileTree) (l : Location) : Result String := do
  match t.node? (← t.placeOf l) with
  | some (.file text) => .ok text
  | some .directory => refuse .isDirectory l
  | none => refuse .notFound l

/-- The text of a file with its lines ended by line feeds. -/
def readText (t : FileTree) (l : Location) : Result String := do
  return String.ofList (Text.withLineFeeds (← t.read l).toList)

/-- Writes a file whose directory is there. -/
def write (t : FileTree) (l : Location) (text : String) : Result FileTree := do
  let place ← t.placeOf l
  match t.node? place with
  | some .directory => refuse .isDirectory l
  | _ => .ok { t with nodes := t.nodes.put place (.file text) }

/-- Makes an empty file where there is nothing. -/
def create (t : FileTree) (l : Location) : Result FileTree := do
  if (t.node? (← t.placeOf l)).isSome then refuse .alreadyThere l else t.write l ""

/-- Makes an empty file unless one is there. -/
def touch (t : FileTree) (l : Location) : Result FileTree := do
  match t.node? (← t.placeOf l) with
  | some (.file _) => .ok t
  | _ => t.write l ""

def remove (t : FileTree) (l : Location) : Result FileTree := do
  let place ← t.placeOf l
  match t.node? place with
  | some (.file _) =>
    .ok { t with nodes := t.nodes.erase place, locked := t.locked.filter (· ≠ place) }
  | some .directory => refuse .isDirectory l
  | none => refuse .notFound l

/-- Removes the file if there is one. -/
def discard (t : FileTree) (l : Location) : Result FileTree :=
  match t.remove l with
  | .error (.file ⟨.notFound, _⟩) => .ok t
  | outcome => outcome

/-- Moves a file, with whoever has locked it, to where there is a file or nothing. Of the two locations a
refusal names the first. -/
def rename (t : FileTree) (l target : Location) : Result FileTree := do
  let place ← t.placeOf l
  let goal ← t.placeOf target
  match t.node? place with
  | some (.file text) =>
    if place = goal then .ok t
    else if t.node? goal = some .directory then refuse .isDirectory l
    else .ok { t with
      nodes := (t.nodes.erase place).put goal (.file text)
      locked := (t.locked.filter (· ≠ goal)).map fun held => if held = place then goal else held }
  | some .directory => refuse .isDirectory l
  | none => refuse .notFound l

def makeDirectory (t : FileTree) (l : Location) : Result FileTree := do
  if l.hasNul then .error (.nulInPath true)
  else
    let place ← t.placeOf l
    if (t.node? place).isSome then refuse .alreadyThere l
    else .ok { t with nodes := t.nodes.put place .directory }

/-- Whatever refuses a directory that is there already is no hindrance. -/
def settle (t : FileTree) (l : Location) : Result FileTree → Result Unit × FileTree
  | .ok t => (.ok (), t)
  | .error (.file e) => (if t.isDirectory l then .ok () else .error (.file e), t)
  | .error failure => (.error failure, t)

/-- Makes the directory of the first names of the location, after its parents where they are
missing. The directories made so far stay when a later one is refused. -/
def makeDown (l : Location) : Nat → FileTree → Result Unit × FileTree
  | 0, t => t.settle (l.keep 0) (t.makeDirectory (l.keep 0))
  | n + 1, t =>
    let here := l.keep (n + 1)
    match t.makeDirectory here with
    | .error (.file ⟨.notFound, _⟩) =>
      match makeDown l n t with
      | (.ok _, t) => match t.makeDirectory here with
        | .error (.file ⟨.notFound, path⟩) => (.error (.file ⟨.notFound, path⟩), t)
        | outcome => t.settle here outcome
      | failed => failed
    | outcome => t.settle here outcome

/-- Makes the directory and all above it. -/
def makeDirectories (t : FileTree) (l : Location) : Result Unit × FileTree :=
  makeDown l l.segments.length t

/-- The names in the directory, none where there is no such directory. -/
def children (t : FileTree) (l : Location) : Result (List String) := do
  if ← t.checkDirectory l then
    let place ← t.placeOf l
    return t.nodes.filterMap fun (other, _) =>
      if other.dropLast = place then other.getLast? else none
  else return []

/-- The places below the directory as paths from it, with a slash after those of directories. -/
def below (t : FileTree) (l : Location) : List String :=
  match t.placeOf l with
  | .ok place => Sorting.texts (t.nodes.filterMap fun (other, node) =>
      if place.isPrefixOf other && place ≠ other then
        let path := "/".intercalate (other.drop place.length)
        some (match node with
          | .directory => path ++ "/"
          | .file _ => path)
      else none)
  | .error _ => []

/-- The tree as it is once the file has been locked, or nothing if it is locked already. -/
def lock? (t : FileTree) (place : Place) : Option FileTree :=
  if t.locked.contains place then none else some { t with locked := place :: t.locked }

def unlock (t : FileTree) (place : Place) : FileTree :=
  { t with locked := t.locked.erase place }

end FileTree
end WorkloadConfig
