import WorkloadConfig.Yaml.Tag
import WorkloadConfig.Yaml.Token

namespace WorkloadConfig.Yaml

/-- Lists and maps are told apart by numbers: one that is recalled by its name is the same. -/
inductive Node where
  | scalar (tag : Tag) (text : String)
  | list (id : Nat) (tag : Tag) (items : List Node)
  | map (id : Nat) (tag : Tag) (entries : List (Node × Node))
deriving Repr

/-- The tokens ahead, how the present document is read, the nodes with a name, and how many lists and
maps there have been. A name without a node is that of a node which is not yet complete. -/
structure Parse where
  tokens : List Token
  version : Version
  handles : Table String String := []
  named : Table String (Option Node) := []
  made : Nat := 0

/-- Steps of reading tokens. -/
abbrev Reading := StateT Parse (Except Flaw)

/-- Nodes lie no deeper than this within each other. -/
def deepest : Nat := 480

namespace Node

def malformed {α : Type} : Reading α :=
  fun _ => .error .malformed

/-- The token ahead, if the text can be read that far. -/
def peek : Reading Token := fun s =>
  match s.tokens with
  | [] => .error .malformed
  | .broken flaw :: _ => .error flaw
  | t :: _ => .ok (t, s)

def drop : Reading Unit :=
  modify fun s => { s with tokens := s.tokens.drop 1 }

/-- A number for a list or map. -/
def fresh : Reading Nat :=
  modifyGet fun s => (s.made, { s with made := s.made + 1 })

/-- Passes the token if it is the one ahead. -/
def accept (t : Token) : Reading Bool := do
  if (← peek) = t then
    drop
    return true
  return false

def expect (t : Token) : Reading Unit := do
  if !(← accept t) then malformed

/-- A name and a tag in front of a node. -/
structure Properties where
  name : Option String := none
  tag : Option String := none

def Properties.isEmpty (p : Properties) : Bool :=
  p.name.isNone && p.tag.isNone

/-- The tag in full. -/
def resolved (handle : Option String) (suffix : String) : Reading String := do
  match handle with
  | none => return suffix
  | some handle => match (← get).handles.find? handle with
    | some uri => return uri ++ suffix
    | none => malformed

def anchor? : Reading (Option String) := do
  match ← peek with
  | .anchor name => drop; return some name
  | _ => return none

def tag? : Reading (Option (Option String × String)) := do
  match ← peek with
  | .tag handle suffix => drop; return some (handle, suffix)
  | _ => return none

/-- A name and a tag in either order, at most one of each. -/
def properties : Reading Properties := do
  let first ← anchor?
  let tag ← tag?
  let name ← if first.isNone && tag.isSome then anchor? else pure first
  match tag with
  | some (handle, suffix) => return ⟨name, some (← resolved handle suffix)⟩
  | none => return ⟨name, none⟩

/-- A scalar without a tag of its own: plain ones show by their form what they stand for. -/
def ofScalar (p : Properties) (text : String) (isPlain : Bool) : Reading Node := do
  let formed := Tag.ofPlain (← get).version text
  match p.tag with
  | some "!" => return .scalar formed text
  | some uri => return .scalar (.ofUri uri) text
  | none => return .scalar (if isPlain then formed else .str) text

/-- The tag of a list or map. -/
def Properties.collectionTag (p : Properties) (usual : Tag) : Tag :=
  match p.tag with
  | some "!" | none => usual
  | some uri => .ofUri uri

/-- The scalar that stands where nothing is written. -/
def nothing : Reading Node :=
  ofScalar {} "" true

/-- Reads a node under its name. -/
def remember (p : Properties) (read : Reading Node) : Reading Node := do
  match p.name with
  | none => read
  | some name =>
    modify fun s => { s with named := s.named.put name none }
    let node ← read
    modify fun s => { s with named := s.named.put name (some node) }
    return node

/-- The node of the name. One that is part of itself has no end. -/
def recalled (name : String) : Reading Node := do
  match (← get).named.find? name with
  | some (some node) => return node
  | some none => fun _ => .error (.failing .endless)
  | none => malformed

/-- Where a node may stand: within a flow, in a block, or there as the value of a key, whose list
may stand at the key's own column. -/
inductive Position where
  | flow
  | block
  | blockValue
deriving DecidableEq

def endsEntry (t : Token) : Bool :=
  t = .key || t = .value || t = .blockEnd

/-- No key of a map is missing in the older version of the language. -/
def mayLackKey : Reading Bool := do
  return (← get).version = .oneTwo

mutual

/-- A node, with as much fuel as there may be steps, and the depth that is left. -/
def node : Nat → (depth : Nat) → Position → Reading Node
  | 0, _, _ => malformed
  | _, 0, _ => fun _ => .error (.failing .endless)
  | fuel + 1, depth + 1, position => do
    if let .recall name ← peek then
      drop
      return ← recalled name
    let p ← properties
    let inBlock := position ≠ .flow
    match ← peek with
    | .scalar text isPlain =>
      drop
      remember p (ofScalar p text isPlain)
    | .flowListStart =>
      drop
      remember p (return .list (← fresh) (p.collectionTag .list) (← flowItems fuel depth true))
    | .flowMapStart =>
      drop
      remember p (return .map (← fresh) (p.collectionTag .map) (← flowEntries fuel depth true))
    | t =>
      if t = .blockEntry && position = .blockValue then
        remember p (return .list (← fresh) (p.collectionTag .list) (← flatItems fuel depth))
      else if t = .blockListStart && inBlock then
        drop
        remember p (return .list (← fresh) (p.collectionTag .list) (← blockItems fuel depth))
      else if t = .blockMapStart && inBlock then
        drop
        remember p (return .map (← fresh) (p.collectionTag .map) (← blockEntries fuel depth))
      else if p.isEmpty then malformed
      else remember p (ofScalar p "" true)

/-- The items of a list that is a block of its own. -/
def blockItems : Nat → (depth : Nat) → Reading (List Node)
  | 0, _ => malformed
  | fuel + 1, depth => do
    if ← accept .blockEntry then
      let t ← peek
      let item ← if t = .blockEntry || t = .blockEnd then nothing else node fuel depth .block
      return item :: (← blockItems fuel depth)
    expect .blockEnd
    return []

/-- The items of a list at the column of the map that it belongs to. -/
def flatItems : Nat → (depth : Nat) → Reading (List Node)
  | 0, _ => malformed
  | fuel + 1, depth => do
    if ← accept .blockEntry then
      let t ← peek
      let item ← if t = .blockEntry || endsEntry t then nothing else node fuel depth .block
      return item :: (← flatItems fuel depth)
    return []

/-- The entries of a map that is a block. -/
def blockEntries : Nat → (depth : Nat) → Reading (List (Node × Node))
  | 0, _ => malformed
  | fuel + 1, depth => do
    if ← accept .blockEnd then return []
    let k ←
      if ← accept .key then
        if endsEntry (← peek) then nothing else node fuel depth .blockValue
      else if (← peek) = .value && (← mayLackKey) then nothing
      else malformed
    let v ←
      if ← accept .value then
        if endsEntry (← peek) then nothing else node fuel depth .blockValue
      else nothing
    return (k, v) :: (← blockEntries fuel depth)

/-- The value of an entry in a flow, before a comma or the end. -/
def flowValue : Nat → (depth : Nat) → (close : Token) → Reading Node
  | 0, _, _ => malformed
  | fuel + 1, depth, close => do
    if ← accept .value then
      let t ← peek
      if t = .flowEntry || t = close then nothing else node fuel depth .flow
    else nothing

/-- The key of an entry in a flow, behind its mark. -/
def flowKey : Nat → (depth : Nat) → (close : Token) → Reading Node
  | 0, _, _ => malformed
  | fuel + 1, depth, close => do
    let t ← peek
    if t = .value || t = .flowEntry || t = close then nothing else node fuel depth .flow

/-- The items of a list within brackets. One with a key is a map of one entry. -/
def flowItems : Nat → (depth : Nat) → (first : Bool) → Reading (List Node)
  | 0, _, _ => malformed
  | fuel + 1, depth, first => do
    if ← accept .flowListEnd then return []
    if !first then expect .flowEntry
    if ← accept .key then
      let k ← flowKey fuel (depth - 1) .flowListEnd
      let v ← flowValue fuel (depth - 1) .flowListEnd
      return .map (← fresh) .map [(k, v)] :: (← flowItems fuel depth false)
    if ← accept .flowListEnd then return []
    let item ← node fuel depth .flow
    return item :: (← flowItems fuel depth false)

/-- The entries of a map within braces. A key alone has nothing for its value. -/
def flowEntries : Nat → (depth : Nat) → (first : Bool) → Reading (List (Node × Node))
  | 0, _, _ => malformed
  | fuel + 1, depth, first => do
    if ← accept .flowMapEnd then return []
    if !first then expect .flowEntry
    if ← accept .key then
      let k ← flowKey fuel depth .flowMapEnd
      let v ← flowValue fuel depth .flowMapEnd
      return (k, v) :: (← flowEntries fuel depth false)
    if (← peek) = .value && (← mayLackKey) then
      let k ← nothing
      let v ← flowValue fuel depth .flowMapEnd
      return (k, v) :: (← flowEntries fuel depth false)
    if ← accept .flowMapEnd then return []
    let k ← node fuel depth .flow
    return (k, ← nothing) :: (← flowEntries fuel depth false)

end

end Node
end WorkloadConfig.Yaml
