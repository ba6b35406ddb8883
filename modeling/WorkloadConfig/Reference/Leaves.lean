import WorkloadConfig.Reference.Basic

namespace WorkloadConfig

inductive PointerSource where
  | secret
  | config
deriving DecidableEq, Repr

/-- A reference to a resource that holds the value, which itself is never shown. -/
structure Pointer where
  resource : String
  key : Option String
  source : PointerSource
deriving DecidableEq, Repr

inductive Resolved where
  | literal (value : Value)
  | pointer (pointer : Pointer)
deriving DecidableEq, Repr

/-- Resolved references by their texts. -/
abbrev Resolutions := Table String Resolved

namespace Pointer

def name (p : Pointer) : Key × Value := ("name", .str p.resource)

/-- The field of a resource that refers to another resource, or to one key of it. -/
def field (p : Pointer) : Value :=
  match p.source, p.key with
  | .secret, none => .map [("secretRef", .map [p.name])]
  | .secret, some key => .map [("secretKeyRef", .map [p.name, ("key", .str key)])]
  | .config, none => .map [("configMapRef", .map [p.name])]
  | .config, some key => .map [("configMapKeyRef", .map [p.name, ("key", .str key)])]

end Pointer

namespace Value

mutual

/-- The text leaves in depth-first order; keys are no leaves. -/
def leaves : Value → List String
  | .str text => [text]
  | .list items => leavesOfItems items
  | .map entries => leavesOfEntries entries
  | _ => []

def leavesOfItems : List Value → List String
  | [] => []
  | v :: rest => leaves v ++ leavesOfItems rest

def leavesOfEntries : List (Key × Value) → List String
  | [] => []
  | (_, v) :: rest => leaves v ++ leavesOfEntries rest

end

end Value

namespace Reference

/-- Adds the reference of a leaf unless it has been found before. -/
def collectLeaf (found : List Reference) (leaf : String) : Result (List Reference) := do
  if found.any (·.text = leaf) then .ok found
  else match ← parse leaf with
    | some reference => .ok (found ++ [reference])
    | none => .ok found

/-- The distinct references among the leaves of the values, in the order of their first mention. The
first malformed one is an error. -/
def collect (values : List Value) : Result (List Reference) :=
  (values.flatMap Value.leaves).foldlM collectLeaf []

end Reference

namespace Resolutions

/-- What stands in the place of a leaf. -/
def replacement (refs : Resolutions) (onPointer : Pointer → Result Value) (text : String) :
    Result Value :=
  if Reference.isReference text then
    match Table.find? refs text with
    | some (.literal value) => .ok value
    | some (.pointer pointer) => onPointer pointer
    | none => .error (.unresolved text)
  else .ok (.str text)

mutual

/-- The value with each reference leaf replaced. What replaces a leaf is not looked through again.
-/
def inject (refs : Resolutions) (onPointer : Pointer → Result Value) : Value → Result Value
  | .str text => refs.replacement onPointer text
  | .list items => Value.list <$> refs.injectItems onPointer items
  | .map entries => Value.map <$> refs.injectEntries onPointer entries
  | v => .ok v

def injectItems (refs : Resolutions) (onPointer : Pointer → Result Value) :
    List Value → Result (List Value)
  | [] => .ok []
  | v :: rest => do
    let new ← refs.inject onPointer v
    let others ← refs.injectItems onPointer rest
    .ok (new :: others)

def injectEntries (refs : Resolutions) (onPointer : Pointer → Result Value) :
    List (Key × Value) → Result (List (Key × Value))
  | [] => .ok []
  | (k, v) :: rest => do
    let new ← refs.inject onPointer v
    let others ← refs.injectEntries onPointer rest
    .ok ((k, new) :: others)

end

/-- Pointers become fields that refer to their resources. -/
def injectFields (refs : Resolutions) (v : Value) : Result Value :=
  refs.inject (fun pointer => .ok pointer.field) v

end Resolutions
end WorkloadConfig
