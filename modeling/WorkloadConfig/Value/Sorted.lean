import WorkloadConfig.Sorting
import WorkloadConfig.Value.Agreement

namespace WorkloadConfig

/-- Anything but an integer that has too many digits to be written. -/
def Scalar.isShort : Scalar → Bool
  | .int n => n.natAbs < decimalBound digitLimit
  | _ => true

namespace Key

/-- Keys of one kind can be compared. -/
inductive Kind where
  | text
  | number
  | day
  | time (hasOffset : Bool)
deriving DecidableEq, Repr

def kind? : Key → Option Kind
  | .str _ => some .text
  | .scalar (.timestamp t) => some (match t.clock with
    | some clock => .time clock.offset.isSome
    | none => .day)
  | .scalar s => if s.quantity?.isSome then some .number else none
  | .tuple _ => none

/-- Keys that JSON has a text for. -/
def isWritable : Key → Bool
  | .scalar (.timestamp _) | .scalar (.bytes _) | .scalar (.unordered _) | .tuple _ => false
  | .scalar s => s.isShort

def le : Key → Key → Bool
  | .str a, .str b => decide (a ≤ b)
  | .scalar (.timestamp a), .scalar (.timestamp b) =>
    decide (a.instant (a.clock.getD default) ≤ b.instant (b.clock.getD default))
  | .scalar a, .scalar b => match a.quantity?, b.quantity? with
    | some a, some b => a.le b
    | a, _ => a.isSome
  | _, _ => true

end Key

namespace Value

/-- There is but one key, or all are of one kind. -/
def sameKind : List Key → Bool
  | [] | [_] => true
  | key :: rest => key.kind?.isSome && rest.all (·.kind? = key.kind?)

mutual

/-- Whether the keys of each map within are as asked for. -/
def everyMap (asked : List Key → Bool) : Value → Bool
  | .list items => everyMapItems asked items
  | .map entries => asked (Table.keys entries) && everyMapEntries asked entries
  | .scalar _ => true

def everyMapItems (asked : List Key → Bool) : List Value → Bool
  | [] => true
  | v :: rest => everyMap asked v && everyMapItems asked rest

def everyMapEntries (asked : List Key → Bool) : List (Key × Value) → Bool
  | [] => true
  | (_, v) :: rest => everyMap asked v && everyMapEntries asked rest

end

/-- No map within mixes the kinds of its keys. -/
def hasOrder (v : Value) : Bool :=
  v.everyMap sameKind

mutual

/-- JSON has a text for every key and every integer within. -/
def isWritable : Value → Bool
  | .scalar s => s.isShort
  | .list items => isWritableItems items
  | .map entries => isWritableEntries entries

def isWritableItems : List Value → Bool
  | [] => true
  | v :: rest => isWritable v && isWritableItems rest

def isWritableEntries : List (Key × Value) → Bool
  | [] => true
  | (k, v) :: rest => k.isWritable && isWritable v && isWritableEntries rest

end

mutual

def sortKeys : Value → Value
  | .list items => .list (sortKeysItems items)
  | .map entries => .map (Sorting.sort (fun a b => a.1.le b.1) (sortKeysEntries entries))
  | .scalar s => .scalar s

def sortKeysItems : List Value → List Value
  | [] => []
  | v :: rest => sortKeys v :: sortKeysItems rest

def sortKeysEntries : List (Key × Value) → List (Key × Value)
  | [] => []
  | (k, v) :: rest => (k, sortKeys v) :: sortKeysEntries rest

end

end Value
end WorkloadConfig
