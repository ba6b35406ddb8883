import WorkloadConfig.Value.Agreement
import WorkloadConfig.Value.Linked
import WorkloadConfig.Yaml.Node
import WorkloadConfig.Yaml.Scalar

namespace WorkloadConfig.Yaml

/-- A flaw and its depth. -/
abbrev Attempt (α : Type) := Except (Nat × Flaw) α

namespace Attempt

/-- Both parts, or the flaw that lies less deep. -/
def both {α β : Type} (a : Attempt α) (b : Attempt β) : Attempt (α × β) :=
  match a, b with
  | .ok a, .ok b => .ok (a, b)
  | .error flaw, .ok _ | .ok _, .error flaw => .error flaw
  | .error first, .error second => .error (if second.1 < first.1 then second else first)

def atDepth {α : Type} (depth : Nat) : Except Flaw α → Attempt α
  | .ok a => .ok a
  | .error flaw => .error (depth, flaw)

end Attempt

namespace Content

/-- The key that a value makes: a scalar itself, a list of scalars a tuple. -/
def key : Value → Except Flaw Key
  | .scalar (.unordered _) => .error .malformed
  | .scalar s => .ok (.scalar s)
  | .list items =>
    match items.mapM fun | .scalar s => some s | _ => none with
    | some parts => .ok (.tuple parts)
    | none => .error (.failing .illTyped)
  | .map _ => .error .malformed

def isMergeKey : Node → Bool
  | .scalar .merge _ => true
  | _ => false

def agreesWithOne (keys : List Key) (k : Key) : Bool :=
  keys.any (·.agrees k)

/-- The entries of a map: those that it takes over, below its own. -/
def table (merged own : List (Key × Linked)) : List (Key × Linked) :=
  if merged.isEmpty then own
  else (merged ++ own).foldl Key.putAligned (merged.foldl Key.putAligned [])

/-- A map, or the set of its keys. -/
def collected (id : Nat) (tag : Tag) (entries : List (Key × Linked)) : Linked :=
  if tag ≠ .set then .map id entries
  else if entries.isEmpty then .scalar (.unordered Value.emptyCollection)
  else .scalar (.unordered ("\x7b" ++ ", ".intercalate (entries.map (·.1.shown)) ++ "\x7d"))

/-- A map of the entries in their order, all under scalars that do not agree. -/
def orderedMap (id : Nat) (done : List (Key × Linked)) :
    List (Linked × Linked) → Except Flaw Linked
  | [] => .ok (.map id done)
  | (.scalar k, v) :: rest =>
    if agreesWithOne (Table.keys done) (.scalar k) then .error (.failing .unmetAssumption)
    else orderedMap id (done ++ [(.scalar k, v)]) rest
  | _ :: _ => .error (.failing .illTyped)

mutual

/-- Whether a map has any entries, its own or others'. There is no saying where something other than
maps is to be taken over, or where more is after some entries have been. -/
def hasEntries? : Node → Option Bool
  | .map _ _ entries => hasEntriesIn? false false entries
  | _ => none

def someHasEntries? : List Node → Option Bool
  | [] => some false
  | node :: rest => do
    let here ← hasEntries? node
    let there ← someHasEntries? rest
    return here || there

def hasEntriesIn? (merged own : Bool) : List (Node × Node) → Option Bool
  | [] => some (merged || own)
  | (k, v) :: rest =>
    if isMergeKey k then
      if merged then none
      else match v with
        | .map _ _ entries => do hasEntriesIn? (← hasEntriesIn? false false entries) own rest
        | .list _ _ items => do hasEntriesIn? (← someHasEntries? items) own rest
        | .scalar _ _ => none
    else hasEntriesIn? merged true rest

end

mutual

/-- The value of a node. The parts of a list or map lie one step deeper, unless it is part of a key.
-/
def value (version : Version) (inKey : Bool) : (depth : Nat) → Node → Attempt Linked
  | depth, .scalar tag text => .atDepth depth (Linked.scalar <$> scalar version tag text)
  | depth, .list id tag items =>
    let inner := if inKey then depth else depth + 1
    if tag = .list then Linked.list <$> values version inKey inner items
    else if tag = .orderedMap then
      pairs version inKey inner items >>= fun found => .atDepth inner (orderedMap id [] found)
    else if tag = .pairs then
      (fun found => Linked.list (found.map fun (k, v) => .list [k, v])) <$>
        pairs version inKey inner items
    else .error (if tag.isCollection then inner else depth, .malformed)
  | depth, .map id tag entries =>
    let inner := if inKey then depth else depth + 1
    if tag ≠ .map && tag ≠ .set then .error (if tag.isCollection then inner else depth, .malformed)
    else match hasEntriesIn? false false entries with
      | none => .error (inner, .malformed)
      | some _ =>
        let merged := taken version inKey inner entries
        let free := match merged with
          | .ok [] => true
          | _ => false
        (fun (merged, own) => collected id tag (table merged own)) <$>
          merged.both (own version inKey inner free [] entries)

def values (version : Version) (inKey : Bool) : (depth : Nat) → List Node → Attempt (List Linked)
  | _, [] => .ok []
  | depth, node :: rest =>
    (fun (v, vs) => v :: vs) <$>
      (value version inKey depth node).both (values version inKey depth rest)

/-- The keys and values of a list of maps with one entry each. -/
def pairs (version : Version) (inKey : Bool) :
    (depth : Nat) → List Node → Attempt (List (Linked × Linked))
  | _, [] => .ok []
  | depth, .map _ _ [(k, v)] :: rest =>
    (fun (entry, entries) => entry :: entries) <$>
      ((value version inKey depth k).both (value version inKey depth v)).both
        (pairs version inKey depth rest)
  | depth, _ :: _ => .error (depth, .malformed)

/-- The entries of a map under keys other than merge keys; `distinct` asks that no two of these
agree. -/
def own (version : Version) (inKey : Bool) :
    (depth : Nat) → (distinct : Bool) → (seen : List Key) → List (Node × Node) →
      Attempt (List (Key × Linked))
  | _, _, _, [] => .ok []
  | depth, distinct, seen, (k, v) :: rest =>
    if isMergeKey k then own version inKey depth distinct seen rest
    else
      let k : Attempt Key := match k with
        | .scalar .value text => .ok (.str text)
        | k => value version true depth k >>= fun v => .atDepth depth (key v.value)
      let v := value version inKey depth v
      match k with
      | .error flaw =>
        (fun (entry, rest) => entry :: rest) <$>
          Attempt.both (.error flaw) (own version inKey depth distinct seen rest)
      | .ok k =>
        let repeated := distinct && agreesWithOne seen k
        let entry := Prod.fst <$> v.both (if repeated then .error (depth, .malformed) else .ok ())
        (fun (v, rest) => (k, v) :: rest) <$>
          entry.both (own version inKey depth distinct (k :: seen) rest)

/-- The entries that a map takes over from others. -/
def taken (version : Version) (inKey : Bool) :
    (depth : Nat) → List (Node × Node) → Attempt (List (Key × Linked))
  | _, [] => .ok []
  | depth, (k, v) :: rest =>
    if isMergeKey k then
      (fun (here, there) => here ++ there) <$>
        (offered version inKey depth v).both (taken version inKey depth rest)
    else taken version inKey depth rest

/-- The entries that a node offers to a map which takes them over, those of a list of maps from the
last to the first. -/
def offered (version : Version) (inKey : Bool) :
    (depth : Nat) → Node → Attempt (List (Key × Linked))
  | depth, .map _ _ entries =>
    (fun (merged, own) => merged ++ own) <$>
      (taken version inKey depth entries).both (own version inKey depth false [] entries)
  | depth, .list _ _ items => offeredItems version inKey depth items
  | _, .scalar _ _ => .ok []

def offeredItems (version : Version) (inKey : Bool) :
    (depth : Nat) → List Node → Attempt (List (Key × Linked))
  | _, [] => .ok []
  | depth, node :: rest =>
    (fun (there, here) => there ++ here) <$>
      (offeredItems version inKey depth rest).both (offered version inKey depth node)

end

/-- The value of a document. -/
def ofNode (version : Version) (node : Node) : Except Flaw Linked :=
  match value version false 0 node with
  | .ok v => .ok v
  | .error (_, flaw) => .error flaw

end Content
end WorkloadConfig.Yaml
