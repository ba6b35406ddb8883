import WorkloadConfig.Value.Path

namespace WorkloadConfig

/-- A value whose maps are told apart by numbers. What is written into a map that stands at several
places shows at each of them. -/
inductive Linked where
  | scalar (s : Scalar)
  | list (items : List Linked)
  | map (id : Nat) (entries : List (Key × Linked))
deriving Repr, Inhabited

namespace Linked

@[match_pattern] abbrev str (text : String) : Linked := .scalar (.str text)
@[match_pattern] abbrev int (n : Int) : Linked := .scalar (.int n)

/-- A property of values holds of all if lists and maps have it as soon as their parts do. -/
@[elab_as_elim]
theorem induction {P : Linked → Prop} (scalar : ∀ s, P (.scalar s))
    (list : ∀ items, (∀ v ∈ items, P v) → P (.list items))
    (map : ∀ id entries, (∀ entry ∈ entries, P entry.2) → P (.map id entries)) (v : Linked) : P v := by
  refine Linked.rec (motive_2 := fun items => ∀ v ∈ items, P v)
    (motive_3 := fun entries => ∀ entry ∈ entries, P entry.2) (motive_4 := fun entry => P entry.2)
    scalar list map ?_ ?_ ?_ ?_ ?_ v
  · simp
  · exact fun _ _ first others => List.forall_mem_cons.mpr ⟨first, others⟩
  · simp
  · exact fun _ _ first others => List.forall_mem_cons.mpr ⟨first, others⟩
  · exact fun _ _ ofValue => ofValue

mutual

/-- The value that is read, whichever of its maps are the same. -/
def value : Linked → Value
  | .scalar s => .scalar s
  | .list items => .list (valueItems items)
  | .map _ entries => .map (valueEntries entries)

def valueItems : List Linked → List Value
  | [] => []
  | v :: rest => value v :: valueItems rest

def valueEntries : List (Key × Linked) → List (Key × Value)
  | [] => []
  | (k, v) :: rest => (k, value v) :: valueEntries rest

end

mutual

/-- The maps within, each as often as it stands there. -/
def ids : Linked → List Nat
  | .scalar _ => []
  | .list items => idsOfItems items
  | .map id entries => id :: idsOfEntries entries

def idsOfItems : List Linked → List Nat
  | [] => []
  | v :: rest => ids v ++ idsOfItems rest

def idsOfEntries : List (Key × Linked) → List Nat
  | [] => []
  | (_, v) :: rest => ids v ++ idsOfEntries rest

end

/-- A number above those of all maps within. -/
def next (v : Linked) : Nat :=
  v.ids.foldr (fun id next => max (id + 1) next) 0

mutual

/-- A copy of the value, whose maps are the same as each other where they were. -/
def raise (n : Nat) : Linked → Linked
  | .scalar s => .scalar s
  | .list items => .list (raiseItems n items)
  | .map id entries => .map (n + id) (raiseEntries n entries)

def raiseItems (n : Nat) : List Linked → List Linked
  | [] => []
  | v :: rest => raise n v :: raiseItems n rest

def raiseEntries (n : Nat) : List (Key × Linked) → List (Key × Linked)
  | [] => []
  | (k, v) :: rest => (k, raise n v) :: raiseEntries n rest

end

mutual

/-- The value with a map of its own at each place, numbered from the given number, and the number that
comes after. -/
def numbered (n : Nat) : Value → Linked × Nat
  | .scalar s => (.scalar s, n)
  | .list items =>
    let (items, n) := numberedItems n items
    (.list items, n)
  | .map entries =>
    let (entries, m) := numberedEntries (n + 1) entries
    (.map n entries, m)

def numberedItems (n : Nat) : List Value → List Linked × Nat
  | [] => ([], n)
  | v :: rest =>
    let (v, n) := numbered n v
    let (rest, n) := numberedItems n rest
    (v :: rest, n)

def numberedEntries (n : Nat) : List (Key × Value) → List (Key × Linked) × Nat
  | [] => ([], n)
  | (k, v) :: rest =>
    let (v, n) := numbered n v
    let (rest, n) := numberedEntries n rest
    ((k, v) :: rest, n)

end

/-- The value with a map of its own at each place. -/
def plain (v : Value) : Linked :=
  (numbered 0 v).1

mutual

/-- Writes an entry of the map with the number wherever that map stands. -/
def assign (id : Nat) (key : Key) (new : Linked) : Linked → Linked
  | .scalar s => .scalar s
  | .list items => .list (assignItems id key new items)
  | .map own entries =>
    let entries := assignEntries id key new entries
    .map own (if own = id then Table.put entries key new else entries)

def assignItems (id : Nat) (key : Key) (new : Linked) : List Linked → List Linked
  | [] => []
  | v :: rest => assign id key new v :: assignItems id key new rest

def assignEntries (id : Nat) (key : Key) (new : Linked) :
    List (Key × Linked) → List (Key × Linked)
  | [] => []
  | (k, v) :: rest => (k, assign id key new v) :: assignEntries id key new rest

end

/-- The last map on the way along the path, the key to be written in it and what is left of the
path. -/
def landing : Linked → List String → Option (Nat × String × List String)
  | .map id entries, k :: rest =>
    some (((Table.find? entries (.str k)).bind fun v => v.landing rest).getD (id, k, rest))
  | _, _ => none

/-- The value under new maps along the path. -/
def nest (n : Nat) : List String → Linked → Linked
  | [], new => new
  | k :: rest, new => .map n [(.str k, nest (n + 1) rest new)]

/-- Writes at the path, in the maps that are there as far as there are any. -/
def set (v : Linked) (path : List String) (new : Linked) : Linked :=
  match v.landing path with
  | some (id, key, rest) => assign id (.str key) (nest (max v.next new.next) rest new) v
  | none => nest (max v.next new.next) path new

/-- Writes a copy at the path. -/
def place (v : Linked) (path : List String) (new : Linked) : Linked :=
  v.set path (new.raise v.next)

/-- A map of its own from texts. -/
def ofTable (t : Table String Linked) : Linked :=
  let entries := t.map fun entry => (Key.str entry.1, entry.2)
  .map (Linked.list (t.map (·.2))).next entries

/-- The entries of a map, and none of anything else. -/
def entries : Linked → List (Key × Linked)
  | .map _ entries => entries
  | _ => []

end Linked
end WorkloadConfig
