import WorkloadConfig.Table
import WorkloadConfig.Timestamp

namespace WorkloadConfig

/-- Integers of any size are kept apart from floats; beside what JSON has there are timestamps, bytes
and collections without an order. -/
inductive Scalar where
  | null
  | bool (b : Bool)
  | int (n : Int)
  | float (x : Binary64)
  | str (text : String)
  | timestamp (t : Timestamp)
  | bytes (data : List UInt8)
  /-- A collection without an order, known by its text. -/
  | unordered (text : String)
deriving DecidableEq, Repr, Inhabited

/-- A scalar, or a tuple of scalars where a document has a list for a key. -/
inductive Key where
  | scalar (s : Scalar)
  | tuple (parts : List Scalar)
deriving DecidableEq, Repr, Inhabited

/-- How many digits an integer may have as a text. -/
def digitLimit : Nat := 4300

/-- The least number that has more decimal digits. -/
@[irreducible] def decimalBound (digits : Nat) : Nat := Nat.pow 10 digits

/-- The values of configuration documents, whose maps remember the order of their keys. -/
inductive Value where
  | scalar (s : Scalar)
  | list (items : List Value)
  | map (entries : List (Key × Value))
deriving Repr, Inhabited

namespace Key

@[match_pattern] abbrev str (text : String) : Key := .scalar (.str text)
@[match_pattern] abbrev int (n : Int) : Key := .scalar (.int n)
@[match_pattern] abbrev bool (b : Bool) : Key := .scalar (.bool b)

def isText : Key → Bool
  | .str _ => true
  | _ => false

end Key

instance : Coe String Key := ⟨.str⟩

namespace Value

@[match_pattern] abbrev null : Value := .scalar .null
@[match_pattern] abbrev bool (b : Bool) : Value := .scalar (.bool b)
@[match_pattern] abbrev int (n : Int) : Value := .scalar (.int n)
@[match_pattern] abbrev float (x : Binary64) : Value := .scalar (.float x)
@[match_pattern] abbrev str (text : String) : Value := .scalar (.str text)
@[match_pattern] abbrev bytes (data : List UInt8) : Value := .scalar (.bytes data)
@[match_pattern] abbrev timestamp (t : Timestamp) : Value := .scalar (.timestamp t)

mutual

def decEq : (v w : Value) → Decidable (v = w)
  | .scalar a, .scalar b => decidable_of_iff (a = b) (by simp)
  | .list a, .list b => match decEqItems a b with
    | isTrue h => isTrue (by rw [h])
    | isFalse h => isFalse (by simpa using h)
  | .map a, .map b => match decEqEntries a b with
    | isTrue h => isTrue (by rw [h])
    | isFalse h => isFalse (by simpa using h)
  | .scalar _, .list _ | .scalar _, .map _ | .list _, .scalar _ | .list _, .map _
  | .map _, .scalar _ | .map _, .list _ => isFalse (by simp)

def decEqItems : (v w : List Value) → Decidable (v = w)
  | [], [] => isTrue rfl
  | [], _ :: _ => isFalse (by simp)
  | _ :: _, [] => isFalse (by simp)
  | v :: vs, w :: ws => match decEq v w, decEqItems vs ws with
    | isTrue h, isTrue t => isTrue (by rw [h, t])
    | isFalse h, _ => isFalse (by simp [h])
    | _, isFalse t => isFalse (by simp [t])

def decEqEntries : (v w : List (Key × Value)) → Decidable (v = w)
  | [], [] => isTrue rfl
  | [], _ :: _ => isFalse (by simp)
  | _ :: _, [] => isFalse (by simp)
  | (k, v) :: vs, (l, w) :: ws =>
    if same : k = l then
      match decEq v w, decEqEntries vs ws with
      | isTrue h, isTrue t => isTrue (by rw [same, h, t])
      | isFalse h, _ => isFalse (by simp [h])
      | _, isFalse t => isFalse (by simp [t])
    else isFalse (by simp [same])

end

instance : DecidableEq Value := decEq

/-- A property of values holds of all if lists and maps have it as soon as their parts do. -/
@[elab_as_elim]
theorem induction {P : Value → Prop} (scalar : ∀ s, P (.scalar s))
    (list : ∀ items, (∀ v ∈ items, P v) → P (.list items))
    (map : ∀ entries, (∀ entry ∈ entries, P entry.2) → P (.map entries)) (v : Value) : P v := by
  refine Value.rec (motive_2 := fun items => ∀ v ∈ items, P v)
    (motive_3 := fun entries => ∀ entry ∈ entries, P entry.2) (motive_4 := fun entry => P entry.2)
    scalar list map ?_ ?_ ?_ ?_ ?_ v
  · simp
  · exact fun _ _ first others => List.forall_mem_cons.mpr ⟨first, others⟩
  · simp
  · exact fun _ _ first others => List.forall_mem_cons.mpr ⟨first, others⟩
  · exact fun _ _ ofValue => ofValue

/-- A map from texts. -/
def ofTable (t : Table String Value) : Value :=
  .map (t.map fun entry => (.str entry.1, entry.2))

def ofLabels (t : Table String String) : Value :=
  ofTable (t.mapValues .str)

/-- The entries of a map, and none of anything else. -/
def entries : Value → List (Key × Value)
  | .map entries => entries
  | _ => []

def isMap : Value → Bool
  | .map _ => true
  | _ => false

/-- What a missing entry of a map reads as. -/
def lookup (v : Value) (key : Key) : Value :=
  (Table.find? v.entries key).getD .null

def emptyCollection : String := "set()"

/-- Null, false, zero and empty texts, lists and maps count as nothing given. -/
def isGiven : Value → Bool
  | .null => false
  | .bool b => b
  | .int n => n ≠ 0
  | .float x => !x.isZero
  | .str text => text ≠ ""
  | .timestamp _ => true
  | .bytes data => data ≠ []
  | .scalar (.unordered text) => text ≠ emptyCollection
  | .list items => items ≠ []
  | .map entries => !entries.isEmpty

/-- Null or an empty text, list or map: no value for a field. -/
def isAbsent : Value → Bool
  | .null => true
  | .str text => text = ""
  | .list items => items = []
  | .map entries => entries.isEmpty
  | _ => false

end Value
end WorkloadConfig
