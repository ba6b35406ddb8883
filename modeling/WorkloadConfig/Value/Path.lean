import WorkloadConfig.Text.Quoted
import WorkloadConfig.Value.Basic

namespace WorkloadConfig

/-- Segments divided by points, none of them empty. -/
structure FieldPath where
  text : String
  valid : (text.toList.splitOn '.').all (· ≠ []) = true
deriving DecidableEq

namespace FieldPath

def segments (p : FieldPath) : List String :=
  (p.text.toList.splitOn '.').map String.ofList

def ofText? (text : String) : Option FieldPath :=
  if valid : (text.toList.splitOn '.').all (· ≠ []) = true then some ⟨text, valid⟩ else none

theorem ofText?_text (p : FieldPath) : ofText? p.text = some p := by
  simp only [ofText?, dif_pos p.valid]

def invalidMessage (text : String) : String :=
  "Invalid field path: " ++ Text.quoted text

/-- A proper ancestor of the other path. -/
def above (p q : FieldPath) : Bool :=
  p.segments.isPrefixOf q.segments && p.segments ≠ q.segments

/-- The distinct paths that lie below no other, in the order of their first mention. -/
def outermost (paths : List FieldPath) : List FieldPath :=
  (paths.filter fun p => !paths.any (·.above p)).eraseDups

end FieldPath

namespace Value

def get? : Value → List String → Option Value
  | v, [] => some v
  | .map entries, k :: rest => (Table.find? entries (.str k)).bind fun v => v.get? rest
  | _, _ :: _ => none

def set : Value → List String → Value → Value
  | _, [], new => new
  | v, k :: rest, new => .map (Table.put v.entries (.str k) ((v.lookup (.str k)).set rest new))

/-- The value at the path, null where there is none. -/
def valueAt (v : Value) (p : FieldPath) : Value :=
  (v.get? p.segments).getD .null

theorem get?_set (v : Value) (path : List String) (new : Value) :
    (v.set path new).get? path = some new := by
  induction path generalizing v with
  | nil => simp [set, get?]
  | cons k rest ih => simp [set, get?, Table.find?_put_self, ih]

end Value
end WorkloadConfig
