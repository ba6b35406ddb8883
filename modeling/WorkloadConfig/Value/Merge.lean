import WorkloadConfig.Value.Agreement

namespace WorkloadConfig.Value

mutual

/-- The value without the null entries of its maps; lists are taken as they are. -/
def stripNulls : Value → Value
  | .map entries => .map (stripNullEntries entries)
  | v => v

def stripNullEntries : List (Key × Value) → List (Key × Value)
  | [] => []
  | (_, .null) :: rest => stripNullEntries rest
  | (k, v) :: rest => (k, stripNulls v) :: stripNullEntries rest

end

mutual

/-- The value laid over the base. -/
def mergeOnto (base : Value) : Value → Value
  | .map entries =>
    match base with
    | .map below => .map (mergeEntries below entries)
    | _ => stripNulls (.map entries)
  | v => v

def mergeEntries (below : List (Key × Value)) : List (Key × Value) → List (Key × Value)
  | [] => below
  | (k, .null) :: rest => mergeEntries (Table.erase below (Key.alignedWith below k)) rest
  | (k, v) :: rest =>
    let k := Key.alignedWith below k
    mergeEntries (Table.put below k (match Table.find? below k with
      | some old => mergeOnto old v
      | none => stripNulls v)) rest

end

/-- The second value laid over the first. -/
def merge (base upper : Value) : Value := mergeOnto base upper

example : merge (.map [("a", .int 1), ("b", .map [("c", .null)])])
    (.map [("b", .map [("d", .int 2), ("c", .null)]), ("a", .null), ("e", .list [.null])]) =
    .map [("b", .map [("d", .int 2)]), ("e", .list [.null])] := by decide

end WorkloadConfig.Value
