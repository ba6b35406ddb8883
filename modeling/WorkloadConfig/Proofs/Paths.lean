import WorkloadConfig.Reference.Leaves
import WorkloadConfig.Value.Path

namespace WorkloadConfig.Value

theorem get?_cons (v : Value) (k : String) (rest : List String) :
    v.get? (k :: rest) = (Table.find? v.entries (.str k)).bind (·.get? rest) := by
  cases v <;> rfl

theorem get?_append (v : Value) (path rest : List String) :
    v.get? (path ++ rest) = (v.get? path).bind (·.get? rest) := by
  induction path generalizing v with
  | nil => simp [get?]
  | cons k path ih =>
    simp only [List.cons_append, get?_cons, Option.bind_assoc, ih]

theorem get?_null (rest : List String) : (Value.null.get? rest).getD .null = .null := by
  cases rest <;> rfl

theorem set_cons (v : Value) (k : String) (rest : List String) (new : Value) :
    v.set (k :: rest) new =
      .map (Table.put v.entries (.str k) ((v.lookup (.str k)).set rest new)) := rfl

/-- Below its path a writing is read as what was written. -/
theorem get?_set_append (v : Value) (path rest : List String) (new : Value) :
    (v.set path new).get? (path ++ rest) = new.get? rest := by
  rw [get?_append, get?_set, Option.bind_some]

/-- Above its path a writing is read as the part there with the rest of the path written. -/
theorem get?_set_above (v : Value) (path rest : List String) (new : Value) :
    (v.set (path ++ rest) new).get? path = some (((v.get? path).getD .null).set rest new) := by
  induction path generalizing v with
  | nil => simp [get?]
  | cons k path ih =>
    rw [List.cons_append, set_cons, get?_cons, entries, Table.find?_put_self, Option.bind_some, ih,
      get?_cons, lookup]
    cases Table.find? v.entries (.str k) with
    | none => simp [get?_null]
    | some part => simp

/-- A writing is not seen at a path that lies neither above nor below its own. -/
theorem get?_set_apart (v : Value) {path other : List String} (new : Value)
    (notBelow : ¬ path <+: other) (notAbove : ¬ other <+: path) :
    (v.set path new).get? other = v.get? other := by
  induction path generalizing v other with
  | nil => exact absurd List.nil_prefix notBelow
  | cons k path ih =>
    cases other with
    | nil => exact absurd List.nil_prefix notAbove
    | cons l other =>
      rw [set_cons, get?_cons, get?_cons, entries]
      by_cases same : l = k
      · subst same
        simp only [List.cons_prefix_cons, true_and] at notBelow notAbove
        rw [Table.find?_put_self, Option.bind_some, ih _ notBelow notAbove, lookup]
        cases Table.find? v.entries (.str l) with
        | some part => rfl
        | none =>
          cases other with
          | nil => exact absurd List.nil_prefix notAbove
          | cons m rest => rfl
      · rw [Table.find?_put_of_ne _ _ (by simpa using same)]

theorem leavesOfItems_eq (items : List Value) : leavesOfItems items = items.flatMap leaves := by
  induction items with
  | nil => rfl
  | cons v rest ih => rw [leavesOfItems, List.flatMap_cons, ih]

theorem mem_leavesOfItems {items : List Value} {leaf : String} :
    leaf ∈ leavesOfItems items ↔ ∃ v ∈ items, leaf ∈ v.leaves := by
  rw [leavesOfItems_eq, List.mem_flatMap]

theorem mem_leavesOfEntries {entries : List (Key × Value)} {leaf : String} :
    leaf ∈ leavesOfEntries entries ↔ ∃ entry ∈ entries, leaf ∈ entry.2.leaves := by
  induction entries with
  | nil => simp [leavesOfEntries]
  | cons entry rest ih => simp [leavesOfEntries, ih]

theorem mem_leaves_of_entry {v : Value} {entry : Key × Value} {leaf : String}
    (member : entry ∈ v.entries) (within : leaf ∈ entry.2.leaves) : leaf ∈ v.leaves := by
  cases v with
  | scalar _ | list _ => cases member
  | map entries => exact mem_leavesOfEntries.mpr ⟨entry, member, within⟩

theorem mem_leaves_of_get? {v part : Value} {path : List String} {leaf : String}
    (found : v.get? path = some part) (within : leaf ∈ part.leaves) : leaf ∈ v.leaves := by
  induction path generalizing v with
  | nil =>
    cases found
    exact within
  | cons k path ih =>
    rw [get?_cons, Option.bind_eq_some_iff] at found
    obtain ⟨child, here, found⟩ := found
    exact mem_leaves_of_entry (Table.mem_of_find? here) (ih found)

theorem mem_leaves_of_lookup {v : Value} {key : Key} {leaf : String}
    (within : leaf ∈ (v.lookup key).leaves) : leaf ∈ v.leaves := by
  unfold lookup at within
  cases found : Table.find? v.entries key with
  | none => simp [found, leaves] at within
  | some part =>
    rw [found] at within
    exact mem_leaves_of_entry (Table.mem_of_find? found) within

/-- No leaf comes from anywhere but the value before and what was written. -/
theorem mem_leaves_of_set {v new : Value} {path : List String} {leaf : String}
    (within : leaf ∈ (v.set path new).leaves) : leaf ∈ v.leaves ∨ leaf ∈ new.leaves := by
  induction path generalizing v with
  | nil => exact .inr within
  | cons k path ih =>
    rw [set_cons, leaves, mem_leavesOfEntries] at within
    obtain ⟨entry, member, within⟩ := within
    rcases Table.mem_put member with rfl | old
    · exact (ih within).imp_left mem_leaves_of_lookup
    · exact .inl (mem_leaves_of_entry old within)

end WorkloadConfig.Value
