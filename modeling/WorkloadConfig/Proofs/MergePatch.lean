import WorkloadConfig.Proofs.Order.Merging

namespace WorkloadConfig

theorem Table.erase_of_absent {κ α : Type} [DecidableEq κ] {t : Table κ α} {key : κ}
    (absent : t.find? key = none) : t.erase key = t := by
  refine List.filter_eq_self.mpr fun entry member => decide_eq_true ?_
  rintro rfl
  exact Table.find?_eq_none_iff.mp absent (List.mem_map_of_mem member)

namespace Value

mutual

/-- The patch applied to its target, which may be nothing. A target that is no map has no entries. -/
def mergePatch (target : Option Value) : Value → Value
  | .map entries => .map (patchEntries (target.elim [] Value.entries) entries)
  | v => v

def patchEntries (target : List (Key × Value)) : List (Key × Value) → List (Key × Value)
  | [] => target
  | (k, .null) :: rest => patchEntries (Table.erase target k) rest
  | (k, v) :: rest =>
    patchEntries (Table.put target k (mergePatch (Table.find? target k) v)) rest

end

variable {v base upper : Value} {target entries : List (Key × Value)}

theorem patchEntries_cons (target : List (Key × Value)) (key : Key) (given : v ≠ .null)
    (rest : List (Key × Value)) : patchEntries target ((key, v) :: rest) =
      patchEntries (Table.put target key (v.mergePatch (Table.find? target key))) rest := by
  rw [patchEntries]
  exact given

/-- Entries under new keys are appended one after the other, but for those that are null. -/
theorem patchEntries_eq_append (distinct : (Table.keys (target ++ entries)).Nodup)
    (each : ∀ entry ∈ entries, entry.2.mergePatch none = entry.2.stripNulls) :
    patchEntries target entries = target ++ stripNullEntries entries := by
  induction entries generalizing target with
  | nil => exact (List.append_nil target).symm
  | cons entry rest ih =>
    obtain ⟨key, v⟩ := entry
    obtain ⟨first, later⟩ := List.forall_mem_cons.mp each
    have absent : Table.find? target key = none := by
      simp only [Table.keys, List.map_append, List.map_cons, List.nodup_append] at distinct
      exact Table.find?_eq_none_iff.mpr
        fun there => distinct.2.2 _ there _ List.mem_cons_self rfl
    by_cases null : v = .null
    · subst null
      have without : (Table.keys (target ++ rest)).Nodup :=
        distinct.sublist (((List.sublist_cons_self _ rest).append_left target).map _)
      rw [patchEntries, Table.erase_of_absent absent, ih without later, stripNullEntries]
    · have next : (Table.keys ((target ++ [(key, v.stripNulls)]) ++ rest)).Nodup := by
        simpa [Table.keys] using distinct
      rw [patchEntries_cons target key null, absent, first, Table.put_of_absent _ absent,
        ih next later, stripNullEntries_cons key null, List.append_assoc, List.singleton_append]

theorem mergeEntries_eq_patchEntries (texts : ∀ key ∈ Table.keys entries, key.isText = true)
    (each : ∀ entry ∈ entries, ∀ old, entry.2.laidOn old = entry.2.mergePatch old) :
    mergeEntries target entries = patchEntries target entries := by
  induction entries generalizing target with
  | nil => rfl
  | cons entry rest ih =>
    obtain ⟨key, v⟩ := entry
    obtain ⟨isText, others⟩ := List.forall_mem_cons.mp texts
    obtain ⟨first, later⟩ := List.forall_mem_cons.mp each
    obtain ⟨k, rfl⟩ := eq_str_of_isText isText
    by_cases null : v = .null
    · subst null
      rw [mergeEntries_null, patchEntries, ih others later]
    · rw [mergeEntries_cons target k null, patchEntries_cons target _ null, first, ih others later]

/-- Over something or over nothing, a value is laid as the patch that it is. -/
theorem laidOn_eq_mergePatch (proper : v.IsProper) (old : Option Value) :
    v.laidOn old = v.mergePatch old := by
  induction v using Value.induction generalizing old with
  | scalar s => cases old <;> rfl
  | list items _ => cases old <;> rfl
  | map entries ih =>
    obtain ⟨texts, distinct, parts⟩ := isProper_map.mp proper
    have each : ∀ entry ∈ entries, ∀ old, entry.2.laidOn old = entry.2.mergePatch old :=
      fun entry member => ih entry member (parts entry member)
    have appended : patchEntries [] entries = stripNullEntries entries :=
      patchEntries_eq_append distinct fun entry member => (each entry member none).symm
    have onNothing : (Value.map entries).stripNulls = .map (patchEntries [] entries) := by
      rw [stripNulls, appended]
    cases old with
    | none => exact onNothing
    | some base =>
      cases base with
      | map below => exact congrArg Value.map (mergeEntries_eq_patchEntries texts each)
      | scalar _ | list _ => exact onNothing

/-- Entries that the target holds already, the null ones by having nothing there, change nothing. -/
theorem patchEntries_of_held
    (held : ∀ entry ∈ entries, if entry.2 = .null then Table.find? target entry.1 = none
      else ∃ w, Table.find? target entry.1 = some w ∧ entry.2.mergePatch (some w) = w) :
    patchEntries target entries = target := by
  induction entries with
  | nil => rfl
  | cons entry rest ih =>
    obtain ⟨key, v⟩ := entry
    obtain ⟨first, later⟩ := List.forall_mem_cons.mp held
    by_cases null : v = .null
    · subst null
      rw [patchEntries, Table.erase_of_absent (by simpa using first), ih later]
    · rw [if_neg null] at first
      obtain ⟨w, found, same⟩ := first
      rw [patchEntries_cons target key null, found, same, Table.put_of_find? found, ih later]

theorem find?_patchEntries (proper : (Value.map entries).IsProper) (key : Key) :
    Table.find? (patchEntries target entries) key = match Table.find? entries key with
      | none => Table.find? target key
      | some v => if v = .null then none else some (v.mergePatch (Table.find? target key)) := by
  obtain ⟨texts, distinct, parts⟩ := isProper_map.mp proper
  have each : ∀ entry ∈ entries, ∀ old, entry.2.laidOn old = entry.2.mergePatch old :=
    fun entry member => laidOn_eq_mergePatch (parts entry member)
  rw [← mergeEntries_eq_patchEntries texts each, find?_mergeEntries texts distinct]
  cases found : Table.find? entries key with
  | none => rfl
  | some v => simp only [each _ (Table.mem_of_find? found)]

/-- What a patch has made of a target is left as it is when the patch is applied again. -/
theorem mergePatch_again (proper : v.IsProper) (old : Option Value) :
    v.mergePatch (some (v.mergePatch old)) = v.mergePatch old := by
  induction v using Value.induction generalizing old with
  | scalar s => rfl
  | list items _ => rfl
  | map entries ih =>
    obtain ⟨-, distinct, parts⟩ := isProper_map.mp proper
    rw [mergePatch, mergePatch]
    refine congrArg Value.map (patchEntries_of_held fun entry member => ?_)
    have found := (Table.find?_eq_some_iff distinct).mpr member
    simp only [Option.elim_some, Value.entries, find?_patchEntries proper, found]
    split
    · rfl
    · exact ⟨_, rfl, ih entry member (parts entry member) _⟩

/-- A JSON value is laid over any other as a merge patch is applied to it, with the keys in the same
order. So what comes of it is not changed by laying the value over once more. -/
theorem merge_eq_mergePatch (base : Value) (proper : upper.IsProper) :
    base.merge upper = upper.mergePatch (some base) ∧
      (base.merge upper).merge upper = base.merge upper := by
  have patches (base : Value) : base.merge upper = upper.mergePatch (some base) :=
    laidOn_eq_mergePatch proper (some base)
  refine ⟨patches base, ?_⟩
  rw [patches, patches, mergePatch_again proper]

/-- A map over a text and over nothing, with nulls at every depth: they remove what is there, stay in
lists, and leave an empty map behind. A null of the base is kept. -/
theorem merge_eq_mergePatch_nested :
    let base : Value := .map [("a", .str "text"), ("b", .map [("x", .null), ("y", .int 1)]),
      ("c", .int 2)]
    let upper : Value := .map [
      ("c", .null), ("b", .map [("y", .null), ("z", .list [.null])]),
      ("a", .map [("p", .null), ("q", .map [("r", .null)])]), ("d", .map [("s", .null)])]
    upper.IsProper ∧
      base.merge upper = .map [("a", .map [("q", .map [])]),
        ("b", .map [("x", .null), ("z", .list [.null])]), ("d", .map [])] ∧
      base.merge upper = upper.mergePatch (some base) ∧
      (base.merge upper).merge upper = base.merge upper := by
  intro base upper
  have proper : upper.IsProper := Eq.refl true
  exact ⟨proper, by decide, merge_eq_mergePatch base proper⟩

end Value
end WorkloadConfig
