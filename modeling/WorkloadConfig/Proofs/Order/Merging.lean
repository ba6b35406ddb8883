import WorkloadConfig.Proofs.Order.Values
import WorkloadConfig.Value.Merge

namespace WorkloadConfig.Value
variable {below upper t u : List (Key × Value)} {v w base base' : Value}

theorem stripNullEntries_cons (key : Key) (given : v ≠ .null) (rest : List (Key × Value)) :
    stripNullEntries ((key, v) :: rest) = (key, v.stripNulls) :: stripNullEntries rest := by
  rw [stripNullEntries]
  exact given

theorem keys_stripNullEntries (t : List (Key × Value)) :
    (Table.keys (stripNullEntries t)).Sublist (Table.keys t) := by
  induction t with
  | nil => exact .slnil
  | cons entry rest ih =>
    obtain ⟨key, v⟩ := entry
    by_cases null : v = .null
    · subst null
      exact ih.cons key
    · rw [stripNullEntries_cons key null]
      exact ih.cons_cons key

theorem find?_stripNullEntries (distinct : (Table.keys t).Nodup) (key : Key) :
    Table.find? (stripNullEntries t) key =
      (Table.find? t key).bind fun v => if v = .null then none else some v.stripNulls := by
  induction t with
  | nil => rfl
  | cons entry rest ih =>
    obtain ⟨own, v⟩ := entry
    obtain ⟨fresh, others⟩ := List.nodup_cons.mp distinct
    by_cases null : v = .null
    · subst null
      by_cases same : own = key
      · subst same
        have absent := Table.find?_eq_none_iff.mpr fresh
        simpa [stripNullEntries, Table.find?, absent] using ih others
      · simpa [stripNullEntries, Table.find?, same] using ih others
    · rw [stripNullEntries_cons own null]
      by_cases same : own = key
      · simp [Table.find?, same, null]
      · simpa [Table.find?, same] using ih others

/-- The value laid over what is below it, if there is anything. -/
def laidOn (v : Value) : Option Value → Value
  | some old => mergeOnto old v
  | none => v.stripNulls

theorem mergeEntries_null (below : List (Key × Value)) (k : String) (rest : List (Key × Value)) :
    mergeEntries below ((.str k, .null) :: rest) =
      mergeEntries (Table.erase below (.str k)) rest := by
  rw [mergeEntries, Key.alignedWith_str]

theorem mergeEntries_cons (below : List (Key × Value)) (k : String) (given : v ≠ .null)
    (rest : List (Key × Value)) : mergeEntries below ((.str k, v) :: rest) =
      mergeEntries (Table.put below (.str k) (v.laidOn (Table.find? below (.str k)))) rest := by
  rw [mergeEntries]
  · simp only [Key.alignedWith_str]
    rfl
  · exact given

theorem nodup_keys_mergeEntries (texts : ∀ key ∈ Table.keys upper, key.isText = true)
    (distinct : (Table.keys below).Nodup) : (Table.keys (mergeEntries below upper)).Nodup := by
  induction upper generalizing below with
  | nil => exact distinct
  | cons entry rest ih =>
    obtain ⟨key, v⟩ := entry
    obtain ⟨first, later⟩ := List.forall_mem_cons.mp texts
    obtain ⟨k, rfl⟩ := eq_str_of_isText first
    by_cases null : v = .null
    · subst null
      rw [mergeEntries_null]
      exact ih later (distinct.sublist (List.filter_sublist.map _))
    · rw [mergeEntries_cons below k null]
      exact ih later (Table.nodup_keys_put distinct _ _)

/-- A merged map has under each key the upper value laid over the lower one; null removes what is
below it. -/
theorem find?_mergeEntries (texts : ∀ key ∈ Table.keys upper, key.isText = true)
    (distinct : (Table.keys upper).Nodup) (key : Key) :
    Table.find? (mergeEntries below upper) key = match Table.find? upper key with
      | none => Table.find? below key
      | some v => if v = .null then none else some (v.laidOn (Table.find? below key)) := by
  induction upper generalizing below with
  | nil => rfl
  | cons entry rest ih =>
    obtain ⟨own, v⟩ := entry
    obtain ⟨first, later⟩ := List.forall_mem_cons.mp texts
    obtain ⟨fresh, others⟩ := List.nodup_cons.mp distinct
    obtain ⟨k, rfl⟩ := eq_str_of_isText first
    have absent := Table.find?_eq_none_iff.mpr fresh
    by_cases null : v = .null
    · subst null
      rw [mergeEntries_null, ih later others, Table.find?_erase]
      by_cases same : key = .str k
      · subst same
        simp [Table.find?, absent]
      · simp [Table.find?, same, Ne.symm same]
    · rw [mergeEntries_cons below k null, ih later others]
      by_cases same : key = .str k
      · subst same
        simp [Table.find?, absent, null, Table.find?_put_self]
      · simp [Table.find?, Ne.symm same, Table.find?_put_of_ne _ _ same]

namespace Reordered

theorem stripNulls (same : v.Reordered w) : v.stripNulls.Reordered w.stripNulls := by
  induction same using Reordered.induction with
  | scalar s => exact .scalar s
  | list items others all => exact .list (all.imp fun _ _ ⟨same, _⟩ => same)
  | map t u same table =>
    refine ofTable (fun key member => same.texts key ((keys_stripNullEntries t).subset member))
      ⟨table.distinct.sublist (keys_stripNullEntries t),
        table.distinct'.sublist (keys_stripNullEntries u), fun key => ?_⟩
    rw [find?_stripNullEntries table.distinct, find?_stripNullEntries table.distinct']
    rcases rel_cases (table.under key) with ⟨one, two⟩ | ⟨a, b, one, two, related, stripped⟩ <;>
      rw [one, two]
    · exact .none
    · simp only [Option.bind_some, related.null_iff]
      split
      · exact .none
      · exact .some stripped

/-- What is merged from reorderings of each other is so too. -/
theorem merge (below : base.Reordered base') (same : v.Reordered w) :
    (base.merge v).Reordered (base'.merge w) := by
  unfold Value.merge
  -- On the upper value: what is merged below a key is the part that it has there.
  induction same using Reordered.induction generalizing base base' with
  | scalar s => exact .scalar s
  | list items others all => exact .list (all.imp fun _ _ ⟨same, _⟩ => same)
  | map t u same table =>
    cases below with
    | scalar s => exact same.stripNulls
    | list _ => exact same.stripNulls
    | @map below below' texts distinct distinct' under =>
      rw [mergeOnto, mergeOnto]
      refine ofTable (fun key member => ?_) ⟨nodup_keys_mergeEntries same.texts distinct,
        nodup_keys_mergeEntries same.texts' distinct', fun key => ?_⟩
      · obtain ⟨a, found⟩ := Table.mem_keys_iff.mp member
        rw [find?_mergeEntries same.texts table.distinct] at found
        split at found
        · exact texts key (Table.mem_keys_iff.mpr ⟨a, found⟩)
        · rename_i above
          exact same.texts key (Table.mem_keys_iff.mpr ⟨_, above⟩)
      · rw [find?_mergeEntries same.texts table.distinct,
          find?_mergeEntries same.texts' table.distinct']
        rcases rel_cases (table.under key) with ⟨one, two⟩ | ⟨a, b, one, two, related, merged⟩ <;>
          rw [one, two]
        · exact under key
        · simp only [related.null_iff]
          split
          · exact .none
          · refine .some ?_
            rcases rel_cases (under key) with ⟨one, two⟩ | ⟨c, d, one, two, lower⟩ <;> rw [one, two]
            · exact related.stripNulls
            · exact merged lower

end Reordered
end WorkloadConfig.Value
