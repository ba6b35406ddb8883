import WorkloadConfig.Proofs.Json.Unambiguous
import WorkloadConfig.Proofs.Reporting.Stages

namespace WorkloadConfig

namespace Json.Style

/-- The style with the keys left where they stand. -/
def plain (style : Style) : Style :=
  { style with sorted := false }

theorem plain_write_sortKeys (style : Style) (sorted : style.sorted = true) (depth : Nat)
    (v : Value) : style.plain.write depth v.sortKeys = style.write depth v := by
  induction v using Value.induction generalizing depth with
  | scalar s => rfl
  | list items ih =>
    rw [Value.sortKeys, Value.sortKeysItems_eq, write_list, write_list, List.map_map]
    exact congrArg (style.enclose depth "[" "]")
      (List.map_congr_left fun v member => ih v member (depth + 1))
  | map entries ih =>
    have arranged : (Value.map entries).sortKeys =
        .map (Table.mapValues (style.inOrder entries) Value.sortKeys) := by
      rw [← inOrder_mapValues, inOrder, sorted, if_pos rfl, Value.sortKeys, Value.sortKeysEntries_eq]
    have asIs : style.plain.inOrder (Table.mapValues (style.inOrder entries) Value.sortKeys) =
        Table.mapValues (style.inOrder entries) Value.sortKeys := if_neg Bool.false_ne_true
    rw [arranged, write_map, write_map, asIs, Table.mapValues, List.map_map]
    refine congrArg (style.enclose depth "\x7b" "\x7d") (List.map_congr_left fun entry member => ?_)
    have among := (style.inOrder_perm entries).mem_iff.mp member
    exact congrArg (Json.key entry.1 ++ style.colon ++ ·) (ih entry among (depth + 1))

end Json.Style

/-- With the keys in order, the text in the order of the value's own keys is the canonical one. -/
theorem Json.compact_sortKeys (v : Value) : compact v.sortKeys = canonical v :=
  Style.plain_write_sortKeys .canonical rfl 0 v

namespace Value
variable {v w : Value}

/-- The keys of each map within stand in order. -/
def InOrder (v : Value) : Prop :=
  v.everyMap (fun keys => decide (keys.Pairwise fun a b => a.le b = true)) = true

theorem inOrder_map {entries : List (Key × Value)} : (Value.map entries).InOrder ↔
    (entries.Pairwise fun a b => a.1.le b.1 = true) ∧ ∀ entry ∈ entries, entry.2.InOrder := by
  simp only [InOrder, everyMap_map, decide_eq_true_eq, Table.keys, List.pairwise_map]

/-- What is in order stays as it is. -/
theorem InOrder.sortKeys_eq (ordered : v.InOrder) : v.sortKeys = v := by
  induction v using Value.induction with
  | scalar s => rfl
  | list items ih =>
    have parts := everyMap_list.mp ordered
    rw [sortKeys, sortKeysItems_eq, map_eq_self fun v member => ih v member (parts v member)]
  | map entries ih =>
    obtain ⟨keys, parts⟩ := inOrder_map.mp ordered
    rw [sortKeys, sortKeysEntries_eq,
      mapValues_eq_self fun entry member => ih entry member (parts entry member),
      Sorting.sort_eq_self keys]

theorem pairwise_sort_entries {entries : List (Key × Value)}
    (texts : ∀ key ∈ Table.keys entries, key.isText = true) :
    (Sorting.sort (fun a b => a.1.le b.1) entries).Pairwise fun a b => a.1.le b.1 = true := by
  obtain ⟨t, rfl⟩ := Table.exists_keyed texts
  rw [Table.keyed, Sorting.sort_map, List.pairwise_map]
  exact pairwise_byKey t

theorem inOrder_sortKeys (textual : v.IsTextual) : v.sortKeys.InOrder := by
  induction v using Value.induction with
  | scalar s => exact Eq.refl true
  | list items ih =>
    have parts := everyMap_list.mp textual
    rw [sortKeys, sortKeysItems_eq]
    exact everyMap_list.mpr (List.forall_mem_map.mpr fun v member => ih v member (parts v member))
  | map entries ih =>
    obtain ⟨texts, parts⟩ := everyMap_map.mp textual
    have perm := Sorting.sort_perm (fun a b : Key × Value => a.1.le b.1) (sortKeysEntries entries)
    refine inOrder_map.mpr ⟨pairwise_sort_entries ?_, fun entry member => ?_⟩
    · rw [keys_sortKeysEntries]
      exact List.all_eq_true.mp texts
    · have among := perm.mem_iff.mp member
      rw [sortKeysEntries_eq] at among
      obtain ⟨old, within, rfl⟩ := List.mem_map.mp among
      exact ih old within (parts old within)

/-- A value can be put in order, writing it in that order comes to what writing it with its keys in
order does, and putting it in order again changes nothing. There is a text unless an integer within has
too many digits. Two values come to the same exactly if they differ at most in the order of their keys. -/
theorem normal_form (proper : v.IsProper) :
    v.sorted? = .ok v.sortKeys ∧ v.canonical? = Json.Style.compact.text? v.sortKeys ∧
      (v.isWritable = true → v.canonical? = .ok (Json.compact v.sortKeys)) ∧
      v.sortKeys.sorted? = .ok v.sortKeys ∧
      ∀ w : Value, w.IsProper → (v.sorted? = w.sorted? ↔ v.Reordered w) := by
  have sorts {u : Value} (proper : u.IsProper) : u.sorted? = .ok u.sortKeys :=
    sorted?_eq_ok.mpr ⟨proper.isTextual.hasOrder, rfl⟩
  have textual := proper.isTextual
  have again : v.sortKeys.sortKeys = v.sortKeys := (inOrder_sortKeys textual).sortKeys_eq
  refine ⟨sorts proper, ?_, fun writable => ?_, ?_, fun w proper' => ?_⟩
  · rw [textual.canonical?_eq, Json.Style.text?_of_isTextual (isTextual_sortKeys.mpr textual),
      isWritable_sortKeys, ← Json.compact_sortKeys, Json.compact]
  · exact canonical?_eq_ok.mpr ⟨textual.hasOrder, writable, Json.compact_sortKeys v⟩
  · rw [sorts (isProper_sortKeys.mpr proper), again]
  · rw [sorts proper, sorts proper', Except.ok.injEq, sortKeys_eq_iff proper proper']

/-- Keys beyond the basic plane come after all others, though they are written with lower units. -/
theorem normal_form_ofPlanes :
    let v : Value := .map [("😀", .list [.int 1, .map [("b", .null), ("a", .bool true)]]),
      ("\uffff", .str "é"), ("", .float ⟨false, 1023, 0⟩)]
    let w : Value := .map [("", .float ⟨false, 1023, 0⟩),
      ("😀", .list [.int 1, .map [("a", .bool true), ("b", .null)]]), ("\uffff", .str "é")]
    v.IsProper ∧ w.IsProper ∧
      v.canonical? = .ok ("\x7b\"\":1.0,\"\\uffff\":\"\\u00e9\",\"\\ud83d\\ude00\":" ++
        "[1,\x7b\"a\":true,\"b\":null\x7d]\x7d") ∧
      v.sorted? = .ok v.sortKeys ∧ v.canonical? = Json.Style.compact.text? v.sortKeys ∧
      v.canonical? = .ok (Json.compact v.sortKeys) ∧
      v.sortKeys.sorted? = .ok v.sortKeys ∧ (v.sorted? = w.sorted? ↔ v.Reordered w) := by
  intro v w
  have proper : v.IsProper := Eq.refl true
  have proper' : w.IsProper := Eq.refl true
  obtain ⟨sorts, alike, written, again, iff⟩ := normal_form proper
  exact ⟨proper, proper', by decide +kernel, sorts, alike, written (by decide +kernel), again,
    iff w proper'⟩

end Value
end WorkloadConfig
