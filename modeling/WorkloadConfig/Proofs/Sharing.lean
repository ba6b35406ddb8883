import Mathlib.Data.List.Nodup
import WorkloadConfig.Design
import WorkloadConfig.Proofs.Patching
import WorkloadConfig.Proofs.Rendering

namespace WorkloadConfig

namespace Linked
variable {v new : Linked} {entries : List (Key × Linked)} {id n : Nat} {key : Key}
  {path : List String}

theorem valueItems_eq (items : List Linked) : valueItems items = items.map value := by
  induction items with
  | nil => rfl
  | cons v rest ih => exact congrArg (_ :: ·) ih

theorem valueEntries_eq (entries : List (Key × Linked)) :
    valueEntries entries = Table.mapValues entries value := by
  induction entries with
  | nil => rfl
  | cons entry rest ih => exact congrArg (_ :: ·) ih

theorem raiseItems_eq (n : Nat) (items : List Linked) : raiseItems n items = items.map (raise n) := by
  induction items with
  | nil => rfl
  | cons v rest ih => exact congrArg (_ :: ·) ih

theorem raiseEntries_eq (n : Nat) (entries : List (Key × Linked)) :
    raiseEntries n entries = Table.mapValues entries (raise n) := by
  induction entries with
  | nil => rfl
  | cons entry rest ih => exact congrArg (_ :: ·) ih

theorem assignItems_eq (id : Nat) (key : Key) (new : Linked) (items : List Linked) :
    assignItems id key new items = items.map (assign id key new) := by
  induction items with
  | nil => rfl
  | cons v rest ih => exact congrArg (_ :: ·) ih

theorem assignEntries_eq (id : Nat) (key : Key) (new : Linked) (entries : List (Key × Linked)) :
    assignEntries id key new entries = Table.mapValues entries (assign id key new) := by
  induction entries with
  | nil => rfl
  | cons entry rest ih => exact congrArg (_ :: ·) ih

theorem idsOfItems_eq (items : List Linked) : idsOfItems items = items.flatMap ids := by
  induction items with
  | nil => rfl
  | cons v rest ih => exact congrArg (_ ++ ·) ih

theorem idsOfEntries_eq (entries : List (Key × Linked)) :
    idsOfEntries entries = entries.flatMap fun entry => entry.2.ids := by
  induction entries with
  | nil => rfl
  | cons entry rest ih => exact congrArg (_ ++ ·) ih

theorem find?_valueEntries (entries : List (Key × Linked)) (key : Key) :
    Table.find? (valueEntries entries) key = (Table.find? entries key).map value := by
  rw [valueEntries_eq, Table.find?_mapValues]

theorem valueEntries_put (entries : List (Key × Linked)) (key : Key) (new : Linked) :
    valueEntries (Table.put entries key new) = Table.put (valueEntries entries) key new.value := by
  rw [valueEntries_eq, valueEntries_eq, Table.mapValues_put]

/-- No map stands at two places within. -/
def IsUnshared (v : Linked) : Prop :=
  v.ids.Nodup

instance (v : Linked) : Decidable v.IsUnshared :=
  inferInstanceAs (Decidable v.ids.Nodup)

theorem isUnshared_scalar (s : Scalar) : (scalar s).IsUnshared :=
  List.nodup_nil

theorem value_raise (n : Nat) (v : Linked) : (v.raise n).value = v.value := by
  induction v using Linked.induction with
  | scalar s => rfl
  | list items ih =>
    rw [raise, value, value, raiseItems_eq, valueItems_eq, valueItems_eq, List.map_map]
    exact congrArg Value.list (List.map_congr_left ih)
  | map id entries ih =>
    rw [raise, value, value, raiseEntries_eq, valueEntries_eq, valueEntries_eq,
      Table.mapValues_mapValues, Table.mapValues_congr ih]

theorem ids_raise (n : Nat) (v : Linked) : (v.raise n).ids = v.ids.map (n + ·) := by
  induction v using Linked.induction with
  | scalar s => rfl
  | list items ih =>
    rw [raise, ids, ids, raiseItems_eq, idsOfItems_eq, idsOfItems_eq, List.flatMap_map, List.map_flatMap]
    exact List.flatMap_congr ih
  | map id entries ih =>
    rw [raise, ids, ids, raiseEntries_eq, idsOfEntries_eq, idsOfEntries_eq, Table.mapValues,
      List.flatMap_map, List.map_cons, List.map_flatMap]
    exact congrArg (_ :: ·) (List.flatMap_congr ih)

mutual

theorem value_numbered (n : Nat) : (v : Value) → (numbered n v).1.value = v
  | .scalar _ => rfl
  | .list items => congrArg Value.list (valueItems_numbered n items)
  | .map entries => congrArg Value.map (valueEntries_numbered (n + 1) entries)

theorem valueItems_numbered (n : Nat) : (items : List Value) →
    valueItems (numberedItems n items).1 = items
  | [] => rfl
  | v :: rest => by
    simp only [numberedItems, valueItems, value_numbered, valueItems_numbered]

theorem valueEntries_numbered (n : Nat) : (entries : List (Key × Value)) →
    valueEntries (numberedEntries n entries).1 = entries
  | [] => rfl
  | (k, v) :: rest => by
    simp only [numberedEntries, valueEntries, value_numbered, valueEntries_numbered]

end

mutual

theorem ids_numbered (n : Nat) : (v : Value) → ∃ count,
    (numbered n v).1.ids = List.range' n count ∧ (numbered n v).2 = n + count
  | .scalar _ => ⟨0, rfl, rfl⟩
  | .list items => idsOfItems_numbered n items
  | .map entries => by
    obtain ⟨count, within, after⟩ := idsOfEntries_numbered (n + 1) entries
    refine ⟨count + 1, ?_, ?_⟩
    · simp only [numbered, ids, within, List.range'_succ]
    · simp only [numbered, after]
      omega

theorem idsOfItems_numbered (n : Nat) : (items : List Value) → ∃ count,
    idsOfItems (numberedItems n items).1 = List.range' n count ∧
      (numberedItems n items).2 = n + count
  | [] => ⟨0, rfl, rfl⟩
  | v :: rest => by
    obtain ⟨count, within, after⟩ := ids_numbered n v
    obtain ⟨others, later, last⟩ := idsOfItems_numbered (n + count) rest
    refine ⟨count + others, ?_, ?_⟩
    · simp only [numberedItems, idsOfItems, after, within, later, List.range'_append_1]
    · simp only [numberedItems, after, last, Nat.add_assoc]

theorem idsOfEntries_numbered (n : Nat) : (entries : List (Key × Value)) → ∃ count,
    idsOfEntries (numberedEntries n entries).1 = List.range' n count ∧
      (numberedEntries n entries).2 = n + count
  | [] => ⟨0, rfl, rfl⟩
  | (k, v) :: rest => by
    obtain ⟨count, within, after⟩ := ids_numbered n v
    obtain ⟨others, later, last⟩ := idsOfEntries_numbered (n + count) rest
    refine ⟨count + others, ?_, ?_⟩
    · simp only [numberedEntries, idsOfEntries, after, within, later, List.range'_append_1]
    · simp only [numberedEntries, after, last, Nat.add_assoc]

end

theorem value_plain (v : Value) : (plain v).value = v :=
  value_numbered 0 v

theorem isUnshared_plain (v : Value) : (plain v).IsUnshared := by
  obtain ⟨count, within, -⟩ := ids_numbered 0 v
  rw [IsUnshared, plain, within]
  exact List.nodup_range'

mutual

theorem assign_of_not_mem : {v : Linked} → id ∉ v.ids → assign id key new v = v
  | .scalar _, _ => rfl
  | .list items, absent => congrArg Linked.list (assignItems_of_not_mem absent)
  | .map own entries, absent => by
    obtain ⟨apart, within⟩ := List.ne_and_not_mem_of_not_mem_cons absent
    rw [assign, assignEntries_of_not_mem within, if_neg (Ne.symm apart)]

theorem assignItems_of_not_mem : {items : List Linked} → id ∉ idsOfItems items →
    assignItems id key new items = items
  | [], _ => rfl
  | v :: rest, absent => by
    obtain ⟨first, later⟩ := not_or.mp fun within => absent (List.mem_append.mpr within)
    rw [assignItems, assign_of_not_mem first, assignItems_of_not_mem later]

theorem assignEntries_of_not_mem : {entries : List (Key × Linked)} → id ∉ idsOfEntries entries →
    assignEntries id key new entries = entries
  | [], _ => rfl
  | (k, v) :: rest, absent => by
    obtain ⟨first, later⟩ := not_or.mp fun within => absent (List.mem_append.mpr within)
    rw [assignEntries, assign_of_not_mem first, assignEntries_of_not_mem later]

end

theorem sublist_idsOfEntries (found : Table.find? entries key = some v) :
    v.ids.Sublist (idsOfEntries entries) := by
  induction entries with
  | nil => cases found
  | cons entry rest ih =>
    rw [Table.find?] at found
    split at found
    · cases found
      exact List.sublist_append_left _ _
    · exact (ih found).trans (List.sublist_append_right _ _)

/-- What is written into a map that stands once, below one entry, changes that entry alone. -/
theorem assignEntries_of_find? {other : Key} (once : (idsOfEntries entries).count id ≤ 1)
    (found : Table.find? entries other = some v) (member : id ∈ v.ids) :
    assignEntries id key new entries = Table.put entries other (assign id key new v) := by
  induction entries with
  | nil => cases found
  | cons entry rest ih =>
    obtain ⟨k, first⟩ := entry
    rw [idsOfEntries, List.count_append] at once
    rw [Table.find?] at found
    rw [assignEntries, Table.put]
    split at found
    · cases found
      rename_i same
      have inFirst := List.count_pos_iff.mpr member
      have absent : id ∉ idsOfEntries rest := List.count_eq_zero.mp (by omega)
      rw [if_pos same, assignEntries_of_not_mem absent]
    · rename_i differ
      have inRest := List.count_pos_iff.mpr ((sublist_idsOfEntries found).subset member)
      have absent : id ∉ first.ids := List.count_eq_zero.mp (by omega)
      rw [if_neg differ, ih (by omega) found, assign_of_not_mem absent]

theorem ids_nest (n : Nat) (path : List String) (new : Linked) :
    (nest n path new).ids = List.range' n path.length ++ new.ids := by
  induction path generalizing n with
  | nil => rfl
  | cons k rest ih => simp [nest, ids, idsOfEntries, ih, List.range'_succ]

theorem count_idsOfEntries_put (x : Nat) (entries : List (Key × Linked)) (key : Key)
    (new : Linked) : (idsOfEntries (Table.put entries key new)).count x ≤
      (idsOfEntries entries).count x + new.ids.count x := by
  induction entries with
  | nil => simp [Table.put, idsOfEntries]
  | cons entry rest ih =>
    obtain ⟨k, v⟩ := entry
    by_cases same : k = key
    · simp only [Table.put, same, if_true, idsOfEntries, List.count_append]
      omega
    · simp only [Table.put, same, if_false, idsOfEntries, List.count_append]
      omega

mutual

/-- Each map of what is assigned comes in once wherever the map with the number stands. -/
theorem count_ids_assign (x : Nat) : (v : Linked) → (assign id key new v).ids.count x ≤
    v.ids.count x + v.ids.count id * new.ids.count x
  | .scalar _ => Nat.zero_le _
  | .list items => count_idsOfItems_assign x items
  | .map own entries => by
    have within := count_idsOfEntries_assign x entries
    by_cases same : own = id
    · have placed := count_idsOfEntries_put x (assignEntries id key new entries) key new
      simp only [assign, ids, List.count_cons, same, if_true, beq_self_eq_true, Nat.add_mul,
        Nat.one_mul]
      omega
    · simp only [assign, ids, List.count_cons, same, if_false, beq_iff_eq, Nat.add_zero]
      omega

theorem count_idsOfItems_assign (x : Nat) : (items : List Linked) →
    (idsOfItems (assignItems id key new items)).count x ≤
      (idsOfItems items).count x + (idsOfItems items).count id * new.ids.count x
  | [] => Nat.zero_le _
  | v :: rest => by
    have first := count_ids_assign x v
    have later := count_idsOfItems_assign x rest
    simp only [assignItems, idsOfItems, List.count_append, Nat.add_mul]
    omega

theorem count_idsOfEntries_assign (x : Nat) : (entries : List (Key × Linked)) →
    (idsOfEntries (assignEntries id key new entries)).count x ≤
      (idsOfEntries entries).count x + (idsOfEntries entries).count id * new.ids.count x
  | [] => Nat.zero_le _
  | (k, v) :: rest => by
    have first := count_ids_assign x v
    have later := count_idsOfEntries_assign x rest
    simp only [assignEntries, idsOfEntries, List.count_append, Nat.add_mul]
    omega

end

/-- Where no map is on the way, the maps along the path are new. -/
theorem value_nest_of_landing (lands : v.landing path = none) (n : Nat) (new : Linked) :
    (nest n path new).value = v.value.set path new.value := by
  induction path generalizing n v with
  | nil => rfl
  | cons k rest ih =>
    have noEntries : v.value.entries = [] := by
      cases v with
      | scalar _ | list _ => rfl
      | map _ _ => cases lands
    have below : (Linked.scalar .null).landing rest = none := by cases rest <;> rfl
    rw [Value.set_cons, Value.lookup, noEntries]
    simp only [nest, value, valueEntries, ih below (n + 1), Table.find?, Option.getD_none, Table.put]

/-- A path lands in the map that it starts from, or where the rest of it lands below. -/
theorem landing_cases {k : String} {place : Nat × String × List String}
    (lands : (map id entries).landing (k :: path) = some place) :
    (place = (id, k, path) ∧
      ∀ child, Table.find? entries (.str k) = some child → child.landing path = none) ∨
    ∃ child, Table.find? entries (.str k) = some child ∧ child.landing path = some place := by
  rw [landing, Option.some.injEq] at lands
  cases found : Table.find? entries (.str k) with
  | none =>
    rw [found] at lands
    exact .inl ⟨lands.symm, fun _ other => nomatch other⟩
  | some child =>
    rw [found, Option.bind_some] at lands
    cases below : child.landing path with
    | none =>
      rw [below] at lands
      refine .inl ⟨lands.symm, fun other same => ?_⟩
      cases same
      exact below
    | some inner =>
      rw [below, Option.getD_some] at lands
      subst lands
      exact .inr ⟨child, rfl, below⟩

theorem mem_ids_of_landing {place : Nat × String × List String} (lands : v.landing path = some place) :
    place.1 ∈ v.ids := by
  induction path generalizing v with
  | nil => cases v <;> cases lands
  | cons k rest ih =>
    cases v with
    | scalar _ | list _ => cases lands
    | map own entries =>
      rcases landing_cases lands with ⟨rfl, -⟩ | ⟨child, found, below⟩
      · exact List.mem_cons_self
      · exact List.mem_cons_of_mem _ ((sublist_idsOfEntries found).subset (ih below))

/-- Where a path goes no further along maps, its entry is written here. -/
theorem value_assign_here {k : String} (notWithin : id ∉ idsOfEntries entries)
    (ends : ∀ child, Table.find? entries (.str k) = some child → child.landing path = none) (n : Nat)
    (new : Linked) : (assign id (.str k) (nest n path new) (map id entries)).value =
      (map id entries).value.set (k :: path) new.value := by
  rw [assign, if_pos rfl, assignEntries_of_not_mem notWithin, Value.set_cons, value,
    valueEntries_put, value, Value.entries, Value.lookup, Value.entries, find?_valueEntries]
  cases found : Table.find? entries (.str k) with
  | none =>
    have noMap : (Linked.scalar .null).landing path = none := by cases path <;> rfl
    rw [value_nest_of_landing noMap]
    rfl
  | some child =>
    rw [value_nest_of_landing (ends child found)]
    rfl

/-- What is assigned where a path lands shows at the path and nowhere else, as long as the map it lands
in stands at one place. -/
theorem value_assign_landing {landed : String} {rest : List String}
    (lands : v.landing path = some (id, landed, rest)) (once : v.ids.count id ≤ 1) (n : Nat)
    (new : Linked) :
    (assign id (.str landed) (nest n rest new) v).value = v.value.set path new.value := by
  induction path generalizing v with
  | nil => cases v <;> cases lands
  | cons k path ih =>
    cases v with
    | scalar _ | list _ => cases lands
    | map own entries =>
      rw [ids, List.count_cons] at once
      rcases landing_cases lands with ⟨here, ends⟩ | ⟨child, found, below⟩
      · cases here
        rw [beq_self_eq_true, if_pos rfl] at once
        exact value_assign_here (List.count_eq_zero.mp (by omega)) ends n new
      · have among := sublist_idsOfEntries found
        have member : id ∈ child.ids := mem_ids_of_landing below
        have within := List.count_pos_iff.mpr (among.subset member)
        have apart : own ≠ id := by
          rintro rfl
          rw [beq_self_eq_true, if_pos rfl] at once
          omega
        have onceBelow : child.ids.count id ≤ 1 :=
          Nat.le_trans (among.count_le id) (by omega)
        rw [assign, if_neg apart, assignEntries_of_find? (by omega) found member, value,
          valueEntries_put, ih below onceBelow, Value.set_cons, value, Value.entries, Value.lookup,
          Value.entries, find?_valueEntries, found]
        rfl

/-- Writing in place is writing, as long as the map that is written into stands at one place. -/
theorem value_set_of_once (new : Linked)
    (once : ∀ place, v.landing path = some place → v.ids.count place.1 ≤ 1) :
    (v.set path new).value = v.value.set path new.value := by
  unfold set
  split
  · rename_i lands
    exact value_assign_landing lands (once _ lands) _ new
  · rename_i lands
    exact value_nest_of_landing lands _ new

/-- On values that hold no map at two places, writing in place is writing. -/
theorem value_set (unshared : v.IsUnshared) (path : List String) (new : Linked) :
    (v.set path new).value = v.value.set path new.value :=
  value_set_of_once new fun place _ => List.nodup_iff_count_le_one.mp unshared place.1

theorem lt_next {v : Linked} (member : id ∈ v.ids) : id < v.next := by
  unfold next
  generalize v.ids = all at member
  induction all with
  | nil => cases member
  | cons first rest ih =>
    rw [List.foldr_cons]
    rcases List.mem_cons.mp member with rfl | later
    · exact Nat.lt_of_lt_of_le (Nat.lt_succ_self _) (Nat.le_max_left _ _)
    · exact Nat.lt_of_lt_of_le (ih later) (Nat.le_max_right _ _)

/-- What is written in place stays without shared maps if the new value brings in none of the old
ones. -/
theorem IsUnshared.set (unshared : v.IsUnshared) (path : List String) (own : new.IsUnshared)
    (apart : v.ids.Disjoint new.ids) : (v.set path new).IsUnshared := by
  have fresh (rest : List String) : (nest (max v.next new.next) rest new).IsUnshared := by
    rw [IsUnshared, ids_nest, List.nodup_append']
    refine ⟨List.nodup_range', own, fun id inRange within => ?_⟩
    have below := lt_next within
    have above := (List.mem_range'_1.mp inRange).1
    omega
  have beside (rest : List String) : v.ids.Disjoint (nest (max v.next new.next) rest new).ids := by
    rw [ids_nest]
    refine List.disjoint_append_right.mpr ⟨fun id old inRange => ?_, apart⟩
    have below := lt_next old
    have above := (List.mem_range'_1.mp inRange).1
    omega
  unfold Linked.set
  split
  · rename_i id landed rest lands
    refine List.nodup_iff_count_le_one.mpr fun x => ?_
    refine Nat.le_trans (count_ids_assign x v) ?_
    have once : v.ids.count id ≤ 1 := List.nodup_iff_count_le_one.mp unshared id
    have old := List.nodup_iff_count_le_one.mp unshared x
    have added := List.nodup_iff_count_le_one.mp (fresh rest) x
    have either : v.ids.count x = 0 ∨ (nest (max v.next new.next) rest new).ids.count x = 0 := by
      by_cases member : x ∈ v.ids
      · exact .inr (List.count_eq_zero.mpr (beside rest member))
      · exact .inl (List.count_eq_zero.mpr member)
    have product := Nat.mul_le_mul_right ((nest (max v.next new.next) rest new).ids.count x) once
    omega
  · exact fresh path

theorem value_place (unshared : v.IsUnshared) (path : List String) (new : Linked) :
    (v.place path new).value = v.value.set path new.value := by
  rw [place, value_set unshared, value_raise]

/-- A copy brings in none of the maps that are there. -/
theorem IsUnshared.place (unshared : v.IsUnshared) (path : List String) (own : new.IsUnshared) :
    (v.place path new).IsUnshared := by
  refine unshared.set path ?_ fun id old raised => ?_
  · rw [IsUnshared, ids_raise]
    exact own.map fun _ _ => Nat.add_left_cancel
  · rw [ids_raise] at raised
    obtain ⟨_, -, rfl⟩ := List.mem_map.mp raised
    have below := lt_next old
    omega

/-- Copies that are written one after another. -/
theorem foldl_place {α : Type} {path : α → List String} {copied : α → Linked} {items : List α}
    (unshared : v.IsUnshared) (own : ∀ item ∈ items, (copied item).IsUnshared) :
    (items.foldl (fun v item => v.place (path item) (copied item)) v).IsUnshared ∧
      (items.foldl (fun v item => v.place (path item) (copied item)) v).value =
        items.foldl (fun v item => v.set (path item) (copied item).value) v.value := by
  induction items generalizing v with
  | nil => exact ⟨unshared, rfl⟩
  | cons item rest ih =>
    obtain ⟨first, others⟩ := List.forall_mem_cons.mp own
    obtain ⟨after, same⟩ := ih (unshared.place (path item) first) others
    refine ⟨after, same.trans ?_⟩
    rw [value_place unshared, List.foldl_cons]

/-- What is assigned anywhere can be written as text if all that was there can. -/
theorem isWritable_assign (ofKey : key.isWritable = true) (ofNew : new.value.isWritable = true)
    (writable : v.value.isWritable = true) : (assign id key new v).value.isWritable = true := by
  induction v using Linked.induction with
  | scalar s => exact writable
  | list items ih =>
    rw [value, valueItems_eq, Value.isWritable_list, List.forall_mem_map] at writable
    rw [assign, value, assignItems_eq, valueItems_eq, List.map_map, Value.isWritable_list,
      List.forall_mem_map]
    exact fun v member => ih v member (writable v member)
  | map own entries ih =>
    rw [value, valueEntries_eq, Table.mapValues, Value.isWritable_map, List.forall_mem_map] at writable
    have within : (Value.map (valueEntries (assignEntries id key new entries))).isWritable = true := by
      rw [assignEntries_eq, valueEntries_eq, Table.mapValues_mapValues, Table.mapValues,
        Value.isWritable_map, List.forall_mem_map]
      exact fun entry member => ⟨(writable entry member).1, ih entry member (writable entry member).2⟩
    rw [assign, value]
    split
    · rw [valueEntries_put]
      exact Value.isWritable_put within ofKey ofNew
    · exact within

theorem isWritable_nest (ofNew : new.value.isWritable = true) (n : Nat) (path : List String) :
    (nest n path new).value.isWritable = true := by
  induction path generalizing n with
  | nil => exact ofNew
  | cons k rest ih =>
    refine Value.isWritable_map.mpr (List.forall_mem_singleton.mpr ⟨rfl, ih (n + 1)⟩)

theorem isWritable_place (writable : v.value.isWritable = true) (path : List String)
    (ofNew : new.value.isWritable = true) : (v.place path new).value.isWritable = true := by
  rw [← value_raise v.next new] at ofNew
  unfold place set
  split
  · exact isWritable_assign rfl (isWritable_nest ofNew _ _) writable
  · exact isWritable_nest ofNew _ _

theorem isWritable_stamped {m : Value} (writable : v.value.isWritable = true)
    (ofMetadata : m.isWritable = true) : (v.stamped m).value.isWritable = true := by
  unfold stamped
  induction stampedKeys generalizing v with
  | nil => exact writable
  | cons key rest ih =>
    refine ih (isWritable_place writable ["metadata", key] ?_)
    rw [value_plain]
    exact Value.isWritable_lookup ofMetadata _

theorem value_ofTable (t : Table String Linked) :
    (ofTable t).value = Value.ofTable (t.mapValues value) := by
  rw [ofTable, value, valueEntries_eq, Value.ofTable]
  simp [Table.mapValues]

/-- The metadata with its marks takes the place of what it was. -/
theorem value_stamped {i : Instance} {manager : String} {t : Template} {m : Value}
    (unshared : v.IsUnshared) (marked : i.metadata manager t v.value = .ok m) :
    (v.stamped m).value = .map (Table.put v.value.entries (.str "metadata") m) := by
  have copies : ∀ key ∈ stampedKeys, (plain (m.lookup (.str key))).IsUnshared :=
    fun key _ => isUnshared_plain _
  rw [Linked.stamped, (foldl_place unshared copies).2]
  simp only [value_plain]
  simp only [Instance.metadata, Result.bind_eq_ok, Except.ok.injEq] at marked
  obtain ⟨text, -, labels, -, annotations, -, rfl⟩ := marked
  simp [stampedKeys, Value.set, Value.entries, Value.lookup, Table.putAll,
    Table.find?_put_self, Table.find?_put_of_ne, Table.put_put]

end Linked

namespace Blueprint
open Linked (value)
variable {b : Blueprint} {fields : Table String Linked} {refs : Resolutions}

/-- No map stands at two places of the skeleton. -/
def IsUnshared (b : Blueprint) : Prop :=
  (Linked.ofTable b.base).IsUnshared

instance (b : Blueprint) : Decidable b.IsUnshared :=
  inferInstanceAs (Decidable (Linked.IsUnshared _))

theorem skeleton_eq (unshared : b.IsUnshared) :
    b.skeleton.IsUnshared ∧ b.skeleton.value = b.template.skeleton := by
  have version := Linked.IsUnshared.set unshared ["apiVersion"]
    (Linked.isUnshared_scalar (.str b.apiVersion)) (List.disjoint_nil_right _)
  have kind := version.set ["kind"] (Linked.isUnshared_scalar (.str b.kind))
    (List.disjoint_nil_right _)
  refine ⟨kind, ?_⟩
  rw [skeleton, Linked.value_set version, Linked.value_set unshared, Linked.value_ofTable]
  rfl

theorem present_values (t : Template) (fields : Table String Linked) :
    t.present (fields.mapValues value) =
      (t.present fields).map fun writing => (writing.1, writing.2.value) := by
  simp only [Template.present, List.map_filterMap, Table.find?_mapValues, Option.map_map]
  rfl

theorem patched_eq (unshared : b.IsUnshared) (own : ∀ field ∈ fields, field.2.IsUnshared) :
    (b.patched fields).IsUnshared ∧
      (b.patched fields).value = b.template.patched (fields.mapValues value) := by
  obtain ⟨skeleton, same⟩ := skeleton_eq unshared
  have written : ∀ writing ∈ b.template.present fields, writing.2.IsUnshared := by
    intro writing member
    obtain ⟨patch, -, found⟩ := List.mem_filterMap.mp member
    obtain ⟨v, holds, rfl⟩ := Option.map_eq_some_iff.mp found
    exact own _ (Table.mem_of_find? holds)
  rw [Template.patched, present_values, ← same, List.foldl_map]
  exact Linked.foldl_place skeleton written

theorem foldlM_injectAt (paths : List FieldPath) {v : Linked} (unshared : v.IsUnshared) :
    value <$> paths.foldlM (injectAt refs) v = paths.foldlM (Template.injectAt refs) v.value ∧
      ∀ made, paths.foldlM (injectAt refs) v = .ok made → made.IsUnshared := by
  induction paths generalizing v with
  | nil => exact ⟨rfl, fun made comes => by cases comes; exact unshared⟩
  | cons p rest ih =>
    simp only [List.foldlM_cons, injectAt, Template.injectAt]
    cases refs.injectFields (v.value.valueAt p) with
    | error failure => exact ⟨rfl, fun made comes => by cases comes⟩
    | ok new =>
      have after := ih (unshared.place p.segments (Linked.isUnshared_plain new))
      rw [Linked.value_place unshared, Linked.value_plain] at after
      exact after

/-- A skeleton without shared maps is filled as the template says. -/
theorem filled_eq (refs : Resolutions) (unshared : b.IsUnshared)
    (own : ∀ field ∈ fields, field.2.IsUnshared) :
    value <$> b.filled fields refs = b.template.filled (fields.mapValues value) refs ∧
      ∀ made, b.filled fields refs = .ok made → made.IsUnshared := by
  obtain ⟨patched, same⟩ := patched_eq unshared own
  have paths : (b.template.present (fields.mapValues value)).map (·.1) =
      (b.template.present fields).map (·.1) := by
    rw [present_values, List.map_map]
    rfl
  rw [Template.filled, paths, ← same]
  exact foldlM_injectAt _ patched

end Blueprint

/-- No map stands at two places of a skeleton. -/
def Design.IsUnshared (d : Design) : Prop :=
  ∀ b ∈ d.blueprints, b.IsUnshared

instance (d : Design) : Decidable d.IsUnshared :=
  inferInstanceAs (Decidable (∀ b ∈ _, _))

/-- A design of one template, whose skeleton has the same empty map at two places. -/
def Design.ofShared (patches : List Patch) : Design where
  kind := "App"
  blueprints := [{
    name := ⟨"main", Eq.refl true⟩
    kind := "ConfigMap"
    base := [("a", .map 0 []), ("b", .map 0 [])]
    patches }]

namespace Instance
variable {fields : Table String Linked}

theorem resourceOf_eq (i : Instance) (manager : String) (refs : Resolutions) {b : Blueprint}
    (unshared : b.IsUnshared) (own : ∀ field ∈ fields, field.2.IsUnshared) :
    i.resourceOf manager fields refs b =
      i.resource manager (fields.mapValues Linked.value) refs b.template := by
  obtain ⟨same, keeps⟩ := Blueprint.filled_eq refs unshared own
  rw [resourceOf, resource, ← same]
  cases filled : b.filled fields refs with
  | error failure => rfl
  | ok v =>
    simp only [Result.ok_bind, Functor.map, Except.map]
    cases marked : i.metadata manager b.template v.value with
    | error failure => rfl
    | ok m => rw [Result.ok_bind, Result.ok_bind, Linked.value_stamped (keeps v filled) marked]

/-- A finished resource has all that canonical text asks for, whichever of its maps are the same. -/
theorem resourceOf_renders {i : Instance} {manager : String} {refs : Resolutions} {b : Blueprint}
    {v : Value} (made : i.resourceOf manager fields refs b = .ok v) :
    v.hasOrder = true ∧ v.isWritable = true := by
  simp only [resourceOf, Result.bind_eq_ok, Value.sorted?_eq_ok] at made
  obtain ⟨filled, -, metadata, ofMetadata, ordered, rfl⟩ := made
  obtain ⟨writable, added⟩ := isWritable_metadata ofMetadata
  rw [Value.hasOrder_sortKeys, Value.isWritable_sortKeys]
  exact ⟨ordered, Linked.isWritable_stamped writable added⟩

/-- Skeletons that are changed in place make the resources of their templates, as long as no map stands
at two places of a skeleton or a field value. -/
theorem resourcesOf_eq (i : Instance) {d : Design} (manager : String) (refs : Resolutions)
    (unshared : d.IsUnshared) (own : ∀ field ∈ fields, field.2.IsUnshared) :
    i.resourcesOf d manager fields refs =
      i.resources d.composition manager (fields.mapValues Linked.value) refs := by
  rw [resourcesOf, resources, Design.composition, List.mapM_map]
  exact mapM_congr fun b member => i.resourceOf_eq manager refs (unshared b member) own

end Instance

end WorkloadConfig
