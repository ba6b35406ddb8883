import Mathlib.Data.List.Forall2
import WorkloadConfig.Proofs.Sharing

namespace WorkloadConfig

namespace FieldPath

theorem splitOn_joined (p rest : FieldPath) : (p.text ++ "." ++ rest.text).toList.splitOn '.' =
    p.text.toList.splitOn '.' ++ rest.text.toList.splitOn '.' := by
  have text : (p.text ++ "." ++ rest.text).toList = p.text.toList ++ '.' :: rest.text.toList := by
    simp
  rw [text, List.splitOn_eq_splitOnP, List.splitOn_eq_splitOnP, List.splitOn_eq_splitOnP]
  exact List.splitOnP_append_cons _ _ (beq_self_eq_true '.')

/-- The path that goes on along the other one. -/
def join (p rest : FieldPath) : FieldPath where
  text := p.text ++ "." ++ rest.text
  valid := by rw [splitOn_joined, List.all_append, p.valid, rest.valid, Bool.and_self]

theorem segments_join (p rest : FieldPath) :
    (p.join rest).segments = p.segments ++ rest.segments := by
  rw [segments, join, splitOn_joined, List.map_append, segments, segments]

theorem segments_ne_nil (p : FieldPath) : p.segments ≠ [] := by
  rw [segments, ne_eq, List.map_eq_nil_iff, List.splitOn_eq_splitOnP]
  exact List.splitOnP_ne_nil _ _

end FieldPath

/-- Two writings under different keys leave the same entries, in whichever order they come. -/
theorem Table.put_comm_perm {κ α : Type} [DecidableEq κ] (t : Table κ α) {key other : κ}
    (apart : key ≠ other) (a b : α) :
    ((t.put key a).put other b).Perm ((t.put other b).put key a) := by
  induction t with
  | nil => simpa [Table.put, apart, apart.symm] using List.Perm.swap (other, b) (key, a) []
  | cons entry rest ih =>
    obtain ⟨own, c⟩ := entry
    by_cases ofKey : own = key
    · subst ofKey
      simp [Table.put, apart]
    · by_cases ofOther : own = other
      · subst ofOther
        simp [Table.put, ofKey]
      · simpa [Table.put, ofKey, ofOther] using ih

namespace Value

/-- The values differ at most in the order of the entries of their maps, at any depth and whatever the
keys are. -/
inductive Rearranged : Value → Value → Prop
  | scalar (s : Scalar) : Rearranged (.scalar s) (.scalar s)
  | list {items others : List Value} : List.Forall₂ Rearranged items others →
      Rearranged (.list items) (.list others)
  | map {entries moved others : List (Key × Value)} : entries.Perm moved →
      Table.keys moved = Table.keys others →
      List.Forall₂ Rearranged (moved.map (·.2)) (others.map (·.2)) →
      Rearranged (.map entries) (.map others)

namespace Rearranged

theorem refl (v : Value) : v.Rearranged v := by
  induction v using Value.induction with
  | scalar s => exact .scalar s
  | list items ih => exact .list (List.forall₂_same.mpr ih)
  | map entries ih =>
    refine .map (.refl _) rfl (List.forall₂_same.mpr fun part member => ?_)
    obtain ⟨entry, inEntries, rfl⟩ := List.mem_map.mp member
    exact ih entry inEntries

theorem of_perm {entries others : List (Key × Value)} (perm : entries.Perm others) :
    Rearranged (.map entries) (.map others) :=
  .map perm rfl (List.forall₂_same.mpr fun value _ => refl value)

theorem put (entries : List (Key × Value)) (key : Key) {v w : Value} (same : v.Rearranged w) :
    Rearranged (.map (Table.put entries key v)) (.map (Table.put entries key w)) := by
  refine .map (.refl _) (by rw [Table.keys_put, Table.keys_put]) ?_
  induction entries with
  | nil => exact .cons same .nil
  | cons entry rest ih =>
    simp only [Table.put]
    split
    · exact .cons same (List.forall₂_same.mpr fun value _ => refl value)
    · exact .cons (refl _) ih

end Rearranged

/-- Of two writings at paths apart either may come first. -/
theorem set_comm (r : Value) {path other : List String} (v w : Value)
    (notBelow : ¬ path <+: other) (notAbove : ¬ other <+: path) :
    ((r.set path v).set other w).Rearranged ((r.set other w).set path v) := by
  induction path generalizing r other with
  | nil => exact absurd List.nil_prefix notBelow
  | cons k path ih =>
    cases other with
    | nil => exact absurd List.nil_prefix notAbove
    | cons l other =>
      simp only [set_cons, entries]
      by_cases same : k = l
      · -- The paths go on together, so both writings are within one entry.
        subst same
        simp only [List.cons_prefix_cons, true_and] at notBelow notAbove
        simp only [lookup, entries, Table.find?_put_self, Option.getD_some, Table.put_put]
        exact .put _ _ (ih _ notBelow notAbove)
      · have apart : Key.str k ≠ .str l := by simpa using same
        simp only [lookup, entries, Table.find?_put_of_ne _ _ apart,
          Table.find?_put_of_ne _ _ apart.symm]
        exact .of_perm (Table.put_comm_perm _ apart _ _)

end Value

namespace Linked
variable {v new newer : Linked} {entries : List (Key × Linked)} {id n : Nat} {key landed : String}
  {path other rest : List String} {place : Nat × String × List String}

mutual

/-- No map stands within itself. -/
def isGrounded : Linked → Bool
  | .scalar _ => true
  | .list items => isGroundedItems items
  | .map id entries => !(idsOfEntries entries).contains id && isGroundedEntries entries

def isGroundedItems : List Linked → Bool
  | [] => true
  | v :: rest => isGrounded v && isGroundedItems rest

def isGroundedEntries : List (Key × Linked) → Bool
  | [] => true
  | (_, v) :: rest => isGrounded v && isGroundedEntries rest

end

theorem isGrounded_map : (map id entries).isGrounded = true ↔
    id ∉ idsOfEntries entries ∧ isGroundedEntries entries = true := by
  simp [isGrounded]

theorem isGrounded_of_find? {key : Key} (grounded : isGroundedEntries entries = true)
    (found : Table.find? entries key = some v) : v.isGrounded = true := by
  induction entries with
  | nil => cases found
  | cons entry rest ih =>
    obtain ⟨first, later⟩ := Bool.and_eq_true_iff.mp grounded
    rw [Table.find?] at found
    split at found
    · cases found
      exact first
    · exact ih later found

theorem find?_assignEntries (id : Nat) (key other : Key) (new : Linked)
    (entries : List (Key × Linked)) : Table.find? (assignEntries id key new entries) other =
      (Table.find? entries other).map (assign id key new) := by
  rw [assignEntries_eq, Table.find?_mapValues]

theorem assignEntries_put (id : Nat) (key other : Key) (new v : Linked)
    (entries : List (Key × Linked)) : assignEntries id key new (Table.put entries other v) =
      Table.put (assignEntries id key new entries) other (assign id key new v) := by
  rw [assignEntries_eq, assignEntries_eq, Table.mapValues_put]

theorem landing_nil (v : Linked) : v.landing [] = none := by
  cases v <;> rfl

theorem landing_of_find? {child : Linked} (found : Table.find? entries (.str key) = some child) :
    (map id entries).landing (key :: path) = some ((child.landing path).getD (id, key, path)) := by
  rw [landing, found, Option.bind_some]

theorem set_of_landing (lands : v.landing path = some (id, landed, rest)) (new : Linked) :
    v.set path new = assign id (.str landed) (nest (max v.next new.next) rest new) v := by
  rw [set, lands]

/-- After an assignment where a path lands, the path goes on in what was assigned. -/
theorem along_assign (grounded : v.isGrounded = true)
    (lands : v.landing path = some (id, landed, rest)) (new : Linked) :
    (assign id (.str landed) new v).landing path = some ((new.landing rest).getD (id, landed, rest)) ∧
      (assign id (.str landed) new v).value.get? path = new.value.get? rest := by
  induction path generalizing v with
  | nil => cases (landing_nil v).symm.trans lands
  | cons k path ih =>
    cases v with
    | scalar _ | list _ => cases lands
    | map own entries =>
      obtain ⟨notWithin, within⟩ := isGrounded_map.mp grounded
      rcases landing_cases lands with ⟨here, -⟩ | ⟨child, found, below⟩
      · cases here
        have placed := Table.find?_put_self (assignEntries id (.str landed) new entries) (.str landed) new
        rw [assign, if_pos rfl, value, Value.get?_cons, Value.entries, find?_valueEntries]
        exact ⟨landing_of_find? placed, by rw [placed]; rfl⟩
      · have apart : own ≠ id := by
          rintro rfl
          exact notWithin ((sublist_idsOfEntries found).subset (mem_ids_of_landing below))
        obtain ⟨goesOn, reads⟩ := ih (isGrounded_of_find? within found) below
        have changed : Table.find? (assignEntries id (.str landed) new entries) (.str k) =
            some (assign id (.str landed) new child) := by
          rw [find?_assignEntries, found, Option.map_some]
        rw [assign, if_neg apart, value, Value.get?_cons, Value.entries, find?_valueEntries, changed,
          landing_of_find? changed, goesOn]
        exact ⟨rfl, reads⟩

/-- Of two assignments to one entry the later is the only one that counts. -/
theorem assign_assign (id : Nat) (key : Key) (new newer v : Linked) :
    assign id key newer (assign id key new v) = assign id key newer v := by
  induction v using Linked.induction with
  | scalar s => rfl
  | list items ih =>
    rw [assign, assign, assign, assignItems_eq, assignItems_eq, assignItems_eq, List.map_map]
    exact congrArg Linked.list (List.map_congr_left ih)
  | map own entries ih =>
    have within : assignEntries id key newer (assignEntries id key new entries) =
        assignEntries id key newer entries := by
      rw [assignEntries_eq, assignEntries_eq, assignEntries_eq, Table.mapValues_mapValues,
        Table.mapValues_congr ih]
    by_cases same : own = id
    · simp only [assign, same, if_true, assignEntries_put, Table.put_put, within]
    · simp only [assign, same, if_false, within]

/-- An assignment to a map that has come in with another one is made in what was assigned. -/
theorem assign_assign_new {m : Nat} (key inner : Key) (new newer : Linked) (absent : m ∉ v.ids) :
    assign m inner newer (assign id key new v) = assign id key (assign m inner newer new) v := by
  induction v using Linked.induction with
  | scalar s => rfl
  | list items ih =>
    rw [ids, idsOfItems_eq, List.mem_flatMap] at absent
    rw [assign, assign, assign, assignItems_eq, assignItems_eq, assignItems_eq, List.map_map]
    exact congrArg Linked.list (List.map_congr_left fun v member =>
      ih v member fun within => absent ⟨v, member, within⟩)
  | map own entries ih =>
    obtain ⟨apart, absent⟩ := List.ne_and_not_mem_of_not_mem_cons absent
    rw [idsOfEntries_eq, List.mem_flatMap] at absent
    have within : assignEntries m inner newer (assignEntries id key new entries) =
        assignEntries id key (assign m inner newer new) entries := by
      rw [assignEntries_eq, assignEntries_eq, assignEntries_eq, Table.mapValues_mapValues]
      exact Table.mapValues_congr fun entry member =>
        ih entry member fun within => absent ⟨entry, member, within⟩
    by_cases same : own = id
    · simp only [assign, same, if_true, assignEntries_put, within]
      rw [if_neg fun again => apart (again.symm.trans same.symm)]
    · simp only [assign, same, apart.symm, if_false, within]

theorem value_assign_congr (id : Nat) (key : Key) (same : new.value = newer.value) (v : Linked) :
    (assign id key new v).value = (assign id key newer v).value := by
  induction v using Linked.induction with
  | scalar s => rfl
  | list items ih =>
    rw [assign, assign, value, value, assignItems_eq, assignItems_eq, valueItems_eq, valueItems_eq,
      List.map_map, List.map_map]
    exact congrArg Value.list (List.map_congr_left ih)
  | map own entries ih =>
    have within : valueEntries (assignEntries id key new entries) =
        valueEntries (assignEntries id key newer entries) := by
      rw [assignEntries_eq, assignEntries_eq, valueEntries_eq, valueEntries_eq,
        Table.mapValues_mapValues, Table.mapValues_mapValues]
      exact Table.mapValues_congr ih
    by_cases here : own = id
    · simp only [assign, here, if_true, value, valueEntries_put, within, same]
    · simp only [assign, here, if_false, value, within]

theorem value_nest (n : Nat) (path : List String) (new : Linked) :
    (nest n path new).value = Value.null.set path new.value :=
  value_nest_of_landing (v := .scalar .null) (by cases path <;> rfl) n new

/-- The last of the new maps along a path is where the path lands in them. -/
theorem exists_landing_nest (n : Nat) (k : String) (rest : List String) (new newer : Linked) :
    ∃ m last, n ≤ m ∧ (nest n (k :: rest) new).landing (k :: rest) = some (m, last, []) ∧
      assign m (.str last) newer (nest n (k :: rest) new) = nest n (k :: rest) newer := by
  induction rest generalizing n k with
  | nil => exact ⟨n, k, Nat.le_refl n, by simp [nest, landing, Table.find?, landing_nil],
      by simp [nest, assign, assignEntries, Table.put]⟩
  | cons l rest ih =>
    obtain ⟨m, last, above, lands, again⟩ := ih (n + 1) l
    have apart : n ≠ m := by omega
    refine ⟨m, last, by omega, ?_, ?_⟩
    · have first : Table.find? [(Key.str k, nest (n + 1) (l :: rest) new)] (.str k) = some _ :=
        if_pos rfl
      rw [nest, landing_of_find? first, lands, Option.getD_some]
    · rw [nest, assign, if_neg apart, assignEntries, again]
      rfl

/-- A second writing at a path is the only one that counts, wherever the maps on the way stand. -/
theorem value_set_set (grounded : v.isGrounded = true)
    (lands : v.landing path = some (id, landed, rest)) (new newer : Linked) :
    ((v.set path new).set path newer).value = (v.set path newer).value := by
  rw [set_of_landing lands new, set_of_landing lands newer]
  obtain ⟨again, -⟩ := along_assign grounded lands (nest (max v.next new.next) rest new)
  cases rest with
  | nil =>
    rw [landing_nil, Option.getD_none] at again
    rw [set_of_landing again, assign_assign]
    rfl
  | cons k rest =>
    obtain ⟨m, last, above, inner, changed⟩ :=
      exists_landing_nest (max v.next new.next) k rest new newer
    rw [inner, Option.getD_some] at again
    have absent : m ∉ v.ids := fun member => by
      have below := lt_next member
      omega
    rw [set_of_landing again, assign_assign_new _ _ _ _ absent, nest, changed]
    exact value_assign_congr _ _ ((value_nest _ _ _).trans (value_nest _ _ _).symm) v

theorem mem_range'_of_landing_nest (apart : ¬ path <+: other)
    (lands : (nest n path new).landing other = some place) : place.1 ∈ List.range' n path.length := by
  induction path generalizing n other with
  | nil => exact absurd List.nil_prefix apart
  | cons k rest ih =>
    cases other with
    | nil => cases lands
    | cons l other =>
      rw [List.length_cons, List.range'_succ]
      rcases landing_cases lands with ⟨rfl, -⟩ | ⟨child, found, below⟩
      · exact List.mem_cons_self
      · by_cases same : k = l
        · subst same
          rw [Table.find?, if_pos rfl] at found
          cases found
          exact List.mem_cons_of_mem _ (ih (by simpa using apart) below)
        · simp [Table.find?, same] at found

/-- After a writing, a path that does not go on along it lands in an old map or in one that is new along
the writing, and so in none of those that were written. -/
theorem mem_of_landing_assign (unshared : v.IsUnshared)
    (lands : v.landing path = some (id, landed, rest)) (apart : ¬ path <+: other)
    (later : (assign id (.str landed) (nest n rest new) v).landing other = some place) :
    place.1 ∈ v.ids ∨ place.1 ∈ List.range' n rest.length := by
  induction path generalizing v other with
  | nil => cases (landing_nil v).symm.trans lands
  | cons k path ih =>
    cases v with
    | scalar _ | list _ => cases lands
    | map own entries =>
      cases other with
      | nil => cases (landing_nil _).symm.trans later
      | cons l other =>
        obtain ⟨notWithin, distinct⟩ := List.nodup_cons.mp unshared
        have ofOld {child : Linked} (found : Table.find? entries (.str l) = some child)
            (below : child.landing other = some place) : place.1 ∈ (map own entries).ids :=
          List.mem_cons_of_mem _ ((sublist_idsOfEntries found).subset (mem_ids_of_landing below))
        rcases landing_cases lands with ⟨here, -⟩ | ⟨child, found, below⟩
        · cases here
          rw [assign, if_pos rfl, assignEntries_of_not_mem notWithin] at later
          rcases landing_cases later with ⟨rfl, -⟩ | ⟨child, found, below⟩
          · exact .inl List.mem_cons_self
          by_cases same : landed = l
          · subst same
            rw [Table.find?_put_self] at found
            cases found
            exact .inr (mem_range'_of_landing_nest (by simpa using apart) below)
          · rw [Table.find?_put_of_ne _ _ (by simpa using Ne.symm same)] at found
            exact .inl (ofOld found below)
        · have member := mem_ids_of_landing below
          have differ : own ≠ id := by
            rintro rfl
            exact notWithin ((sublist_idsOfEntries found).subset member)
          have once := List.nodup_iff_count_le_one.mp distinct id
          rw [assign, if_neg differ, assignEntries_of_find? once found member] at later
          rcases landing_cases later with ⟨rfl, -⟩ | ⟨inner, at', below'⟩
          · exact .inl List.mem_cons_self
          by_cases same : k = l
          · subst same
            rw [Table.find?_put_self] at at'
            cases at'
            have among := sublist_idsOfEntries found
            refine (ih (distinct.sublist among) below (by simpa using apart) below').imp_left fun old => ?_
            exact List.mem_cons_of_mem _ (among.subset old)
          · rw [Table.find?_put_of_ne _ _ (by simpa using Ne.symm same)] at at'
            exact .inl (ofOld at' below')

/-- After a writing of what holds none of the old maps, a path that does not go on along it lands in a map
that stands at one place. -/
theorem count_landing_set (unshared : v.IsUnshared) (own : v.ids.Disjoint new.ids)
    (lands : v.landing path = some (id, landed, rest)) (apart : ¬ path <+: other)
    (later : (v.set path new).landing other = some place) :
    (v.set path new).ids.count place.1 ≤ 1 := by
  rw [set_of_landing lands] at later ⊢
  obtain ⟨n, fresh⟩ : ∃ n, n = max v.next new.next := ⟨_, rfl⟩
  rw [← fresh] at later ⊢
  have ofOld := List.nodup_iff_count_le_one.mp unshared
  have old := ofOld place.1
  have along : (List.range' n rest.length).count place.1 ≤ 1 :=
    List.nodup_iff_count_le_one.mp List.nodup_range' place.1
  have bound : (assign id (.str landed) (nest n rest new) v).ids.count place.1 ≤
      v.ids.count place.1 + v.ids.count id * (nest n rest new).ids.count place.1 :=
    count_ids_assign place.1 v
  have product := Nat.mul_le_mul_right ((nest n rest new).ids.count place.1) (ofOld id)
  rw [ids_nest, List.count_append] at bound product
  -- The map is an old one or one along the writing, and never one of those that were written.
  rcases mem_of_landing_assign unshared lands apart later with member | member
  · have below := lt_next member
    have notAlong : place.1 ∉ List.range' n rest.length := fun inRange => by
      have above := (List.mem_range'_1.mp inRange).1
      omega
    rw [List.count_eq_zero.mpr notAlong, List.count_eq_zero.mpr (own member)] at bound product
    omega
  · have above := (List.mem_range'_1.mp member).1
    have notOld : place.1 ∉ v.ids := fun within => by
      have below := lt_next within
      omega
    have notWritten : place.1 ∉ new.ids := fun within => by
      have below := lt_next within
      omega
    rw [List.count_eq_zero.mpr notWritten] at bound product
    rw [List.count_eq_zero.mpr notOld] at bound
    omega

theorem exists_landing (id : Nat) (entries : List (Key × Linked)) (p : FieldPath) :
    ∃ place, (map id entries).landing p.segments = some place := by
  obtain ⟨k, rest, segments⟩ := List.exists_cons_of_ne_nil p.segments_ne_nil
  rw [segments, landing]
  exact ⟨_, rfl⟩

/-- What was written into a map is read at its path, and further along what is read in it. A second
writing takes its place without moving anything. If moreover no map stands at two places of the map that is
written into, nothing has changed at a path apart, and of two writings at such paths either may come first,
up to the order of keys. -/
theorem set_lawful (id : Nat) (entries : List (Key × Linked)) (p q : FieldPath) (v w : Linked)
    (grounded : (map id entries).isGrounded = true) (apartV : (map id entries).ids.Disjoint v.ids)
    (apartW : (map id entries).ids.Disjoint w.ids) :
    let r := map id entries
    (r.set p.segments v).value.get? p.segments = some v.value ∧
      (∀ rest : FieldPath,
        (r.set p.segments v).value.get? (p.join rest).segments = v.value.get? rest.segments) ∧
      ((r.set p.segments v).set p.segments w).value = (r.set p.segments w).value ∧
      (r.IsUnshared → p.Apart q →
        (r.set p.segments v).value.get? q.segments = r.value.get? q.segments ∧
        ((r.set p.segments v).set q.segments w).value.Rearranged
          ((r.set q.segments w).set p.segments v).value) := by
  intro r
  obtain ⟨⟨own, landed, rest⟩, landsP⟩ := exists_landing id entries p
  obtain ⟨⟨_, _, _⟩, landsQ⟩ := exists_landing id entries q
  have here : (r.set p.segments v).value.get? p.segments = some v.value := by
    rw [set_of_landing landsP, (along_assign grounded landsP _).2, value_nest, Value.get?_set]
  refine ⟨here, fun rest => ?_, value_set_set grounded landsP v w, fun unshared apart => ?_⟩
  · rw [FieldPath.segments_join, Value.get?_append, here, Option.bind_some]
  · have afterV := value_set_of_once w fun place => count_landing_set unshared apartV landsP apart.1
    have afterW := value_set_of_once v fun place => count_landing_set unshared apartW landsQ apart.2
    rw [afterV, afterW, value_set unshared, value_set unshared]
    exact ⟨Value.get?_set_apart _ _ apart.1 apart.2, Value.set_comm _ _ _ apart.1 apart.2⟩

/-- The paths part below a number, which both writings replace by a map. -/
theorem set_lawful_ofNumber :
    let r : List (Key × Linked) := [("spec", .int 1), ("note", .str "x")]
    let p : FieldPath := ⟨"spec.image", by decide⟩
    let q : FieldPath := ⟨"spec.port", by decide⟩
    let v : Linked := .map 1 [("tag", .str "1")]
    let w : Linked := .int 2
    (map 0 r).isGrounded = true ∧ (map 0 r).ids.Disjoint v.ids ∧ (map 0 r).ids.Disjoint w.ids ∧
      (map 0 r).IsUnshared ∧ p.Apart q ∧
      ((map 0 r).set p.segments v).value =
        .map [("spec", .map [("image", v.value)]), ("note", .str "x")] ∧
      ((map 0 r).set p.segments v).value.get? p.segments = some v.value ∧
      (∀ rest : FieldPath,
        ((map 0 r).set p.segments v).value.get? (p.join rest).segments =
          v.value.get? rest.segments) ∧
      (((map 0 r).set p.segments v).set p.segments w).value = ((map 0 r).set p.segments w).value ∧
      ((map 0 r).set p.segments v).value.get? q.segments = (map 0 r).value.get? q.segments ∧
      (((map 0 r).set p.segments v).set q.segments w).value.Rearranged
        (((map 0 r).set q.segments w).set p.segments v).value := by
  intro r p q v w
  have grounded : (map 0 r).isGrounded = true := by decide
  have apartV : (map 0 r).ids.Disjoint v.ids := by simp [r, v, ids, idsOfEntries]
  have apartW : (map 0 r).ids.Disjoint w.ids := List.disjoint_nil_right _
  have unshared : (map 0 r).IsUnshared := by decide
  have apart : p.Apart q := ⟨by decide, by decide⟩
  obtain ⟨here, below, again, frame⟩ := set_lawful 0 r p q v w grounded apartV apartW
  exact ⟨grounded, apartV, apartW, unshared, apart, by decide +kernel, here, below, again,
    frame unshared apart⟩

/-- What is written into a map shows under the other key that it stands under as well, where the later
of two writings is the one that counts. -/
theorem set_ofShared :
    let r : Linked := .map 0 [("a", .map 1 []), ("b", .map 1 [])]
    let p : FieldPath := ⟨"a.k", by decide⟩
    let q : FieldPath := ⟨"b.k", by decide⟩
    p.Apart q ∧
      r.value.get? q.segments = none ∧
      (r.set p.segments (.int 1)).value.get? q.segments = some (.int 1) ∧
      ((r.set p.segments (.int 1)).set q.segments (.int 2)).value.get? p.segments = some (.int 2) ∧
      ((r.set q.segments (.int 2)).set p.segments (.int 1)).value.get? p.segments = some (.int 1) := by
  exact ⟨⟨by decide, by decide⟩, by decide +kernel, by decide +kernel, by decide +kernel,
    by decide +kernel⟩

end Linked
end WorkloadConfig
