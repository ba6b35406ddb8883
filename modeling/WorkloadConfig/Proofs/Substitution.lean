import WorkloadConfig.Proofs.Paths

namespace WorkloadConfig

theorem Key.text_or_not (key : Key) : (∃ k, key = .str k) ∨ ∀ k, key ≠ .str k := by
  by_cases text : ∃ k, key = .str k
  · exact .inl text
  · exact .inr fun k same => text ⟨k, same⟩

namespace Value

mutual

/-- The value with every text leaf replaced. -/
def substitute (f : String → Value) : Value → Value
  | .str text => f text
  | .list items => .list (substituteItems f items)
  | .map entries => .map (substituteEntries f entries)
  | v => v

def substituteItems (f : String → Value) : List Value → List Value
  | [] => []
  | v :: rest => substitute f v :: substituteItems f rest

def substituteEntries (f : String → Value) : List (Key × Value) → List (Key × Value)
  | [] => []
  | (k, v) :: rest => (k, substitute f v) :: substituteEntries f rest

end

variable {f : String → Value}

theorem substituteItems_eq (f : String → Value) (items : List Value) :
    substituteItems f items = items.map (substitute f) := by
  induction items with
  | nil => rfl
  | cons v rest ih => exact congrArg (_ :: ·) ih

theorem substituteEntries_eq (f : String → Value) (entries : List (Key × Value)) :
    substituteEntries f entries = Table.mapValues entries (substitute f) := by
  induction entries with
  | nil => rfl
  | cons entry rest ih => exact congrArg (_ :: ·) ih

theorem find?_substituteEntries (entries : List (Key × Value)) (key : Key) :
    Table.find? (substituteEntries f entries) key =
      (Table.find? entries key).map (substitute f) := by
  rw [substituteEntries_eq, Table.find?_mapValues]

theorem substituteEntries_put (entries : List (Key × Value)) (key : Key) (v : Value) :
    substituteEntries f (Table.put entries key v) =
      Table.put (substituteEntries f entries) key (v.substitute f) := by
  induction entries with
  | nil => rfl
  | cons entry rest ih =>
    by_cases same : entry.1 = key <;> simp [substituteEntries, Table.put, same, ih]

/-- Every leaf of the result is one of what a leaf was replaced by. -/
theorem mem_leaves_substitute {v : Value} {leaf : String} :
    leaf ∈ (v.substitute f).leaves ↔ ∃ text ∈ v.leaves, leaf ∈ (f text).leaves := by
  induction v using Value.induction with
  | scalar s => cases s <;> simp [substitute, leaves]
  | list items ih =>
    simp only [substitute, leaves]
    induction items with
    | nil => simp [substituteItems, leavesOfItems]
    | cons v rest others =>
      obtain ⟨first, ih⟩ := List.forall_mem_cons.mp ih
      simp only [substituteItems, leavesOfItems, List.mem_append, first, others ih, or_and_right,
        exists_or]
  | map entries ih =>
    simp only [substitute, leaves]
    induction entries with
    | nil => simp [substituteEntries, leavesOfEntries]
    | cons entry rest others =>
      obtain ⟨first, ih⟩ := List.forall_mem_cons.mp ih
      simp only [substituteEntries, leavesOfEntries, List.mem_append, first, others ih,
        or_and_right, exists_or]

theorem substituteEntries_eq_of_mem {g : String → Value} {entries : List (Key × Value)}
    (same : ∀ entry ∈ entries, entry.2.substitute f = entry.2.substitute g) :
    substituteEntries f entries = substituteEntries g entries := by
  rw [substituteEntries_eq, substituteEntries_eq]
  exact List.map_congr_left fun entry member => congrArg (entry.1, ·) (same entry member)

/-- Only what replaces the leaves of the value matters. -/
theorem substitute_congr {g : String → Value} {v : Value}
    (same : ∀ leaf ∈ v.leaves, f leaf = g leaf) : v.substitute f = v.substitute g := by
  induction v using Value.induction with
  | scalar s =>
    cases s with
    | str text => exact same text (by simp [leaves])
    | _ => rfl
  | list items ih =>
    rw [substitute, substitute, substituteItems_eq, substituteItems_eq]
    refine congrArg Value.list (List.map_congr_left fun v member => ih v member ?_)
    exact fun leaf within => same leaf (mem_leavesOfItems.mpr ⟨v, member, within⟩)
  | map entries ih =>
    rw [substitute, substitute]
    refine congrArg Value.map (substituteEntries_eq_of_mem fun entry member => ih entry member ?_)
    exact fun leaf within => same leaf (mem_leavesOfEntries.mpr ⟨entry, member, within⟩)

theorem substitute_str (v : Value) : v.substitute .str = v := by
  induction v using Value.induction with
  | scalar s => cases s <;> rfl
  | list items ih => rw [substitute, substituteItems_eq, List.map_congr_left ih, List.map_id']
  | map entries ih =>
    have same : Table.mapValues entries (substitute .str) = entries := by
      refine (List.map_congr_left fun entry member => ?_).trans entries.map_id'
      exact congrArg (entry.1, ·) (ih entry member)
    rw [substitute, substituteEntries_eq, same]

mutual

/-- The value with the text leaves replaced that lie at or below a covered position. Of several
entries under one key only the first is ever found, so the others count as not covered. -/
def substituteWhere (f : String → Value) (covered : List String → Bool) : Value → Value
  | .map entries =>
    .map (if covered [] then substituteEntries f entries
      else substituteEntriesWhere f covered entries)
  | v => if covered [] then v.substitute f else v

def substituteEntriesWhere (f : String → Value) (covered : List String → Bool) :
    List (Key × Value) → List (Key × Value)
  | [] => []
  | (.str k, v) :: rest =>
    (.str k, substituteWhere f (fun path => covered (k :: path)) v) ::
      substituteEntriesWhere f (fun path => path.head? ≠ some k && covered path) rest
  | entry :: rest => entry :: substituteEntriesWhere f covered rest

end

variable {covered : List String → Bool}

/-- No path leads through an entry whose key is no text. -/
theorem substituteEntriesWhere_skip {key : Key} (noText : ∀ k, key ≠ .str k) (v : Value)
    (rest : List (Key × Value)) : substituteEntriesWhere f covered ((key, v) :: rest) =
      (key, v) :: substituteEntriesWhere f covered rest := by
  rw [substituteEntriesWhere]
  exact fun k _ same => noText k (congrArg Prod.fst same)

theorem substituteWhere_of_covered (v : Value) (here : covered [] = true) :
    v.substituteWhere f covered = v.substitute f := by
  cases v with
  | scalar _ | list _ => exact if_pos here
  | map entries => rw [substituteWhere, if_pos here, substitute]

/-- Where the position itself is not covered, the entries are gone through one by one. -/
theorem entries_substituteWhere (v : Value) (notHere : covered [] = false) :
    (v.substituteWhere f covered).entries = substituteEntriesWhere f covered v.entries := by
  cases v <;> simp [substituteWhere, substituteEntriesWhere, entries, notHere]

theorem find?_substituteEntriesWhere (entries : List (Key × Value)) (k : String) :
    Table.find? (substituteEntriesWhere f covered entries) (.str k) =
      (Table.find? entries (.str k)).map (substituteWhere f fun path => covered (k :: path)) := by
  induction entries generalizing covered with
  | nil => rfl
  | cons entry rest ih =>
    obtain ⟨key, v⟩ := entry
    rcases key.text_or_not with ⟨l, rfl⟩ | noText
    · by_cases same : l = k
      · subst same
        simp [substituteEntriesWhere, Table.find?]
      · simp [substituteEntriesWhere, Table.find?, same, ih, Ne.symm same]
    · rw [substituteEntriesWhere_skip noText, Table.find?, Table.find?, if_neg (noText k),
        if_neg (noText k), ih]

theorem lookup_substituteWhere (v : Value) (k : String) (notHere : covered [] = false) :
    (v.substituteWhere f covered).lookup (.str k) =
      (v.lookup (.str k)).substituteWhere f fun path => covered (k :: path) := by
  rw [lookup, entries_substituteWhere v notHere, find?_substituteEntriesWhere, lookup]
  cases Table.find? v.entries (.str k) with
  | some part => rfl
  | none => simp [substituteWhere, substitute]

/-- Below a covered position there is nothing but what leaves were replaced by. -/
theorem mem_leaves_substituteWhere {v part : Value} {path : List String} {leaf : String}
    (found : (v.substituteWhere f covered).get? path = some part) (isCovered : covered path = true)
    (within : leaf ∈ part.leaves) : ∃ text, leaf ∈ (f text).leaves := by
  induction path generalizing v covered with
  | nil =>
    cases found
    rw [substituteWhere_of_covered v isCovered, mem_leaves_substitute] at within
    obtain ⟨text, -, within⟩ := within
    exact ⟨text, within⟩
  | cons k path ih =>
    cases here : covered [] with
    | true =>
      rw [substituteWhere_of_covered v here] at found
      obtain ⟨text, -, within⟩ := mem_leaves_substitute.mp (mem_leaves_of_get? found within)
      exact ⟨text, within⟩
    | false =>
      rw [get?_cons, entries_substituteWhere v here, find?_substituteEntriesWhere,
        Option.bind_eq_some_iff] at found
      obtain ⟨child, atKey, found⟩ := found
      obtain ⟨old, -, rfl⟩ := Option.map_eq_some_iff.mp atKey
      exact ih found isCovered

end Value

namespace Resolutions
variable {refs : Resolutions} {onPointer : Pointer → Result Value}

/-- What a text leaf stands for, null where it stands for nothing. -/
def standing (refs : Resolutions) (onPointer : Pointer → Result Value) (text : String) : Value :=
  match refs.replacement onPointer text with
  | .ok v => v
  | .error _ => .null

/-- Something stands in the place of each leaf. -/
def Replaces (refs : Resolutions) (onPointer : Pointer → Result Value) (leaves : List String) :
    Prop :=
  ∀ leaf ∈ leaves, ∃ v, refs.replacement onPointer leaf = .ok v

theorem replacement_eq_ok {text : String} {v : Value} :
    refs.replacement onPointer text = .ok v ↔
      (∃ u, refs.replacement onPointer text = .ok u) ∧ v = refs.standing onPointer text := by
  unfold standing
  cases refs.replacement onPointer text <;> simp [eq_comm]

theorem replaces_leavesOfItems {items : List Value} :
    refs.Replaces onPointer (Value.leavesOfItems items) ↔
      ∀ v ∈ items, refs.Replaces onPointer v.leaves := by
  simp only [Replaces, Value.mem_leavesOfItems]
  exact ⟨fun all v member leaf within => all leaf ⟨v, member, within⟩,
    fun all leaf ⟨v, member, within⟩ => all v member leaf within⟩

theorem replaces_leavesOfEntries {entries : List (Key × Value)} :
    refs.Replaces onPointer (Value.leavesOfEntries entries) ↔
      ∀ entry ∈ entries, refs.Replaces onPointer entry.2.leaves := by
  simp only [Replaces, Value.mem_leavesOfEntries]
  exact ⟨fun all entry member leaf within => all leaf ⟨entry, member, within⟩,
    fun all leaf ⟨entry, member, within⟩ => all entry member leaf within⟩

theorem injectItems_eq (items : List Value) :
    refs.injectItems onPointer items = items.mapM (refs.inject onPointer) := by
  induction items with
  | nil => rfl
  | cons v rest ih => simp only [injectItems, List.mapM_cons, ih, Result.pure_eq]

theorem injectEntries_eq (entries : List (Key × Value)) :
    refs.injectEntries onPointer entries =
      entries.mapM fun entry => Prod.mk entry.1 <$> refs.inject onPointer entry.2 := by
  induction entries with
  | nil => rfl
  | cons entry rest ih =>
    rw [injectEntries, List.mapM_cons, ih]
    cases refs.inject onPointer entry.2 <;> rfl

/-- Replacing references comes to the substitution of what they stand for, provided that each leaf
stands for something. -/
theorem inject_eq_ok {v w : Value} :
    refs.inject onPointer v = .ok w ↔
      refs.Replaces onPointer v.leaves ∧ w = v.substitute (refs.standing onPointer) := by
  induction v using Value.induction generalizing w with
  | scalar s =>
    cases s with
    | str text =>
      simp only [inject, Value.leaves, Value.substitute, Replaces, List.mem_singleton, forall_eq]
      exact replacement_eq_ok
    | _ => simp [inject, Value.leaves, Value.substitute, Replaces, eq_comm]
  | list items ih =>
    rw [inject, injectItems_eq, Value.leaves, replaces_leavesOfItems, Value.substitute,
      Value.substituteItems_eq]
    exact Result.map_eq_ok_iff fun _ => Result.mapM_eq_ok_iff fun v member _ => ih v member
  | map entries ih =>
    rw [inject, injectEntries_eq, Value.leaves, replaces_leavesOfEntries, Value.substitute,
      Value.substituteEntries_eq]
    exact Result.map_eq_ok_iff fun _ => Result.mapM_eq_ok_iff fun entry member _ =>
      Result.map_eq_ok_iff fun _ => ih entry member

/-- Where replacing references fails, it fails because of one of the leaves. -/
theorem exists_leaf_of_inject_error {v : Value} {failure : Failure}
    (fails : refs.inject onPointer v = .error failure) :
    ∃ leaf ∈ v.leaves, refs.replacement onPointer leaf = .error failure := by
  induction v using Value.induction with
  | scalar s =>
    cases s with
    | str text => exact ⟨text, by simp [Value.leaves], fails⟩
    | _ => cases fails
  | list items ih =>
    rw [inject, Result.map_eq_error, injectItems_eq] at fails
    obtain ⟨v, member, fails⟩ := Result.exists_of_mapM_error fails
    obtain ⟨leaf, within, fails⟩ := ih v member fails
    exact ⟨leaf, Value.mem_leavesOfItems.mpr ⟨v, member, within⟩, fails⟩
  | map entries ih =>
    rw [inject, Result.map_eq_error, injectEntries_eq] at fails
    obtain ⟨entry, member, fails⟩ := Result.exists_of_mapM_error fails
    obtain ⟨leaf, within, fails⟩ := ih entry member (Result.map_eq_error.mp fails)
    exact ⟨leaf, Value.mem_leavesOfEntries.mpr ⟨entry, member, within⟩, fails⟩

end Resolutions
end WorkloadConfig
