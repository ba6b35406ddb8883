import WorkloadConfig.Proofs.Literals
import WorkloadConfig.Proofs.Order.Values

namespace WorkloadConfig

namespace Value

/-- A step into a value, to an entry of a map or to an item of a list. -/
inductive Step where
  | entry (key : Key)
  | item (index : Nat)
deriving DecidableEq

/-- Where a part of a value stands. -/
abbrev Position := List Step

def child? : Value → Step → Option Value
  | .map entries, .entry key => Table.find? entries key
  | .list items, .item index => items[index]?
  | _, _ => none

/-- The part of the value at a position. -/
def at? : Value → Position → Option Value
  | v, [] => some v
  | v, step :: rest => (v.child? step).bind fun part => part.at? rest

mutual

/-- The value with each text leaf replaced by what its position and its text ask for. What a leaf is
replaced by is not looked through again. -/
def replaceLeaves (f : Position → String → Value) : Value → Value
  | .str text => f [] text
  | .list items => .list (replaceLeavesOfItems f 0 items)
  | .map entries => .map (replaceLeavesOfEntries f entries)
  | v => v

def replaceLeavesOfItems (f : Position → String → Value) (index : Nat) : List Value → List Value
  | [] => []
  | v :: rest =>
    replaceLeaves (fun position => f (.item index :: position)) v ::
      replaceLeavesOfItems f (index + 1) rest

def replaceLeavesOfEntries (f : Position → String → Value) :
    List (Key × Value) → List (Key × Value)
  | [] => []
  | (key, v) :: rest =>
    (key, replaceLeaves (fun position => f (.entry key :: position)) v) ::
      replaceLeavesOfEntries f rest

end

section
variable {f : Position → String → Value}

theorem getElem?_replaceLeavesOfItems (items : List Value) (start index : Nat) :
    (replaceLeavesOfItems f start items)[index]? =
      items[index]?.map (replaceLeaves fun position => f (.item (start + index) :: position)) := by
  induction items generalizing start index with
  | nil => rfl
  | cons v rest ih =>
    cases index with
    | zero => rfl
    | succ index => simp [replaceLeavesOfItems, ih, Nat.add_right_comm, Nat.add_assoc]

theorem replaceLeavesOfEntries_eq (entries : List (Key × Value)) :
    replaceLeavesOfEntries f entries = entries.map fun entry =>
      (entry.1, entry.2.replaceLeaves fun position => f (.entry entry.1 :: position)) := by
  induction entries with
  | nil => rfl
  | cons entry rest ih => rw [replaceLeavesOfEntries, List.map_cons, ih]

/-- Keys stay as they are, so what is asked of them holds after the leaves were replaced if it holds
within what replaces them. -/
theorem everyMap_replaceLeaves {asked : List Key → Bool} {v : Value} (all : v.everyMap asked = true)
    (each : ∀ position text, (f position text).everyMap asked = true) :
    (v.replaceLeaves f).everyMap asked = true := by
  induction v using Value.induction generalizing f with
  | scalar s =>
    cases s with
    | str text => exact each [] text
    | _ => rfl
  | list items ih =>
    refine everyMap_list.mpr fun w member => ?_
    obtain ⟨index, found⟩ := List.getElem?_of_mem member
    rw [getElem?_replaceLeavesOfItems] at found
    obtain ⟨v, there, rfl⟩ := Option.map_eq_some_iff.mp found
    have among := List.mem_of_getElem? there
    exact ih v among (everyMap_list.mp all v among) fun position => each _
  | map entries ih =>
    obtain ⟨keys, parts⟩ := everyMap_map.mp all
    rw [replaceLeaves, replaceLeavesOfEntries_eq]
    refine everyMap_map.mpr ⟨?_, fun entry member => ?_⟩
    · rw [Table.keys, List.map_map]
      exact keys
    · obtain ⟨old, among, rfl⟩ := List.mem_map.mp member
      exact ih old among (parts old among) fun position => each _

end

theorem at?_append (v : Value) (position rest : Position) :
    v.at? (position ++ rest) = (v.at? position).bind (·.at? rest) := by
  induction position generalizing v with
  | nil => rfl
  | cons step position ih => simp only [List.cons_append, at?, ih, Option.bind_assoc]

/-- The position that a path of texts leads to. -/
def along (path : List String) : Position :=
  path.map fun k => .entry (.str k)

theorem at?_along (v : Value) (path : List String) : v.at? (along path) = v.get? path := by
  induction path generalizing v with
  | nil => rfl
  | cons k path ih =>
    have child : v.child? (.entry (.str k)) = Table.find? v.entries (.str k) := by cases v <;> rfl
    rw [get?_cons, ← child]
    exact congrArg _ (funext ih)

theorem mem_leaves_of_child? {v part : Value} {step : Step} {leaf : String}
    (there : v.child? step = some part) (within : leaf ∈ part.leaves) : leaf ∈ v.leaves := by
  match v, step with
  | .map entries, .entry key => exact mem_leaves_of_entry (Table.mem_of_find? there) within
  | .list items, .item index =>
    exact mem_leavesOfItems.mpr ⟨part, List.mem_of_getElem? there, within⟩
  | .scalar _, _ | .list _, .entry _ | .map _, .item _ => simp [child?] at there

theorem mem_leaves_of_at? {v : Value} {position : Position} {leaf : String}
    (found : v.at? position = some (.str leaf)) : leaf ∈ v.leaves := by
  induction position generalizing v with
  | nil =>
    cases found
    exact List.mem_singleton.mpr rfl
  | cons step rest ih =>
    obtain ⟨part, there, found⟩ := Option.bind_eq_some_iff.mp found
    exact mem_leaves_of_child? there (ih found)

/-- The keys of each map within are distinct. -/
def HasDistinctKeys (v : Value) : Prop :=
  v.everyMap (fun keys => decide keys.Nodup) = true

theorem hasDistinctKeys_list {items : List Value} :
    (Value.list items).HasDistinctKeys ↔ ∀ v ∈ items, v.HasDistinctKeys :=
  everyMap_list

theorem hasDistinctKeys_map {entries : List (Key × Value)} : (Value.map entries).HasDistinctKeys ↔
    (Table.keys entries).Nodup ∧ ∀ entry ∈ entries, entry.2.HasDistinctKeys := by
  simp only [HasDistinctKeys, everyMap_map, decide_eq_true_eq]

namespace HasDistinctKeys
variable {v part new : Value}

theorem entries (distinct : v.HasDistinctKeys) :
    (Table.keys v.entries).Nodup ∧ ∀ entry ∈ v.entries, entry.2.HasDistinctKeys := by
  cases v with
  | map entries => exact hasDistinctKeys_map.mp distinct
  | scalar _ | list _ => exact ⟨.nil, by simp [Value.entries]⟩

theorem lookup (distinct : v.HasDistinctKeys) (key : Key) : (v.lookup key).HasDistinctKeys := by
  unfold Value.lookup
  cases found : Table.find? v.entries key with
  | none => exact Eq.refl true
  | some part => exact distinct.entries.2 _ (Table.mem_of_find? found)

theorem of_get? {path : List String} (distinct : v.HasDistinctKeys)
    (found : v.get? path = some part) : part.HasDistinctKeys := by
  induction path generalizing v with
  | nil =>
    cases found
    exact distinct
  | cons k path ih =>
    rw [get?_cons, Option.bind_eq_some_iff] at found
    obtain ⟨child, here, found⟩ := found
    exact ih (distinct.entries.2 _ (Table.mem_of_find? here)) found

theorem put {entries : List (Key × Value)} (distinct : (Value.map entries).HasDistinctKeys)
    (key : Key) (ofNew : new.HasDistinctKeys) :
    (Value.map (Table.put entries key new)).HasDistinctKeys := by
  obtain ⟨keys, parts⟩ := hasDistinctKeys_map.mp distinct
  refine hasDistinctKeys_map.mpr ⟨Table.nodup_keys_put keys key new, fun entry member => ?_⟩
  rcases Table.mem_put member with rfl | old
  · exact ofNew
  · exact parts entry old

theorem set (distinct : v.HasDistinctKeys) (path : List String) (ofNew : new.HasDistinctKeys) :
    (v.set path new).HasDistinctKeys := by
  induction path generalizing v with
  | nil => exact ofNew
  | cons k path ih =>
    rw [set_cons]
    exact put (hasDistinctKeys_map.mpr distinct.entries) _ (ih (distinct.lookup _))

theorem written {writings : List (FieldPath × Value)} (distinct : v.HasDistinctKeys)
    (values : ∀ writing ∈ writings, writing.2.HasDistinctKeys) :
    (v.written writings).HasDistinctKeys := by
  induction writings generalizing v with
  | nil => exact distinct
  | cons writing rest ih =>
    obtain ⟨first, others⟩ := List.forall_mem_cons.mp values
    exact ih (distinct.set _ first) others

/-- Every leaf stands somewhere. -/
theorem exists_at? (distinct : v.HasDistinctKeys) {leaf : String} (within : leaf ∈ v.leaves) :
    ∃ position, v.at? position = some (.str leaf) := by
  induction v using Value.induction with
  | scalar s => cases s <;> simp [leaves] at within; exact ⟨[], by rw [within]; rfl⟩
  | list items ih =>
    obtain ⟨v, member, within⟩ := mem_leavesOfItems.mp within
    obtain ⟨rest, found⟩ := ih v member (hasDistinctKeys_list.mp distinct v member) within
    obtain ⟨index, there⟩ := List.getElem?_of_mem member
    exact ⟨.item index :: rest, Option.bind_eq_some_iff.mpr ⟨v, there, found⟩⟩
  | map entries ih =>
    obtain ⟨keys, parts⟩ := hasDistinctKeys_map.mp distinct
    obtain ⟨⟨key, v⟩, member, within⟩ := mem_leavesOfEntries.mp within
    obtain ⟨rest, found⟩ := ih _ member (parts _ member) within
    have there := (Table.find?_eq_some_iff keys).mpr member
    exact ⟨.entry key :: rest, Option.bind_eq_some_iff.mpr ⟨v, there, found⟩⟩

end HasDistinctKeys

section
variable {f : String → Value} {g : Position → String → Value}

/-- Where the position does not matter, all leaves are substituted. -/
theorem replaceLeaves_const (v : Value) (same : ∀ position, g position = f) :
    v.replaceLeaves g = v.substitute f := by
  induction v using Value.induction generalizing g with
  | scalar s =>
    cases s with
    | str text => exact congrFun (same []) text
    | _ => rfl
  | list items ih =>
    have each (start : Nat) : replaceLeavesOfItems g start items = substituteItems f items := by
      induction items generalizing start with
      | nil => rfl
      | cons v rest others =>
        obtain ⟨first, ih⟩ := List.forall_mem_cons.mp ih
        rw [replaceLeavesOfItems, substituteItems, first fun position => same _, others ih]
    exact congrArg Value.list (each 0)
  | map entries ih =>
    refine congrArg Value.map ?_
    induction entries with
    | nil => rfl
    | cons entry rest others =>
      obtain ⟨first, ih⟩ := List.forall_mem_cons.mp ih
      rw [replaceLeavesOfEntries, substituteEntries, first fun position => same _, others ih]

theorem replaceLeaves_str (v : Value) (same : ∀ position, g position = .str) :
    v.replaceLeaves g = v := by
  rw [replaceLeaves_const v same, substitute_str]

theorem replaceLeavesOfItems_str (items : List Value) (start : Nat)
    (same : ∀ index rest, g (.item index :: rest) = .str) :
    replaceLeavesOfItems g start items = items := by
  induction items generalizing start with
  | nil => rfl
  | cons v rest ih => rw [replaceLeavesOfItems, replaceLeaves_str v fun _ => same _ _, ih]

/-- The position lies at or below a covered path. -/
def Reached (covered : List String → Bool) (position : Position) : Prop :=
  ∃ path, covered path = true ∧ along path <+: position

theorem reached_cons {covered : List String → Bool} {step : Step} {rest : Position}
    (notHere : covered [] = false) : Reached covered (step :: rest) ↔
      ∃ k, step = .entry (.str k) ∧ Reached (fun path => covered (k :: path)) rest := by
  constructor
  · rintro ⟨path, isCovered, before⟩
    cases path with
    | nil => rw [notHere] at isCovered; cases isCovered
    | cons k path =>
      obtain ⟨same, before⟩ := List.cons_prefix_cons.mp before
      exact ⟨k, same.symm, path, isCovered, before⟩
  · rintro ⟨k, rfl, path, isCovered, before⟩
    exact ⟨k :: path, isCovered, List.cons_prefix_cons.mpr ⟨rfl, before⟩⟩

/-- With distinct keys no entry is hidden by another, so the entries can be gone through on their
own. -/
theorem substituteEntriesWhere_eq {covered : List String → Bool} {entries : List (Key × Value)}
    (distinct : (Table.keys entries).Nodup)
    (texts : ∀ k v, (.str k, v) ∈ entries → v.substituteWhere f (fun path => covered (k :: path)) =
      v.replaceLeaves fun position => g (.entry (.str k) :: position))
    (others : ∀ key v, (key, v) ∈ entries → (∀ k, key ≠ .str k) →
      v.replaceLeaves (fun position => g (.entry key :: position)) = v) :
    substituteEntriesWhere f covered entries = replaceLeavesOfEntries g entries := by
  induction entries generalizing covered with
  | nil => rfl
  | cons entry rest ih =>
    obtain ⟨key, v⟩ := entry
    obtain ⟨fresh, ofRest⟩ := List.nodup_cons.mp distinct
    have later key v member := others key v (List.mem_cons_of_mem _ member)
    rcases key.text_or_not with ⟨k, rfl⟩ | noText
    · rw [substituteEntriesWhere, replaceLeavesOfEntries, texts k v List.mem_cons_self,
        ih ofRest (fun l w member => ?_) later]
      have apart : l ≠ k := by
        rintro rfl
        exact fresh (List.mem_map.mpr ⟨_, member, rfl⟩)
      simpa [apart] using texts l w (List.mem_cons_of_mem _ member)
    · rw [substituteEntriesWhere_skip noText, replaceLeavesOfEntries,
        others key v List.mem_cons_self noText, ih ofRest (fun l w member => ?_) later]
      exact texts l w (List.mem_cons_of_mem _ member)

theorem substituteWhere_eq_of_here {covered : List String → Bool} (v : Value)
    (here : covered [] = true) (inside : ∀ position, Reached covered position → g position = f) :
    v.substituteWhere f covered = v.replaceLeaves g := by
  rw [substituteWhere_of_covered v here]
  exact (replaceLeaves_const v fun position => inside position ⟨[], here, List.nil_prefix⟩).symm

theorem not_reached_nil {covered : List String → Bool} (notHere : covered [] = false) :
    ¬ Reached covered [] := by
  rintro ⟨path, isCovered, before⟩
  rw [List.map_eq_nil_iff.mp (List.prefix_nil.mp before), notHere] at isCovered
  cases isCovered

/-- A substitution at and below the covered paths goes by the position of each leaf. -/
theorem substituteWhere_eq_replaceLeaves {covered : List String → Bool} {v : Value}
    (distinct : v.HasDistinctKeys) (inside : ∀ position, Reached covered position → g position = f)
    (outside : ∀ position, ¬ Reached covered position → g position = .str) :
    v.substituteWhere f covered = v.replaceLeaves g := by
  induction v using Value.induction generalizing covered g with
  | scalar s =>
    cases here : covered [] with
    | true => exact substituteWhere_eq_of_here _ here inside
    | false =>
      refine Eq.trans (if_neg (by simp [here])) ?_
      cases s with
      | str text => exact (congrFun (outside [] (not_reached_nil here)) text).symm
      | _ => rfl
  | list items ih =>
    cases here : covered [] with
    | true => exact substituteWhere_eq_of_here _ here inside
    | false =>
      refine Eq.trans (if_neg (by simp [here])) ?_
      refine congrArg Value.list (replaceLeavesOfItems_str items 0 fun index rest => ?_).symm
      refine outside _ fun reached => ?_
      obtain ⟨k, same, -⟩ := (reached_cons here).mp reached
      cases same
  | map entries ih =>
    cases here : covered [] with
    | true => exact substituteWhere_eq_of_here _ here inside
    | false =>
      -- From here on only the entries under texts lead to covered positions.
      obtain ⟨keys, parts⟩ := hasDistinctKeys_map.mp distinct
      rw [substituteWhere, if_neg (by simp [here]), replaceLeaves]
      refine congrArg Value.map (substituteEntriesWhere_eq keys (fun k v member => ?_) ?_)
      · refine ih _ member (parts _ member) (fun position reached => ?_) fun position apart => ?_
        · exact inside _ ((reached_cons here).mpr ⟨k, rfl, reached⟩)
        · refine outside _ fun reached => apart ?_
          obtain ⟨l, same, reached⟩ := (reached_cons here).mp reached
          cases same
          exact reached
      · intro key v _ noText
        refine replaceLeaves_str v fun position => outside _ fun reached => ?_
        obtain ⟨k, same, -⟩ := (reached_cons here).mp reached
        exact noText k (Step.entry.inj same)

end

end Value

/-- What stands in the place of a resolved reference: its literal value, or the field of its
pointer. -/
def Resolved.shown : Resolved → Value
  | .literal v => v
  | .pointer p => p.field

namespace Resolutions
variable {refs : Resolutions} {text : String}

theorem exists_replacement_iff :
    (∃ v, refs.replacement (fun pointer => .ok pointer.field) text = .ok v) ↔
      (Reference.isReference text = true → ∃ resolved, refs.find? text = some resolved) := by
  unfold replacement
  split
  · rename_i isReference
    cases found : Table.find? refs text with
    | none => simp [isReference]
    | some resolved => cases resolved <;> simp
  · rename_i plain
    simp [plain]

theorem meaning_eq : refs.meaning text =
    if Reference.isReference text = true then ((refs.find? text).map Resolved.shown).getD .null
    else .str text := by
  unfold meaning standing replacement
  by_cases isReference : Reference.isReference text = true
  · simp only [isReference, if_true]
    cases Table.find? refs text with
    | none => rfl
    | some resolved => cases resolved <;> rfl
  · rw [if_neg isReference, if_neg isReference]

end Resolutions

namespace Template
open Value (Position HasDistinctKeys)
variable {t : Template} {fields : Assignment} {refs : Resolutions}

/-- The position lies at or below a place that a field value was written to. -/
def Covers (t : Template) (fields : Assignment) (position : Position) : Prop :=
  ∃ p ∈ t.places fields, Value.along p.segments <+: position

instance (t : Template) (fields : Assignment) (position : Position) :
    Decidable (t.Covers fields position) :=
  inferInstanceAs (Decidable (∃ p ∈ _, _))

/-- Each reference among the covered leaves has been resolved. -/
def IsResolved (t : Template) (fields : Assignment) (refs : Resolutions) : Prop :=
  ∀ position text, (t.patched fields).at? position = some (.str text) → t.Covers fields position →
    Reference.isReference text = true → ∃ resolved, refs.find? text = some resolved

/-- The tree with each covered reference replaced by what it was resolved to, all at once. -/
def substituted (t : Template) (fields : Assignment) (refs : Resolutions) : Value :=
  (t.patched fields).replaceLeaves fun position text =>
    if t.Covers fields position ∧ Reference.isReference text = true then
      ((refs.find? text).map Resolved.shown).getD .null
    else .str text

theorem covers_iff {position : Position} : t.Covers fields position ↔
    Value.Reached (FieldPath.covering (t.places fields)) position := by
  constructor
  · rintro ⟨p, member, before⟩
    exact ⟨p.segments, FieldPath.covering_iff.mpr ⟨p, member, List.prefix_refl _⟩, before⟩
  · rintro ⟨path, isCovered, before⟩
    obtain ⟨p, member, above⟩ := FieldPath.covering_iff.mp isCovered
    exact ⟨p, member, (above.map _).trans before⟩

theorem hasDistinctKeys_patched (base : (Value.ofTable t.base).HasDistinctKeys)
    (values : ∀ field ∈ fields, field.2.HasDistinctKeys) :
    (t.patched fields).HasDistinctKeys := by
  have version : (Value.str t.apiVersion).HasDistinctKeys := Eq.refl true
  have kind : (Value.str t.kind).HasDistinctKeys := Eq.refl true
  refine HasDistinctKeys.written ((base.put _ version).put _ kind) fun writing member => ?_
  obtain ⟨p, -, written⟩ := List.mem_filterMap.mp member
  obtain ⟨v, found, rfl⟩ := Option.map_eq_some_iff.mp written
  exact values _ (Table.mem_of_find? found)

theorem substituted_eq (distinct : (t.patched fields).HasDistinctKeys) :
    (t.patched fields).substituteWhere refs.meaning (FieldPath.covering (t.places fields)) =
      t.substituted fields refs := by
  refine Value.substituteWhere_eq_replaceLeaves distinct (fun position reached => ?_)
    fun position apart => ?_
  · have covers := covers_iff.mpr reached
    funext text
    simp only [covers, true_and, Resolutions.meaning_eq]
  · have notCovered : ¬ t.Covers fields position := fun covers => apart (covers_iff.mp covers)
    funext text
    simp only [notCovered, false_and, if_false]

theorem isResolved_iff (distinct : (t.patched fields).HasDistinctKeys) :
    t.IsResolved fields refs ↔
      ∀ p ∈ FieldPath.outermost (t.places fields), ∀ part,
        (t.patched fields).get? p.segments = some part →
          refs.Replaces (fun pointer => .ok pointer.field) part.leaves := by
  simp only [IsResolved, Resolutions.Replaces, Resolutions.exists_replacement_iff]
  constructor
  · intro resolved p outer part found leaf within
    obtain ⟨rest, there⟩ := (distinct.of_get? found).exists_at? within
    refine resolved (Value.along p.segments ++ rest) leaf ?_ ?_
    · rw [Value.at?_append, Value.at?_along, found]
      exact there
    · exact ⟨p, (FieldPath.mem_outermost.mp outer).1, List.prefix_append _ _⟩
  · rintro resolved position text found ⟨p, member, before⟩
    obtain ⟨q, outer, above⟩ := FieldPath.exists_outermost member
    obtain ⟨rest, rfl⟩ := (above.map fun k => Value.Step.entry (.str k)).trans before
    rw [← Value.along, Value.at?_append, Value.at?_along] at found
    obtain ⟨part, atPlace, found⟩ := Option.bind_eq_some_iff.mp found
    exact resolved q outer part atPlace text (Value.mem_leaves_of_at? found)

/-- A template is filled if each covered reference has been resolved, and then with the tree that
has them replaced. -/
theorem filled_exact (base : (Value.ofTable t.base).HasDistinctKeys)
    (values : ∀ field ∈ fields, field.2.HasDistinctKeys) {v : Value} :
    t.filled fields refs = .ok v ↔ t.IsResolved fields refs ∧ v = t.substituted fields refs := by
  have distinct := hasDistinctKeys_patched base values
  rw [filled_eq_ok, isResolved_iff distinct, substituted_eq distinct]

end Template

namespace Instance
open Value (HasDistinctKeys)

/-- What is left to do once a template is filled: the metadata goes on top, and the keys are put in
order. -/
def finish (i : Instance) (manager : String) (t : Template) (filled : Value) : Result Value := do
  let metadata ← i.metadata manager t filled
  Value.sorted? (.map (Table.put filled.entries (.str "metadata") metadata))

theorem resource_eq_ok (i : Instance) (manager : String) {t : Template} {fields : Assignment}
    {refs : Resolutions} {made : Value} (base : (Value.ofTable t.base).HasDistinctKeys)
    (values : ∀ field ∈ fields, field.2.HasDistinctKeys) :
    i.resource manager fields refs t = .ok made ↔ t.IsResolved fields refs ∧
      i.finish manager t (t.substituted fields refs) = .ok made := by
  have stages : i.resource manager fields refs t =
      t.filled fields refs >>= i.finish manager t := rfl
  simp only [stages, Result.bind_eq_ok, Template.filled_exact base values]
  constructor
  · rintro ⟨_, ⟨resolved, rfl⟩, finished⟩
    exact ⟨resolved, finished⟩
  · rintro ⟨resolved, finished⟩
    exact ⟨_, ⟨resolved, rfl⟩, finished⟩

theorem resources_eq_ok (i : Instance) (c : Composition) (manager : String) {fields : Assignment}
    {refs : Resolutions} {made : List Value}
    (bases : ∀ t ∈ c.resources, (Value.ofTable t.base).HasDistinctKeys)
    (values : ∀ field ∈ fields, field.2.HasDistinctKeys) :
    i.resources c manager fields refs = .ok made ↔
      List.Forall₂ (fun t resource => t.IsResolved fields refs ∧
        i.finish manager t (t.substituted fields refs) = .ok resource) c.resources made := by
  have each (t : Template) (member : t ∈ c.resources) (resource : Value) :
      i.resource manager fields refs t = .ok resource ↔ t.IsResolved fields refs ∧
        i.finish manager t (t.substituted fields refs) = .ok resource :=
    i.resource_eq_ok manager (bases t member) values
  rw [resources, mapM_eq_ok]
  constructor
  · intro all
    exact forall₂_imp_mem all fun t member resource => (each t member resource).mp
  · intro all
    exact forall₂_imp_mem all fun t member resource => (each t member resource).mpr

/-- The resources are those that the substituted trees of the templates are finished to, as long as no
map stands at two places of a skeleton or a field value. There are none if a covered reference has not
been resolved or a tree cannot be finished. -/
theorem resources_exact (i : Instance) (d : Design) (manager : String)
    {fields : Table String Linked} {refs : Resolutions} {made : List Value}
    (unshared : d.IsUnshared) (own : ∀ field ∈ fields, field.2.IsUnshared)
    (bases : ∀ t ∈ d.composition.resources, (Value.ofTable t.base).HasDistinctKeys)
    (values : ∀ field ∈ fields, field.2.value.HasDistinctKeys) :
    i.resourcesOf d manager fields refs = .ok made ↔
      List.Forall₂ (fun t resource => t.IsResolved (fields.mapValues Linked.value) refs ∧
        i.finish manager t (t.substituted (fields.mapValues Linked.value) refs) = .ok resource)
        d.composition.resources made := by
  rw [resourcesOf_eq i manager refs unshared own]
  exact i.resources_eq_ok d.composition manager bases (List.forall_mem_map.mpr values)

/-- A blueprint with a text in place of the database, and a note that looks like a reference. -/
def noted : Blueprint where
  name := ⟨"main", Eq.refl true⟩
  kind := "Deployment"
  base := [("spec", .map 0 [("db", .str "none"), ("note", .str "outputs/db/host")])]
  patches := [.ofDatabase, .ofPort]

/-- The host is replaced by a literal that looks like a reference itself. That literal and the note,
which no patch wrote, stay as they are. -/
theorem resources_exact_noted :
    let d : Design := { kind := "App", blueprints := [noted] }
    let fields : Table String Linked :=
      [("db", .map 0 [("host", .str "outputs/db/host")]), ("port", .int 5432)]
    let refs : Resolutions := [("outputs/db/host", .literal (.str "outputs/other/host"))]
    d.IsUnshared ∧ (∀ field ∈ fields, field.2.IsUnshared) ∧
      (∀ t ∈ d.composition.resources, (Value.ofTable t.base).HasDistinctKeys) ∧
      (∀ field ∈ fields, field.2.value.HasDistinctKeys) ∧
      noted.template.substituted (fields.mapValues Linked.value) refs = .map [
        ("spec", .map [
          ("db", .map [("host", .str "outputs/other/host"), ("port", .int 5432)]),
          ("note", .str "outputs/db/host")]),
        ("apiVersion", .str "v1"), ("kind", .str "Deployment")] ∧
      ∃ made, ofWeb.resourcesOf d "kresolve" fields refs = .ok made ∧
        List.Forall₂ (fun t resource => t.IsResolved (fields.mapValues Linked.value) refs ∧
          ofWeb.finish "kresolve" t (t.substituted (fields.mapValues Linked.value) refs) =
            .ok resource) d.composition.resources made := by
  intro d fields refs
  have unshared : d.IsUnshared := by decide
  have own : ∀ field ∈ fields, field.2.IsUnshared := by decide
  have bases : ∀ t ∈ d.composition.resources, (Value.ofTable t.base).HasDistinctKeys := by
    intro t member
    rw [List.mem_singleton.mp member]
    exact Eq.refl true
  have values : ∀ field ∈ fields, field.2.value.HasDistinctKeys := by
    intro field member
    rcases List.mem_pair.mp member with rfl | rfl <;> exact Eq.refl true
  have comes : (ofWeb.resourcesOf d "kresolve" fields refs).toOption.isSome = true := by
    decide +kernel
  refine ⟨unshared, own, bases, values, by decide +kernel, ?_⟩
  cases made : ofWeb.resourcesOf d "kresolve" fields refs with
  | error failure =>
    rw [made] at comes
    cases comes
  | ok resources =>
    exact ⟨resources, rfl,
      (resources_exact ofWeb d "kresolve" unshared own bases values).mp made⟩

/-- What is written under the one key, and the reference replaced there, shows under the other, which no
patch wrote to. -/
theorem filled_ofShared :
    let b : Blueprint := {
      name := ⟨"main", Eq.refl true⟩
      kind := "Service"
      base := [("labels", .map 0 [("app", .str "x")]), ("selector", .map 0 [("app", .str "x")])]
      patches := [{ field := ⟨"version", by decide⟩, place := ⟨"labels.version", by decide⟩ }] }
    let fields : Table String Linked := [("version", .str "outputs/db/version")]
    let refs : Resolutions := [("outputs/db/version", .literal (.str "v2"))]
    let position : Value.Position := Value.along ["selector", "version"]
    ¬ b.template.Covers (fields.mapValues Linked.value) position ∧
      b.skeleton.value.at? position = none ∧
      (b.template.substituted (fields.mapValues Linked.value) refs).at? position = none ∧
      ((b.filled fields refs).toOption.map fun v => v.value.at? position) =
        some (some (.str "v2")) := by
  decide +kernel

end Instance

end WorkloadConfig
