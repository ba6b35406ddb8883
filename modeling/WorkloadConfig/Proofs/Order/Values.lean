import WorkloadConfig.Proofs.Order.Tables
import WorkloadConfig.Proofs.Patching

namespace WorkloadConfig

theorem forall₂_imp_mem {α β : Type} {R S : α → β → Prop} {items : List α} {others : List β}
    (all : List.Forall₂ R items others) (implied : ∀ a ∈ items, ∀ b, R a b → S a b) :
    List.Forall₂ S items others := by
  induction all with
  | nil => exact .nil
  | cons related _ ih =>
    obtain ⟨first, later⟩ := List.forall_mem_cons.mp implied
    exact .cons (first _ related) (ih later)

theorem forall₂_nil_iff {α β : Type} {R : α → β → Prop} {items : List α} {others : List β}
    (all : List.Forall₂ R items others) : items = [] ↔ others = [] := by
  cases all <;> simp

theorem map_eq_of_forall₂ {α β γ : Type} {f : α → γ} {g : β → γ} {items : List α} {others : List β}
    (all : List.Forall₂ (fun a b => f a = g b) items others) : items.map f = others.map g := by
  induction all with
  | nil => rfl
  | cons equal _ ih => exact congrArg₂ List.cons equal ih

theorem mem_flatMap_iff_of_forall₂ {α β γ : Type} {f : α → List γ} {g : β → List γ} {c : γ}
    {items : List α} {others : List β}
    (all : List.Forall₂ (fun a b => c ∈ f a ↔ c ∈ g b) items others) :
    c ∈ items.flatMap f ↔ c ∈ others.flatMap g := by
  induction all with
  | nil => rfl
  | cons first _ ih => simp only [List.flatMap_cons, List.mem_append, first, ih]

namespace Value

/-- The values differ at most in the order of the entries of their maps, at any depth. The keys of
each map are distinct texts. -/
inductive Reordered : Value → Value → Prop
  | scalar (s : Scalar) : Reordered (.scalar s) (.scalar s)
  | list {items others : List Value} : List.Forall₂ Reordered items others →
      Reordered (.list items) (.list others)
  | map {entries others : List (Key × Value)} :
      (∀ key ∈ Table.keys entries, key.isText = true) → (Table.keys entries).Nodup →
      (Table.keys others).Nodup →
      (∀ key, Option.Rel Reordered (Table.find? entries key) (Table.find? others key)) →
      Reordered (.map entries) (.map others)

/-- The keys of each map within are distinct texts, as in JSON. -/
def IsProper (v : Value) : Prop :=
  v.everyMap (fun keys => keys.all Key.isText && decide keys.Nodup) = true

theorem isProper_map {entries : List (Key × Value)} : (Value.map entries).IsProper ↔
    (∀ key ∈ Table.keys entries, key.isText = true) ∧ (Table.keys entries).Nodup ∧
      ∀ entry ∈ entries, entry.2.IsProper := by
  simp only [IsProper, everyMap_map, Bool.and_eq_true, List.all_eq_true, decide_eq_true_eq,
    and_assoc]

theorem IsProper.isTextual {v : Value} (proper : v.IsProper) : v.IsTextual :=
  everyMap_mono (fun _ both => (Bool.and_eq_true_iff.mp both).1) v proper

theorem isProper_sortKeys {v : Value} : v.sortKeys.IsProper ↔ v.IsProper := by
  have orderless : Orderless fun keys => keys.all Key.isText && decide keys.Nodup := by
    intro keys others perm
    simp only [perm.all_eq, perm.nodup_iff]
  simp only [IsProper, everyMap_sortKeys orderless]

theorem writeItems_eq (style : Json.Style) (depth : Nat) (items : List Value) :
    style.writeItems depth items = items.map (style.write depth) := by
  induction items with
  | nil => rfl
  | cons v rest ih => exact congrArg (_ :: ·) ih

theorem writeEntries_eq (style : Json.Style) (depth : Nat) (entries : List (Key × Value)) :
    style.writeEntries depth entries = Table.mapValues entries (style.write depth) := by
  induction entries with
  | nil => rfl
  | cons entry rest ih => exact congrArg (_ :: ·) ih

theorem settledItems_eq (items : List Value) : Json.settledItems items = items.map Json.settled := by
  induction items with
  | nil => rfl
  | cons v rest ih => exact congrArg (_ :: ·) ih

theorem settledEntries_eq (entries : List (Key × Value)) :
    Json.settledEntries entries = Table.mapValues entries Json.settled := by
  induction entries with
  | nil => rfl
  | cons entry rest ih => exact congrArg (_ :: ·) ih

theorem map_eq_self {items : List Value} {f : Value → Value} (fixed : ∀ v ∈ items, f v = v) :
    items.map f = items :=
  (List.map_congr_left fixed).trans (List.map_id' items)

theorem mapValues_eq_self {entries : List (Key × Value)} {f : Value → Value}
    (fixed : ∀ entry ∈ entries, f entry.2 = entry.2) : Table.mapValues entries f = entries := by
  have same : ∀ entry ∈ entries, (entry.1, f entry.2) = entry := fun entry member =>
    congrArg (Prod.mk entry.1) (fixed entry member)
  exact (List.map_congr_left same).trans (List.map_id' entries)

/-- Where keys are distinct, each value is the last one under its key. -/
theorem settled_eq {v : Value} (proper : v.IsProper) : Json.settled v = v := by
  induction v using Value.induction with
  | scalar s => rfl
  | list items ih =>
    have parts := everyMap_list.mp proper
    rw [Json.settled, settledItems_eq, map_eq_self fun v member => ih v member (parts v member)]
  | map entries ih =>
    obtain ⟨-, distinct, parts⟩ := isProper_map.mp proper
    rw [Json.settled, settledEntries_eq,
      mapValues_eq_self fun entry member => ih entry member (parts entry member),
      Table.ofList_of_nodup distinct]

namespace Reordered
variable {v w new newer : Value} {t u : List (Key × Value)}

theorem ofTable (texts : ∀ key ∈ Table.keys t, key.isText = true)
    (same : Table.Reordered Reordered t u) : Reordered (.map t) (.map u) :=
  .map texts same.distinct same.distinct' same.under

theorem table (same : Reordered (.map t) (.map u)) : Table.Reordered Reordered t u := by
  cases same with
  | map _ distinct distinct' under => exact ⟨distinct, distinct', under⟩

theorem texts (same : Reordered (.map t) (.map u)) : ∀ key ∈ Table.keys t, key.isText = true := by
  cases same with
  | map texts => exact texts

theorem texts' (same : Reordered (.map t) (.map u)) : ∀ key ∈ Table.keys u, key.isText = true :=
  fun key member => same.texts key ((same.table.mem_keys key).mpr member)

/-- A property of reorderings holds of all if lists and maps have it as soon as their parts do. -/
@[elab_as_elim]
theorem induction {P : (v w : Value) → v.Reordered w → Prop}
    (scalar : ∀ s, P (.scalar s) (.scalar s) (.scalar s))
    (list : ∀ (items others : List Value)
      (all : List.Forall₂ (fun v w => ∃ same, P v w same) items others),
      P _ _ (.list (all.imp fun _ _ ⟨same, _⟩ => same)))
    (map : ∀ (t u : List (Key × Value)) (same : Reordered (.map t) (.map u)),
      Table.Reordered (fun v w => ∃ same, P v w same) t u → P _ _ same)
    (same : v.Reordered w) : P v w same := by
  induction v using Value.induction generalizing w with
  | scalar s =>
    cases same with
    | scalar => exact scalar s
  | list items ih =>
    -- The motive speaks of `same`, so a copy of it is taken apart.
    have parts := same
    cases parts with
    | list all =>
      exact list _ _ (forall₂_imp_mem all fun a member b related => ⟨related, ih a member related⟩)
  | map entries ih =>
    have parts := same
    cases parts with
    | map =>
      exact map _ _ same
        (same.table.imp_mem fun entry member b related => ⟨related, ih entry member related⟩)

theorem empty : Reordered (.map []) (.map []) :=
  ofTable (fun _ member => absurd member List.not_mem_nil) .nil

theorem refl (proper : v.IsProper) : v.Reordered v := by
  induction v using Value.induction with
  | scalar s => exact .scalar s
  | list items ih =>
    have parts := everyMap_list.mp proper
    exact .list (List.forall₂_same.mpr fun v member => ih v member (parts v member))
  | map entries ih =>
    obtain ⟨texts, distinct, parts⟩ := isProper_map.mp proper
    exact ofTable texts (.of_perm distinct (.refl _) fun entry member =>
      ih entry member (parts entry member))

/-- The entries of a map may stand in any order. -/
theorem of_perm (proper : (Value.map t).IsProper) (perm : t.Perm u) :
    Reordered (.map t) (.map u) := by
  obtain ⟨texts, distinct, parts⟩ := isProper_map.mp proper
  exact ofTable texts (.of_perm distinct perm fun entry member => refl (parts entry member))

theorem isProper (same : v.Reordered w) : v.IsProper := by
  induction same using Reordered.induction with
  | scalar s => rfl
  | list items others all =>
    refine everyMap_list.mpr fun v member => ?_
    obtain ⟨w, -, -, proper⟩ := exists_of_forall₂ all member
    exact proper
  | map t u same table =>
    refine isProper_map.mpr ⟨same.texts, table.distinct, fun entry member => ?_⟩
    obtain ⟨b, -, -, proper⟩ := table.exists_of_mem member
    exact proper

theorem symm (same : v.Reordered w) : w.Reordered v := by
  induction same using Reordered.induction with
  | scalar s => exact .scalar s
  | list items others all => exact .list (all.imp fun _ _ ⟨_, back⟩ => back).flip
  | map t u same table =>
    exact ofTable same.texts' (table.flip.imp_mem fun _ _ _ ⟨_, back⟩ => back)

theorem isProper' (same : v.Reordered w) : w.IsProper :=
  same.symm.isProper

/-- Null is a reordering of nothing but itself. -/
theorem null_iff (same : v.Reordered w) : v = .null ↔ w = .null := by
  cases same <;> simp

theorem isMap_eq (same : v.Reordered w) : v.isMap = w.isMap := by
  cases same <;> rfl

theorem isEmpty_eq (same : Reordered (.map t) (.map u)) : t.isEmpty = u.isEmpty := by
  have length := same.table.length_eq
  cases t <;> cases u <;> simp_all

theorem isGiven_eq (same : v.Reordered w) : v.isGiven = w.isGiven := by
  cases same with
  | scalar => rfl
  | list all => simp only [isGiven, ne_eq, forall₂_nil_iff all]
  | map texts distinct distinct' under =>
    simp only [isGiven, isEmpty_eq (.map texts distinct distinct' under)]

theorem isAbsent_eq (same : v.Reordered w) : v.isAbsent = w.isAbsent := by
  cases same with
  | scalar => rfl
  | list all => simp only [isAbsent, forall₂_nil_iff all]
  | map texts distinct distinct' under =>
    simp only [isAbsent, isEmpty_eq (.map texts distinct distinct' under)]

/-- Whatever they are, their entries are those of maps. -/
theorem entries (same : v.Reordered w) : Reordered (.map v.entries) (.map w.entries) := by
  cases same with
  | scalar => exact empty
  | list _ => exact empty
  | map texts distinct distinct' under => exact .map texts distinct distinct' under

theorem find? (same : v.Reordered w) (key : Key) :
    Option.Rel Reordered (Table.find? v.entries key) (Table.find? w.entries key) :=
  same.entries.table.under key

theorem lookup (same : v.Reordered w) (key : Key) : (v.lookup key).Reordered (w.lookup key) :=
  rel_getD (same.find? key) (.scalar _)

theorem get? (same : v.Reordered w) (path : List String) :
    Option.Rel Reordered (v.get? path) (w.get? path) := by
  induction path generalizing v w with
  | nil => simpa [Value.get?] using Option.Rel.some same
  | cons k path ih =>
    rw [get?_cons, get?_cons]
    rcases rel_cases (same.find? (.str k)) with ⟨one, two⟩ | ⟨a, b, one, two, related⟩ <;>
      rw [one, two]
    · exact .none
    · exact ih related

theorem valueAt (same : v.Reordered w) (p : FieldPath) : (v.valueAt p).Reordered (w.valueAt p) :=
  rel_getD (same.get? p.segments) (.scalar _)

theorem put (same : Reordered (.map t) (.map u)) (k : String) (added : new.Reordered newer) :
    Reordered (.map (Table.put t (.str k) new)) (.map (Table.put u (.str k) newer)) := by
  refine ofTable (fun key member => ?_) (same.table.put (.str k) added)
  rcases Table.mem_keys_put.mp member with rfl | old
  · rfl
  · exact same.texts key old

theorem putAll {added adding : List (Key × Value)} (same : Reordered (.map t) (.map u))
    (more : Reordered (.map added) (.map adding)) :
    Reordered (.map (Table.putAll t added)) (.map (Table.putAll u adding)) := by
  refine ofTable (fun key member => ?_) (same.table.putAll more.table)
  rw [Table.mem_keys_iff, Table.find?_putAll more.table.distinct] at member
  obtain ⟨a, found⟩ := member
  rcases Option.or_eq_some_iff.mp found with found | ⟨-, found⟩
  · exact more.texts key (Table.mem_keys_iff.mpr ⟨a, found⟩)
  · exact same.texts key (Table.mem_keys_iff.mpr ⟨a, found⟩)

theorem set (same : v.Reordered w) (path : List String) (added : new.Reordered newer) :
    (v.set path new).Reordered (w.set path newer) := by
  induction path generalizing v w with
  | nil => exact added
  | cons k path ih => exact same.entries.put k (ih (same.lookup (.str k)))

/-- They have the same text leaves. -/
theorem mem_leaves_iff (same : v.Reordered w) {leaf : String} :
    leaf ∈ v.leaves ↔ leaf ∈ w.leaves := by
  induction same using Reordered.induction with
  | scalar s => rfl
  | list items others all =>
    rw [leaves, leaves, leavesOfItems_eq, leavesOfItems_eq]
    exact mem_flatMap_iff_of_forall₂ (all.imp fun _ _ both => both.2)
  | map t u same table =>
    simp only [leaves, mem_leavesOfEntries]
    constructor
    · rintro ⟨entry, member, within⟩
      obtain ⟨b, other, -, equal⟩ := table.exists_of_mem member
      exact ⟨_, other, equal.mp within⟩
    · rintro ⟨entry, member, within⟩
      obtain ⟨a, other, -, equal⟩ := table.flip.exists_of_mem member
      exact ⟨_, other, equal.mpr within⟩

/-- With the keys of all maps in order they are the same. -/
theorem sortKeys_eq (same : v.Reordered w) : v.sortKeys = w.sortKeys := by
  induction same using Reordered.induction with
  | scalar s => rfl
  | list items others all =>
    rw [sortKeys, sortKeys, sortKeysItems_eq, sortKeysItems_eq]
    exact congrArg Value.list (map_eq_of_forall₂ (all.imp fun _ _ ⟨_, equal⟩ => equal))
  | map t u same table =>
    have perm := table.perm_mapValues fun _ _ ⟨_, equal⟩ => equal
    simp only [sortKeys, sortKeysEntries_eq]
    refine congrArg Value.map (sort_entries_eq_of_perm ?_ ?_ perm) <;> rw [Table.keys_mapValues]
    · exact same.texts
    · exact table.distinct

/-- A style that puts keys in order writes the same of them. -/
theorem write_eq (same : v.Reordered w) {style : Json.Style} (sorted : style.sorted = true)
    (depth : Nat) : style.write depth v = style.write depth w := by
  induction same using Reordered.induction generalizing depth with
  | scalar s => rfl
  | list items others all =>
    rw [Json.Style.write, Json.Style.write, writeItems_eq, writeItems_eq]
    exact congrArg (style.enclose depth "[" "]")
      (map_eq_of_forall₂ (all.imp fun _ _ ⟨_, equal⟩ => equal (depth + 1)))
  | map t u same table =>
    have perm := table.perm_mapValues fun _ _ ⟨_, equal⟩ => equal (depth + 1)
    have arranged := sort_entries_eq_of_perm
      (by simpa only [Table.keys_mapValues] using same.texts)
      (by simpa only [Table.keys_mapValues] using table.distinct) perm
    simp only [Json.Style.write, Json.Style.arrange, sorted, if_true, writeEntries_eq, arranged]

theorem canonical_eq (same : v.Reordered w) : Json.canonical v = Json.canonical w :=
  same.write_eq rfl 0

/-- A question about the keys of each map within that does not depend on their order has the same
answer for both. -/
theorem everyMap_eq (same : v.Reordered w) {asked : List Key → Bool} (orderless : Orderless asked) :
    v.everyMap asked = w.everyMap asked := by
  induction same using Reordered.induction with
  | scalar s => rfl
  | list items others all =>
    simp only [everyMap]
    induction all with
    | nil => rfl
    | cons first _ later =>
      obtain ⟨-, equal⟩ := first
      simp only [everyMapItems, equal, later]
  | map t u same table =>
    rw [Bool.eq_iff_iff, everyMap_map, everyMap_map, orderless _ _ table.keys_perm]
    refine and_congr_right fun _ => ⟨fun all entry member => ?_, fun all entry member => ?_⟩
    · obtain ⟨a, other, -, equal⟩ := table.flip.exists_of_mem member
      exact equal ▸ all _ other
    · obtain ⟨b, other, -, equal⟩ := table.exists_of_mem member
      exact equal ▸ all _ other

theorem hasOrder_eq (same : v.Reordered w) : v.hasOrder = w.hasOrder :=
  same.everyMap_eq orderless_sameKind

theorem isWritable_eq (same : v.Reordered w) : v.isWritable = w.isWritable := by
  rw [Bool.eq_iff_iff]
  induction same using Reordered.induction with
  | scalar s => rfl
  | list items others all =>
    rw [isWritable_list, isWritable_list]
    constructor
    · intro writable v member
      obtain ⟨w, among, -, equal⟩ := exists_of_forall₂ all.flip member
      exact equal.mp (writable w among)
    · intro writable v member
      obtain ⟨w, among, -, equal⟩ := exists_of_forall₂ all member
      exact equal.mpr (writable w among)
  | map t u same table =>
    have isWritable_of_isText {key : Key} (isText : key.isText = true) : key.isWritable = true := by
      obtain ⟨text, rfl⟩ := eq_str_of_isText isText
      rfl
    rw [isWritable_map, isWritable_map]
    constructor
    · intro writable entry member
      obtain ⟨a, other, -, equal⟩ := table.flip.exists_of_mem member
      exact ⟨isWritable_of_isText (same.texts' _ (List.mem_map_of_mem member)),
        equal.mp (writable _ other).2⟩
    · intro writable entry member
      obtain ⟨b, other, -, equal⟩ := table.exists_of_mem member
      exact ⟨isWritable_of_isText (same.texts _ (List.mem_map_of_mem member)),
        equal.mpr (writable _ other).2⟩

theorem canonical?_eq (same : v.Reordered w) : v.canonical? = w.canonical? := by
  rw [same.isProper.isTextual.canonical?_eq, same.isProper'.isTextual.canonical?_eq,
    same.isWritable_eq, same.canonical_eq]

theorem sorted?_eq (same : v.Reordered w) : v.sorted? = w.sorted? := by
  simp only [sorted?, same.hasOrder_eq, same.sortKeys_eq]

/-- Texts replaced by reorderings of each other leave them so. -/
theorem substitute {f g : String → Value} (same : v.Reordered w)
    (replaced : ∀ text, (f text).Reordered (g text)) :
    (v.substitute f).Reordered (w.substitute g) := by
  induction same using Reordered.induction with
  | scalar s =>
    cases s with
    | str text => exact replaced text
    | _ => exact .scalar _
  | list items others all =>
    rw [Value.substitute, Value.substitute, substituteItems_eq, substituteItems_eq]
    exact .list (List.rel_map (fun _ _ both => both.2) all)
  | map t u same table =>
    rw [Value.substitute, Value.substitute, substituteEntries_eq, substituteEntries_eq]
    exact ofTable (by simpa only [Table.keys_mapValues] using same.texts)
      (table.mapValues fun _ _ both => both.2)

end Reordered
end Value
end WorkloadConfig
