import Mathlib.Data.List.Forall2
import WorkloadConfig.Publishing

namespace WorkloadConfig

namespace Value
variable {asked : List Key → Bool}

theorem everyMapItems_iff {items : List Value} :
    everyMapItems asked items = true ↔ ∀ v ∈ items, v.everyMap asked = true := by
  induction items with
  | nil => simp [everyMapItems]
  | cons v rest ih => simp [everyMapItems, ih]

theorem everyMapEntries_iff {entries : List (Key × Value)} :
    everyMapEntries asked entries = true ↔ ∀ entry ∈ entries, entry.2.everyMap asked = true := by
  induction entries with
  | nil => simp [everyMapEntries]
  | cons entry rest ih => simp [everyMapEntries, ih]

theorem everyMap_list {items : List Value} :
    (Value.list items).everyMap asked = true ↔ ∀ v ∈ items, v.everyMap asked = true :=
  everyMapItems_iff

theorem everyMap_map {entries : List (Key × Value)} :
    (Value.map entries).everyMap asked = true ↔
      asked (Table.keys entries) = true ∧ ∀ entry ∈ entries, entry.2.everyMap asked = true := by
  simp only [everyMap, Bool.and_eq_true, everyMapEntries_iff]

theorem sortKeysItems_eq (items : List Value) : sortKeysItems items = items.map sortKeys := by
  induction items with
  | nil => rfl
  | cons v rest ih => exact congrArg (_ :: ·) ih

theorem sortKeysEntries_eq (entries : List (Key × Value)) :
    sortKeysEntries entries = Table.mapValues entries sortKeys := by
  induction entries with
  | nil => rfl
  | cons entry rest ih => exact congrArg (_ :: ·) ih

theorem keys_sortKeysEntries (entries : List (Key × Value)) :
    Table.keys (sortKeysEntries entries) = Table.keys entries := by
  rw [sortKeysEntries_eq, Table.keys_mapValues]

/-- A question about keys that does not depend on their order has the same answer for the maps of a
value after its keys were put in order. -/
def Orderless (asked : List Key → Bool) : Prop :=
  ∀ keys others : List Key, keys.Perm others → asked keys = asked others

mutual

theorem everyMap_sortKeys (orderless : Orderless asked) :
    (v : Value) → v.sortKeys.everyMap asked = v.everyMap asked
  | .scalar _ => rfl
  | .list items => everyMapItems_sortKeys orderless items
  | .map entries => by
    have values := everyMapEntries_sortKeys orderless entries
    have perm := Sorting.sort_perm (fun a b : Key × Value => a.1.le b.1) (sortKeysEntries entries)
    have keys := orderless _ _ (perm.map Prod.fst)
    have same := keys_sortKeysEntries entries
    rw [Bool.eq_iff_iff] at values ⊢
    simp only [everyMapEntries_iff] at values
    simp only [sortKeys, everyMap_map, Table.keys, perm.mem_iff, values] at keys same ⊢
    rw [keys, same]

theorem everyMapItems_sortKeys (orderless : Orderless asked) :
    (items : List Value) → everyMapItems asked (sortKeysItems items) = everyMapItems asked items
  | [] => rfl
  | v :: rest => by
    simp only [sortKeysItems, everyMapItems, everyMap_sortKeys orderless v,
      everyMapItems_sortKeys orderless rest]

theorem everyMapEntries_sortKeys (orderless : Orderless asked) :
    (entries : List (Key × Value)) →
      everyMapEntries asked (sortKeysEntries entries) = everyMapEntries asked entries
  | [] => rfl
  | (_, v) :: rest => by
    simp only [sortKeysEntries, everyMapEntries, everyMap_sortKeys orderless v,
      everyMapEntries_sortKeys orderless rest]

end

/-- Keys are of one kind if there are not two of them, or a kind to which all belong. -/
theorem sameKind_iff {keys : List Key} :
    sameKind keys = true ↔ keys.length ≤ 1 ∨ ∃ kind, ∀ key ∈ keys, key.kind? = some kind := by
  match keys with
  | [] => simp [sameKind]
  | [_] => simp [sameKind]
  | first :: second :: rest =>
    simp only [sameKind, Bool.and_eq_true, List.all_eq_true, decide_eq_true_eq]
    constructor
    · rintro ⟨isSome, others⟩
      obtain ⟨kind, first_kind⟩ := Option.isSome_iff_exists.mp isSome
      refine .inr ⟨kind, fun key member => ?_⟩
      rcases List.mem_cons.mp member with rfl | member
      · exact first_kind
      · exact (others key member).trans first_kind
    · rintro (short | ⟨kind, all⟩)
      · simp at short
      · have first_kind := all first List.mem_cons_self
        refine ⟨by rw [first_kind]; rfl, fun key member => ?_⟩
        rw [first_kind, all key (List.mem_cons_of_mem _ member)]

theorem orderless_sameKind : Orderless sameKind := by
  intro keys others perm
  rw [Bool.eq_iff_iff, sameKind_iff, sameKind_iff, perm.length_eq]
  simp only [perm.mem_iff]

theorem orderless_all (ofKey : Key → Bool) : Orderless (·.all ofKey) :=
  fun _ _ perm => perm.all_eq

theorem hasOrder_sortKeys (v : Value) : v.sortKeys.hasOrder = v.hasOrder :=
  everyMap_sortKeys orderless_sameKind v

theorem isWritable_list {items : List Value} :
    (Value.list items).isWritable = true ↔ ∀ v ∈ items, v.isWritable = true := by
  rw [isWritable]
  induction items with
  | nil => simp [isWritableItems]
  | cons v rest ih => simp [isWritableItems, ih]

theorem isWritable_map {entries : List (Key × Value)} :
    (Value.map entries).isWritable = true ↔
      ∀ entry ∈ entries, entry.1.isWritable = true ∧ entry.2.isWritable = true := by
  rw [isWritable]
  induction entries with
  | nil => simp [isWritableEntries]
  | cons entry rest ih => simp [isWritableEntries, ih]

theorem isWritable_sortKeys (v : Value) : v.sortKeys.isWritable = v.isWritable := by
  rw [Bool.eq_iff_iff]
  induction v using Value.induction with
  | scalar s => rfl
  | list items ih =>
    simp only [sortKeys, sortKeysItems_eq, isWritable_list, List.forall_mem_map]
    exact forall₂_congr ih
  | map entries ih =>
    have perm := Sorting.sort_perm (fun a b : Key × Value => a.1.le b.1) (sortKeysEntries entries)
    simp only [sortKeys, isWritable_map, perm.mem_iff]
    simp only [sortKeysEntries_eq, Table.mapValues, List.forall_mem_map]
    exact forall₂_congr fun entry member => and_congr_right fun _ => ih entry member

theorem isWritable_entries {v : Value} (writable : v.isWritable = true) :
    (Value.map v.entries).isWritable = true := by
  cases v with
  | map entries => exact writable
  | scalar _ | list _ => rfl

theorem isWritable_put {entries : List (Key × Value)} {key : Key} {v : Value}
    (writable : (Value.map entries).isWritable = true) (ofKey : key.isWritable = true)
    (ofValue : v.isWritable = true) : (Value.map (Table.put entries key v)).isWritable = true := by
  rw [isWritable_map] at writable ⊢
  intro entry member
  rcases Table.mem_put member with rfl | old
  · exact ⟨ofKey, ofValue⟩
  · exact writable entry old

theorem isWritable_putAll {entries added : List (Key × Value)}
    (writable : (Value.map entries).isWritable = true)
    (ofAdded : (Value.map added).isWritable = true) :
    (Value.map (Table.putAll entries added)).isWritable = true := by
  induction added generalizing entries with
  | nil => exact writable
  | cons entry rest ih =>
    obtain ⟨ofEntry, ofRest⟩ := List.forall_mem_cons.mp (isWritable_map.mp ofAdded)
    exact ih (isWritable_put writable ofEntry.1 ofEntry.2) (isWritable_map.mpr ofRest)

theorem isWritable_lookup {v : Value} (writable : v.isWritable = true) (key : Key) :
    (v.lookup key).isWritable = true := by
  unfold lookup
  cases found : Table.find? v.entries key with
  | none => rfl
  | some part =>
    exact (isWritable_map.mp (isWritable_entries writable) _ (Table.mem_of_find? found)).2

/-- Maps all of whose keys are texts have an order and can be written. -/
def IsTextual (v : Value) : Prop :=
  v.everyMap (·.all Key.isText) = true

mutual

theorem everyMap_mono {narrow wide : List Key → Bool}
    (implied : ∀ keys, narrow keys = true → wide keys = true) :
    (v : Value) → v.everyMap narrow = true → v.everyMap wide = true
  | .scalar _, _ => rfl
  | .list items, every => everyMapItems_mono implied items every
  | .map entries, every => by
    simp only [everyMap, Bool.and_eq_true] at every ⊢
    exact ⟨implied _ every.1, everyMapEntries_mono implied entries every.2⟩

theorem everyMapItems_mono {narrow wide : List Key → Bool}
    (implied : ∀ keys, narrow keys = true → wide keys = true) :
    (items : List Value) → everyMapItems narrow items = true → everyMapItems wide items = true
  | [], _ => rfl
  | v :: rest, every => by
    simp only [everyMapItems, Bool.and_eq_true] at every ⊢
    exact ⟨everyMap_mono implied v every.1, everyMapItems_mono implied rest every.2⟩

theorem everyMapEntries_mono {narrow wide : List Key → Bool}
    (implied : ∀ keys, narrow keys = true → wide keys = true) :
    (entries : List (Key × Value)) → everyMapEntries narrow entries = true →
      everyMapEntries wide entries = true
  | [], _ => rfl
  | (_, v) :: rest, every => by
    simp only [everyMapEntries, Bool.and_eq_true] at every ⊢
    exact ⟨everyMap_mono implied v every.1, everyMapEntries_mono implied rest every.2⟩

end

theorem eq_str_of_isText {key : Key} (isText : key.isText = true) : ∃ text, key = .str text := by
  unfold Key.isText at isText
  split at isText
  · exact ⟨_, rfl⟩
  · cases isText

theorem IsTextual.hasOrder {v : Value} (textual : v.IsTextual) : v.hasOrder = true := by
  refine everyMap_mono (fun keys texts => sameKind_iff.mpr (.inr ⟨.text, fun key member => ?_⟩)) v
    textual
  obtain ⟨text, rfl⟩ := eq_str_of_isText (List.all_eq_true.mp texts key member)
  rfl

theorem isTextual_map {entries : List (Key × Value)} :
    (Value.map entries).IsTextual ↔
      ∀ entry ∈ entries, entry.1.isText = true ∧ entry.2.IsTextual := by
  simp only [IsTextual, everyMap_map, Table.keys, List.all_map, List.all_eq_true,
    Function.comp_apply, forall_and]

theorem isTextual_ofLabels (labels : Table String String) : (ofLabels labels).IsTextual := by
  simp only [ofLabels, ofTable, Table.mapValues, isTextual_map, List.map_map, List.mem_map]
  rintro _ ⟨label, -, rfl⟩
  exact ⟨rfl, rfl⟩

theorem isTextual_sortKeys {v : Value} : v.sortKeys.IsTextual ↔ v.IsTextual := by
  simp only [IsTextual, everyMap_sortKeys (orderless_all Key.isText)]

theorem isWritable_ofLabels (labels : Table String String) : (ofLabels labels).isWritable = true := by
  simp only [ofLabels, ofTable, Table.mapValues, isWritable_map, List.map_map, List.mem_map]
  rintro _ ⟨label, -, rfl⟩
  exact ⟨rfl, rfl⟩

end Value

namespace Json

/-- What writing can stop at. -/
inductive Hindrance : Failure → Prop
  | illTyped : Hindrance .illTyped
  | tooLong : Hindrance .tooLong

theorem scalarHindrance?_eq_none {s : Scalar} : scalarHindrance? s = none ↔ s.isShort = true := by
  unfold scalarHindrance?
  split <;> simp_all

theorem keyHindrance?_eq_none {key : Key} : keyHindrance? key = none ↔ key.isWritable = true := by
  unfold keyHindrance? Key.isWritable
  split <;> simp [scalarHindrance?_eq_none]

theorem scalarHindrance?_eq_some {s : Scalar} {failure : Failure} :
    scalarHindrance? s = some failure ↔ s.isShort = false ∧ failure = .tooLong := by
  unfold scalarHindrance?
  split
  · rename_i short
    simp [short]
  · rename_i long
    simp [long, eq_comm]

namespace Style
variable {style : Style}

theorem mem_arrange {α : Type} {entries : List (Key × α)} {entry : Key × α} :
    entry ∈ style.arrange entries ↔ entry ∈ entries := by
  unfold arrange
  split
  · exact (Sorting.sort_perm _ _).mem_iff
  · rfl

theorem entryHindrances_eq (entries : List (Key × Value)) :
    style.entryHindrances entries = Table.mapValues entries style.hindrance? := by
  induction entries with
  | nil => rfl
  | cons entry rest ih => exact congrArg (_ :: ·) ih

theorem hindrance?_list {items : List Value} : style.hindrance? (.list items) = none ↔
    ∀ v ∈ items, style.hindrance? v = none := by
  rw [hindrance?]
  induction items with
  | nil => simp [itemsHindrance?]
  | cons v rest ih => simp [itemsHindrance?, ih]

theorem exists_of_itemsHindrance? {items : List Value} {failure : Failure}
    (stops : style.itemsHindrance? items = some failure) :
    ∃ v ∈ items, style.hindrance? v = some failure := by
  induction items with
  | nil => cases stops
  | cons v rest ih =>
    rcases Option.or_eq_some_iff.mp stops with here | ⟨-, behind⟩
    · exact ⟨v, List.mem_cons_self, here⟩
    · obtain ⟨w, member, stops⟩ := ih behind
      exact ⟨w, List.mem_cons_of_mem _ member, stops⟩

theorem hindrance?_map {entries : List (Key × Value)} : style.hindrance? (.map entries) = none ↔
    (style.sorted = true → Value.sameKind (Table.keys entries) = true) ∧ ∀ entry ∈ entries,
      entry.1.isWritable = true ∧ style.hindrance? entry.2 = none := by
  have parts : ((style.arrange (style.entryHindrances entries)).findSome? fun entry =>
      (keyHindrance? entry.1).or entry.2) = none ↔
      ∀ entry ∈ entries, entry.1.isWritable = true ∧ style.hindrance? entry.2 = none := by
    simp only [List.findSome?_eq_none_iff, mem_arrange, entryHindrances_eq, Table.mapValues,
      List.forall_mem_map, Option.or_eq_none_iff, keyHindrance?_eq_none]
  rw [hindrance?]
  split
  · rename_i unordered
    simp_all
  · rename_i ordered
    rw [parts]
    simp_all

/-- Nothing stops the writing of a value whose keys can be put in order, should they have to, and have
texts as its integers do. -/
theorem hindrance?_eq_none (v : Value) : style.hindrance? v = none ↔
    (style.sorted = true → v.hasOrder = true) ∧ v.isWritable = true := by
  induction v using Value.induction with
  | scalar s =>
    rw [hindrance?, scalarHindrance?_eq_none]
    exact (and_iff_right fun _ => rfl).symm
  | list items ih =>
    simp only [hindrance?_list, Value.hasOrder, Value.everyMap_list, Value.isWritable_list]
    constructor
    · intro all
      exact ⟨fun asked v member => ((ih v member).mp (all v member)).1 asked,
        fun v member => ((ih v member).mp (all v member)).2⟩
    · rintro ⟨ordered, writable⟩ v member
      exact (ih v member).mpr ⟨fun asked => ordered asked v member, writable v member⟩
  | map entries ih =>
    simp only [hindrance?_map, Value.hasOrder, Value.everyMap_map, Value.isWritable_map]
    constructor
    · rintro ⟨sorted, parts⟩
      exact ⟨fun asked => ⟨sorted asked, fun entry member =>
          ((ih entry member).mp (parts entry member).2).1 asked⟩,
        fun entry member => ⟨(parts entry member).1, ((ih entry member).mp (parts entry member).2).2⟩⟩
    · rintro ⟨ordered, parts⟩
      exact ⟨fun asked => (ordered asked).1, fun entry member => ⟨(parts entry member).1,
        (ih entry member).mpr ⟨fun asked => (ordered asked).2 entry member, (parts entry member).2⟩⟩⟩

theorem hindrance_of_key {key : Key} {failure : Failure}
    (stops : keyHindrance? key = some failure) : Hindrance failure := by
  unfold keyHindrance? at stops
  split at stops
  case h_5 =>
    rw [(scalarHindrance?_eq_some.mp stops).2]
    exact .tooLong
  all_goals
    cases stops
    exact .illTyped

theorem hindrance_of_stops {v : Value} {failure : Failure}
    (stops : style.hindrance? v = some failure) : Hindrance failure := by
  induction v using Value.induction generalizing failure with
  | scalar s =>
    rw [(scalarHindrance?_eq_some.mp stops).2]
    exact .tooLong
  | list items ih =>
    obtain ⟨v, member, stops⟩ := exists_of_itemsHindrance? stops
    exact ih v member stops
  | map entries ih =>
    rw [hindrance?] at stops
    split at stops
    · cases stops
      exact .illTyped
    · obtain ⟨⟨key, ofValue⟩, member, stops⟩ := List.exists_of_findSome?_eq_some stops
      rw [mem_arrange, entryHindrances_eq] at member
      obtain ⟨entry, among, same⟩ := List.mem_map.mp member
      cases same
      rcases Option.or_eq_some_iff.mp stops with ofKey | ⟨-, within⟩
      · exact hindrance_of_key ofKey
      · exact ih entry among within

theorem keyHindrance?_of_isText {key : Key} (isText : key.isText = true) : keyHindrance? key = none := by
  obtain ⟨text, rfl⟩ := Value.eq_str_of_isText isText
  rfl

/-- Where all keys are texts, it is at worst an integer that the writing stops at. -/
theorem eq_tooLong_of_hindrance? {v : Value} (textual : v.IsTextual) {failure : Failure}
    (stops : style.hindrance? v = some failure) : failure = .tooLong := by
  induction v using Value.induction generalizing failure with
  | scalar s => exact (scalarHindrance?_eq_some.mp stops).2
  | list items ih =>
    obtain ⟨v, member, stops⟩ := exists_of_itemsHindrance? stops
    exact ih v member (Value.everyMap_list.mp textual v member) stops
  | map entries ih =>
    have parts := Value.isTextual_map.mp textual
    have ordered : Value.sameKind (Table.keys entries) = true := (Value.everyMap_map.mp textual.hasOrder).1
    rw [hindrance?, ordered, Bool.not_true, Bool.and_false, if_neg Bool.false_ne_true] at stops
    obtain ⟨⟨key, ofValue⟩, member, stops⟩ := List.exists_of_findSome?_eq_some stops
    rw [mem_arrange, entryHindrances_eq] at member
    obtain ⟨entry, among, same⟩ := List.mem_map.mp member
    cases same
    simp only [keyHindrance?_of_isText (parts entry among).1, Option.none_or] at stops
    exact ih entry among (parts entry among).2 stops

theorem text?_eq_ok {v : Value} {text : String} : style.text? v = .ok text ↔
    ((style.sorted = true → v.hasOrder = true) ∧ v.isWritable = true) ∧ text = style.write 0 v := by
  rw [← hindrance?_eq_none]
  unfold text?
  split
  · rename_i free
    simp [free, eq_comm]
  · rename_i stops
    simp [stops]

theorem hindrance_of_text? {v : Value} {failure : Failure} (fails : style.text? v = .error failure) :
    Hindrance failure := by
  unfold text? at fails
  split at fails
  · cases fails
  · rename_i stops
    cases fails
    exact hindrance_of_stops stops

/-- Where all keys are texts, a value is written unless an integer within is too long. -/
theorem text?_of_isTextual {v : Value} (textual : v.IsTextual) : style.text? v =
    if v.isWritable = true then .ok (style.write 0 v) else .error .tooLong := by
  split
  · rename_i writable
    exact text?_eq_ok.mpr ⟨⟨fun _ => textual.hasOrder, writable⟩, rfl⟩
  · rename_i unwritable
    unfold text?
    split
    · rename_i free
      exact absurd ((hindrance?_eq_none v).mp free).2 unwritable
    · rename_i stops
      rw [eq_tooLong_of_hindrance? textual stops]

end Style

end Json

namespace Value
variable {v : Value}

theorem canonical?_eq_ok {text : String} :
    v.canonical? = .ok text ↔
      v.hasOrder = true ∧ v.isWritable = true ∧ text = Json.canonical v := by
  rw [canonical?, Json.Style.text?_eq_ok, and_assoc]
  exact and_congr_left' (forall_prop_of_true rfl)

/-- Where all keys are texts, a value has canonical text unless an integer within is too long. -/
theorem IsTextual.canonical?_eq (textual : v.IsTextual) : v.canonical? =
    if v.isWritable = true then .ok (Json.canonical v) else .error .tooLong :=
  Json.Style.text?_of_isTextual textual

theorem sorted?_eq_ok {v w : Value} :
    v.sorted? = .ok w ↔ v.hasOrder = true ∧ w = v.sortKeys := by
  unfold sorted?
  split
  · rename_i ordered
    simp only [ordered, Except.ok.injEq, true_and, eq_comm]
  · rename_i unordered
    simp [unordered]

/-- What is spread can be written if it could be before. -/
theorem isWritable_spread {v : Value} {entries : List (Key × Value)}
    (writable : v.isWritable = true) (spread : v.spread = .ok entries) :
    (Value.map entries).isWritable = true := by
  unfold Value.spread at spread
  split at spread
  · cases spread
    rfl
  · split at spread
    · cases spread
      exact writable
    · cases spread

end Value

/-- Every item comes to the result at its place. -/
theorem mapM_eq_ok {α β : Type} {f : α → Result β} {items : List α} {results : List β} :
    items.mapM f = .ok results ↔ List.Forall₂ (fun item result => f item = .ok result) items results := by
  induction items generalizing results with
  | nil => cases results <;> simp
  | cons item rest ih =>
    simp only [List.mapM_cons, Result.bind_eq_ok, Result.pure_eq, Except.ok.injEq, ih]
    constructor
    · rintro ⟨result, comes, others, come, rfl⟩
      exact .cons comes come
    · intro all
      cases all with
      | cons comes come => exact ⟨_, comes, _, come, rfl⟩

theorem mapM_congr {α β : Type} {f g : α → Result β} {items : List α}
    (same : ∀ item ∈ items, f item = g item) : items.mapM f = items.mapM g := by
  induction items with
  | nil => rfl
  | cons item rest ih =>
    obtain ⟨first, others⟩ := List.forall_mem_cons.mp same
    simp only [List.mapM_cons, first, ih others]

theorem exists_of_forall₂ {α β : Type} {R : α → β → Prop} {items : List α} {others : List β}
    (all : List.Forall₂ R items others) {a : α} (member : a ∈ items) : ∃ b ∈ others, R a b := by
  induction all with
  | nil => cases member
  | cons first _ ih =>
    rcases List.mem_cons.mp member with rfl | later
    · exact ⟨_, List.mem_cons_self, first⟩
    · obtain ⟨b, within, related⟩ := ih later
      exact ⟨b, List.mem_cons_of_mem _ within, related⟩

namespace Instance
variable {i : Instance} {manager : String} {t : Template} {fields : Assignment} {refs : Resolutions}

theorem isWritable_metadata {filled metadata : Value}
    (made : i.metadata manager t filled = .ok metadata) :
    filled.isWritable = true ∧ metadata.isWritable = true := by
  simp only [Instance.metadata, Result.bind_eq_ok, Value.canonical?_eq_ok, Except.ok.injEq] at made
  obtain ⟨digest, ⟨-, writable, -⟩, labels, labelled, annotations, annotated, rfl⟩ := made
  have own := Value.isWritable_entries (Value.isWritable_lookup writable (.str "metadata"))
  have stamp : (Value.map [("name", .str (i.resourceName t)), ("namespace", .str i.ns.text)]).isWritable =
    true := rfl
  have named := Value.isWritable_putAll own stamp
  have ofLabels := Value.isWritable_spread (Value.isWritable_lookup named _) labelled
  have ofAnnotations := Value.isWritable_spread (Value.isWritable_lookup named _) annotated
  have reserved : (Value.map (i.reservedLabels manager)).isWritable = true := rfl
  have empty : (Value.map []).isWritable = true := rfl
  have withLabels := Value.isWritable_putAll (Value.isWritable_putAll
    (Value.isWritable_putAll empty ofLabels)
    (Value.isWritable_entries (Value.isWritable_ofLabels i.labels))) reserved
  have withDigest : (Value.map (Table.put annotations (.str digestAnnotation)
      (.str (Digest.ofText digest)))).isWritable = true :=
    Value.isWritable_put ofAnnotations rfl rfl
  have ofOwner : i.owner.isWritable = true := by
    unfold owner ownerUid
    split
    · split <;> rfl
    · rfl
  have ofOwners : (Value.list [i.owner]).isWritable = true :=
    Value.isWritable_list.mpr fun v member => List.mem_singleton.mp member ▸ ofOwner
  refine ⟨writable, Value.isWritable_putAll named ?_⟩
  rw [Value.isWritable_map]
  simp only [List.forall_mem_cons, List.not_mem_nil, false_imp_iff, implies_true, and_true]
  exact ⟨⟨rfl, withLabels⟩, ⟨rfl, withDigest⟩, rfl, ofOwners⟩

/-- A finished resource has all that canonical text asks for. -/
theorem resource_renders {v : Value} (made : i.resource manager fields refs t = .ok v) :
    v.hasOrder = true ∧ v.isWritable = true := by
  simp only [Instance.resource, Result.bind_eq_ok, Value.sorted?_eq_ok] at made
  obtain ⟨filled, -, metadata, ofMetadata, ordered, rfl⟩ := made
  obtain ⟨writable, added⟩ := isWritable_metadata ofMetadata
  rw [Value.hasOrder_sortKeys, Value.isWritable_sortKeys]
  exact ⟨ordered, Value.isWritable_put (Value.isWritable_entries writable) rfl added⟩

end Instance

theorem Record.isTextual_connectionManifest (r : Record) (manager : String) :
    (r.connectionManifest manager).IsTextual := by
  rw [connectionManifest, Value.isTextual_sortKeys, Value.isTextual_map]
  simp only [List.forall_mem_cons, List.not_mem_nil, false_imp_iff, implies_true, and_true]
  exact ⟨⟨rfl, rfl⟩, ⟨rfl, rfl⟩, ⟨rfl, rfl⟩, ⟨rfl, rfl⟩, rfl, Value.isTextual_ofLabels _⟩

theorem Record.isWritable_connectionManifest (r : Record) (manager : String) :
    (r.connectionManifest manager).isWritable = true := by
  rw [connectionManifest, Value.isWritable_sortKeys, Value.isWritable_map]
  simp only [List.forall_mem_cons, List.not_mem_nil, false_imp_iff, implies_true, and_true]
  exact ⟨⟨rfl, rfl⟩, ⟨rfl, rfl⟩, ⟨rfl, rfl⟩, ⟨rfl, rfl⟩, rfl, Value.isWritable_ofLabels _⟩

/-- Resources that have canonical text each have it together with the secret of a connection. -/
theorem render_resources {generated : List Value} (r : Record) (manager : String)
    (renders : ∀ v ∈ generated, v.hasOrder = true ∧ v.isWritable = true) :
    render (generated ++ [r.connectionManifest manager]) =
      .ok (Json.canonical (.list (generated ++ [r.connectionManifest manager]))) := by
  have each : ∀ v ∈ generated ++ [r.connectionManifest manager],
      v.hasOrder = true ∧ v.isWritable = true := by
    intro v member
    rcases List.mem_append.mp member with ofTemplates | ofConnection
    · exact renders v ofTemplates
    · rw [List.mem_singleton.mp ofConnection]
      exact ⟨(r.isTextual_connectionManifest manager).hasOrder, r.isWritable_connectionManifest manager⟩
  exact Value.canonical?_eq_ok.mpr ⟨Value.everyMap_list.mpr fun v member => (each v member).1,
    Value.isWritable_list.mpr fun v member => (each v member).2, rfl⟩

end WorkloadConfig
