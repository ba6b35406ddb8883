import WorkloadConfig.Proofs.Json.Values
import WorkloadConfig.Proofs.Order.Lookups
import WorkloadConfig.Proofs.Order.Records

namespace WorkloadConfig

namespace Value
variable {v : Value}

theorem IsJson.isProper (json : v.IsJson) : v.IsProper := by
  induction json with
  | scalar _ => rfl
  | list _ ih => exact everyMap_list.mpr ih
  | map texts distinct _ ih => exact isProper_map.mpr ⟨texts, distinct, ih⟩

theorem asJson_of_holds {s : Scalar} (holds : Json.Holds s) : s.asJson = .ok s := by
  cases s with
  | null | bool _ | int _ | str _ => rfl
  | float x => simp only [Scalar.asJson, Json.ReadsBack.finite holds, if_true]
  | timestamp _ | bytes _ | unordered _ => cases holds

theorem asJsonItems_eq_self {items : List Value} (fixed : ∀ v ∈ items, v.asJson = .ok v) :
    asJsonItems items = .ok items := by
  induction items with
  | nil => rfl
  | cons v rest ih =>
    obtain ⟨first, others⟩ := List.forall_mem_cons.mp fixed
    rw [asJsonItems, first, ih others]
    rfl

theorem asJsonEntries_eq_self {entries : List (Key × Value)}
    (texts : ∀ key ∈ Table.keys entries, key.isText = true)
    (fixed : ∀ entry ∈ entries, entry.2.asJson = .ok entry.2) :
    asJsonEntries entries = .ok entries := by
  induction entries with
  | nil => rfl
  | cons entry rest ih =>
    obtain ⟨ofFirst, ofOthers⟩ := List.forall_mem_cons.mp texts
    obtain ⟨first, others⟩ := List.forall_mem_cons.mp fixed
    obtain ⟨key, v⟩ := entry
    obtain ⟨text, rfl⟩ := eq_str_of_isText ofFirst
    rw [asJsonEntries, first, ih ofOthers others]
    rfl

theorem injective_ofTable : Function.Injective ofTable := fun _ _ same =>
  List.map_injective_iff.mpr (fun a b entry => by simpa [Prod.ext_iff] using entry)
    (Value.map.inj same)

theorem exists_of_asJsonItems {items held : List Value} (asJson : asJsonItems items = .ok held) :
    ∀ w ∈ held, ∃ v ∈ items, v.asJson = .ok w := by
  induction items generalizing held with
  | nil =>
    cases asJson
    simp
  | cons v rest ih =>
    rw [asJsonItems] at asJson
    simp only [Result.bind_eq_ok, Except.ok.injEq] at asJson
    obtain ⟨first, ofFirst, others, ofRest, rfl⟩ := asJson
    refine List.forall_mem_cons.mpr ⟨⟨v, List.mem_cons_self, ofFirst⟩, fun w member => ?_⟩
    obtain ⟨v', within, comes⟩ := ih ofRest w member
    exact ⟨v', List.mem_cons_of_mem _ within, comes⟩

theorem exists_of_asJsonEntries {entries held : List (Key × Value)}
    (asJson : asJsonEntries entries = .ok held) : ∀ entry ∈ held,
      entry.1.isText = true ∧ ∃ old ∈ entries, old.2.asJson = .ok entry.2 := by
  induction entries generalizing held with
  | nil =>
    cases asJson
    simp
  | cons entry rest ih =>
    rw [asJsonEntries] at asJson
    simp only [Result.bind_eq_ok, Except.ok.injEq] at asJson
    obtain ⟨key, -, first, ofFirst, others, ofRest, rfl⟩ := asJson
    refine List.forall_mem_cons.mpr
      ⟨⟨rfl, entry, List.mem_cons_self, ofFirst⟩, fun later member => ?_⟩
    obtain ⟨isText, old, within, comes⟩ := ih ofRest later member
    exact ⟨isText, old, List.mem_cons_of_mem _ within, comes⟩

mutual

/-- The floats that stand anywhere in the value. -/
def floats : Value → List Binary64
  | .scalar (.float x) => [x]
  | .scalar _ => []
  | .list items => floatsOfItems items
  | .map entries => floatsOfEntries entries

def floatsOfItems : List Value → List Binary64
  | [] => []
  | v :: rest => floats v ++ floatsOfItems rest

def floatsOfEntries : List (Key × Value) → List Binary64
  | [] => []
  | (_, v) :: rest => floats v ++ floatsOfEntries rest

end

theorem mem_floatsOfItems {items : List Value} {x : Binary64} :
    x ∈ floatsOfItems items ↔ ∃ v ∈ items, x ∈ v.floats := by
  induction items with
  | nil => simp [floatsOfItems]
  | cons v rest ih => simp [floatsOfItems, ih]

theorem mem_floatsOfEntries {entries : List (Key × Value)} {x : Binary64} :
    x ∈ floatsOfEntries entries ↔ ∃ entry ∈ entries, x ∈ entry.2.floats := by
  induction entries with
  | nil => simp [floatsOfEntries]
  | cons entry rest ih => simp [floatsOfEntries, ih]

theorem holds_of_asJson {s held : Scalar} (asJson : s.asJson = .ok held)
    (reads : ∀ x ∈ (Value.scalar held).floats, Json.ReadsBack x) : Json.Holds held := by
  cases s with
  | null | bool _ | int _ | str _ | timestamp _ | unordered _ =>
    cases asJson
    trivial
  | float x =>
    simp only [Scalar.asJson, Except.ok.injEq] at asJson
    split at asJson
    · subst asJson
      exact reads x List.mem_cons_self
    · subst asJson
      trivial
  | bytes data =>
    obtain ⟨text, -, rfl⟩ := Result.map_eq_ok.mp asJson
    trivial

/-- What JSON holds of a value comes back from its text if its floats do. -/
theorem isJson_of_asJson {w : Value} (asJson : v.asJson = .ok w)
    (reads : ∀ x ∈ w.floats, Json.ReadsBack x) : w.IsJson := by
  induction v using Value.induction generalizing w with
  | scalar s =>
    obtain ⟨held, ofScalar, rfl⟩ := Result.map_eq_ok.mp asJson
    exact .scalar (holds_of_asJson ofScalar reads)
  | list items ih =>
    obtain ⟨held, ofItems, rfl⟩ := Result.map_eq_ok.mp asJson
    refine .list fun w member => ?_
    obtain ⟨v, within, comes⟩ := exists_of_asJsonItems ofItems w member
    exact ih v within comes fun x float => reads x (mem_floatsOfItems.mpr ⟨w, member, float⟩)
  | map entries ih =>
    obtain ⟨held, ofEntries, rfl⟩ := Result.map_eq_ok.mp asJson
    have parts (entry) (member : entry ∈ Table.ofList held) : entry.1.isText = true ∧ entry.2.IsJson := by
      have among := (Table.mem_putAll member).resolve_left List.not_mem_nil
      obtain ⟨isText, old, within, comes⟩ := exists_of_asJsonEntries ofEntries entry among
      exact ⟨isText, ih old within comes fun x float =>
        reads x (mem_floatsOfEntries.mpr ⟨entry, member, float⟩)⟩
    have distinct : (Table.ofList held).keys.Nodup :=
      Table.nodup_keys_putAll (t := []) List.nodup_nil held
    exact .map (List.forall_mem_map.mpr fun entry member => (parts entry member).1) distinct
      fun entry member => (parts entry member).2

/-- What JSON has a form for is stored as it is. -/
theorem IsJson.asJson_eq (json : v.IsJson) : v.asJson = .ok v := by
  induction json with
  | scalar holds =>
    rw [asJson, asJson_of_holds holds]
    rfl
  | list _ ih =>
    rw [asJson, asJsonItems_eq_self ih]
    rfl
  | map texts distinct _ ih =>
    rw [asJson, asJsonEntries_eq_self texts ih]
    exact congrArg (fun entries => Except.ok (Value.map entries)) (Table.ofList_of_nodup distinct)

theorem reordered_sortKeys (proper : v.IsProper) : v.Reordered v.sortKeys := by
  induction v using Value.induction with
  | scalar s => exact .scalar s
  | list items ih =>
    have parts := everyMap_list.mp proper
    rw [sortKeys, sortKeysItems_eq]
    exact .list (List.forall₂_map_right_iff.mpr (List.forall₂_same.mpr fun v member =>
      ih v member (parts v member)))
  | map entries ih =>
    obtain ⟨texts, distinct, parts⟩ := isProper_map.mp proper
    have perm := Sorting.sort_perm (fun a b : Key × Value => a.1.le b.1) (sortKeysEntries entries)
    have keys := keys_sortKeysEntries entries
    have same : Table.Reordered (· = ·) (sortKeysEntries entries) (Sorting.sort _ _) :=
      .of_perm (keys ▸ distinct) perm.symm fun _ _ => rfl
    rw [sortKeys]
    refine .map texts distinct same.distinct' fun key => ?_
    rw [← same.find?_eq, sortKeysEntries_eq, Table.find?_mapValues]
    cases found : Table.find? entries key with
    | none => exact .none
    | some w =>
      have member := Table.mem_of_find? found
      exact .some (ih _ member (parts _ member))

end Value

namespace Json
variable {limits : Limits}

theorem isWithinItems_iff {depth : Nat} {items : List Value} :
    isWithinItems limits depth items = true ↔
      ∀ v ∈ items, limits.depth.all (depth ≤ ·) = true ∧ isWithin limits depth v = true := by
  induction items with
  | nil => simp [isWithinItems]
  | cons v rest ih => simp only [isWithinItems, Bool.and_eq_true, ih, List.forall_mem_cons]

theorem isWithinEntries_iff {depth : Nat} {entries : List (Key × Value)} :
    isWithinEntries limits depth entries = true ↔ ∀ entry ∈ entries,
      limits.depth.all (depth ≤ ·) = true ∧ isWithin limits depth entry.2 = true := by
  induction entries with
  | nil => simp [isWithinEntries]
  | cons entry rest ih => simp only [isWithinEntries, Bool.and_eq_true, ih, List.forall_mem_cons]

/-- Sorting the keys of a value takes no part of it beyond the limits. -/
theorem isWithin_sortKeys {v : Value} {depth : Nat} (within : isWithin limits depth v = true) :
    isWithin limits depth v.sortKeys = true := by
  induction v using Value.induction generalizing depth with
  | scalar s => exact within
  | list items ih =>
    simp only [isWithin, isWithinItems_iff] at within
    simp only [Value.sortKeys, isWithin, isWithinItems_iff, Value.sortKeysItems_eq,
      List.forall_mem_map]
    exact fun v member => ⟨(within v member).1, ih v member (within v member).2⟩
  | map entries ih =>
    have perm := Sorting.sort_perm (fun a b : Key × Value => a.1.le b.1)
      (Value.sortKeysEntries entries)
    simp only [isWithin, isWithinEntries_iff] at within
    simp only [Value.sortKeys, isWithin, isWithinEntries_iff, perm.mem_iff]
    simp only [Value.sortKeysEntries_eq, Table.mapValues, List.forall_mem_map]
    exact fun entry member => ⟨(within entry member).1, ih entry member (within entry member).2⟩

/-- A reader that takes any depth takes whatever can be written. -/
theorem isWithin_of_isWritable {v : Value} (writable : v.isWritable = true) (depth : Nat) :
    isWithin { depth := none } depth v = true := by
  induction v using Value.induction generalizing depth with
  | scalar s =>
    cases s with
    | int n => exact writable
    | _ => rfl
  | list items ih =>
    simp only [isWithin, isWithinItems_iff, Option.all_none, true_and]
    exact fun v member => ih v member (Value.isWritable_list.mp writable v member) (depth + 1)
  | map entries ih =>
    simp only [isWithin, isWithinEntries_iff, Option.all_none, true_and]
    exact fun entry member =>
      ih entry member (Value.isWritable_map.mp writable entry member).2 (depth + 1)

end Json

namespace Schema
variable {α : Type} {R : α → α → Prop} {read : Reader α} {origin : Origin}

theorem all_matches {parts others : List (Checked α)}
    (same : List.Forall₂ (Checked.Matches R) parts others) :
    Checked.Matches (List.Forall₂ R) (Checked.all parts) (Checked.all others) := by
  induction same with
  | nil => exact .valid .nil
  | cons first _ ih => exact (first.map fun _ _ related _ _ => .cons related).seq ih

theorem forall₂_zipIdx {β γ : Type} {S : β → γ → Prop} {items : List β} {others : List γ}
    (all : List.Forall₂ S items others) (start : Nat) :
    List.Forall₂ (fun a b => S a.1 b.1 ∧ a.2 = b.2) (items.zipIdx start) (others.zipIdx start) := by
  induction all generalizing start with
  | nil => exact .nil
  | cons related _ ih => exact .cons ⟨related, rfl⟩ (ih (start + 1))

theorem list_respects (origin : Origin) (respects : Respects R read) :
    Respects (List.Forall₂ R) (list origin read) := by
  intro v w same
  cases same with
  | scalar _ => exact .faulty
  | map => exact .faulty
  | list all =>
    refine all_matches (List.rel_map ?_ (forall₂_zipIdx all 0))
    rintro ⟨v, index⟩ ⟨w, _⟩ ⟨related, rfl⟩
    exact (respects v w related).under (.index index)

/-- A list is read item by item. -/
theorem list_eq_valid {β : Type} {read : Reader β} {items : List Value} {results : List β} :
    list origin read (.list items) = .valid results ↔
      List.Forall₂ (fun v b => read v = .valid b) items results := by
  have firsts : (items.zipIdx 0).map Prod.fst = items := List.zipIdx_map_fst 0 items
  rw [list, all_eq_valid]
  simp only [Checked.under_eq_valid]
  conv_rhs => rw [← firsts, List.forall₂_map_left_iff]

end Schema

/-- The connections have the same name, and the same data up to its order. -/
structure Connection.Reordered (c c' : Connection) : Prop where
  name : c.name = c'.name
  data : Table.Reordered (· = ·) c.data c'.data

section
open Schema

theorem Connection.read_respects (origin : Origin) : Respects Reordered (Connection.read origin) := by
  refine object_respects fun t u same => ?_
  have name := field_matches same text_respects "name"
  have data := fieldOr_matches same (table_respects origin text_respects) .nil "data"
  exact (name.map fun _ _ ofName _ _ ofData => ⟨ofName, ofData⟩).seq data

/-- Whether a document is given or stored, the order of its entries is that of the record's at most. -/
theorem Record.read_respects (origin : Origin) : Respects Reordered (Record.read origin) := by
  refine object_respects fun t u same => ?_
  have kind := field_matches same text_respects "kind"
  have ns := field_matches same text_respects "namespace"
  have name := field_matches same text_respects "instance"
  have outputs := fieldOr_matches same
    (table_respects origin (anything_respects origin)) .nil "outputs"
  have connection := field_matches same (Connection.read_respects origin) "connection"
  have resources := fieldOr_matches same (list_respects origin text_respects) .nil "resources"
  have generation := fieldOr_matches same integer_respects (rfl : (0 : Int) = 0) "generation"
  have moment := fieldOr_matches same (moment_respects origin) (rfl : () = ()) "updated_at"
  refine (((((((kind.map ?_).seq ns).seq name).seq outputs).seq connection).seq resources).seq
    generation).seq moment
  intro _ _ ofKind _ _ ofNs _ _ ofName _ _ ofOutputs _ _ ofConnection _ _ ofResources _ _
    ofGeneration _ _ _
  rw [List.forall₂_eq_eq_eq] at ofResources
  exact ⟨ofKind, ofNs, ofName, ofOutputs, ofConnection.name, ofConnection.data, ofResources,
    ofGeneration⟩

end

/-- What keeps a record from being stored: bytes that are no text, or what keeps a value from being
written. -/
inductive Unstorable : Failure → Prop
  | badBytes (data : List UInt8) : Unstorable (.badBytes data)
  | unwritten {failure : Failure} : Json.Hindrance failure → Unstorable failure

theorem failsOnly_textOfBytes (data : List UInt8) : (textOfBytes data).FailsOnly Unstorable := by
  unfold textOfBytes
  split
  · exact .ok _
  · exact .error (.badBytes data)

theorem Scalar.failsOnly_asJson (s : Scalar) : s.asJson.FailsOnly Unstorable := by
  unfold Scalar.asJson
  split
  · exact .ok _
  · exact .ok _
  · exact .map (failsOnly_textOfBytes _)
  · exact .ok _
  · exact .ok _

theorem Scalar.failsOnly_keyText (s : Scalar) : s.keyText.FailsOnly Unstorable := by
  unfold Scalar.keyText
  split
  · exact .ok _
  · exact .ok _
  · exact .ok _
  · exact failsOnly_textOfBytes _
  · split
    · exact .ok _
    · exact .error (.unwritten .tooLong)

theorem Key.failsOnly_stored (key : Key) : key.stored.FailsOnly Unstorable := by
  cases key with
  | scalar s => exact s.failsOnly_keyText
  | tuple parts => exact .map (.mapM fun s _ => s.failsOnly_keyText)

theorem Value.failsOnly_asJson (v : Value) : v.asJson.FailsOnly Unstorable := by
  induction v using Value.induction with
  | scalar s => exact .map s.failsOnly_asJson
  | list items ih =>
    refine .map ?_
    induction items with
    | nil => exact .ok _
    | cons v rest ofRest =>
      obtain ⟨first, others⟩ := List.forall_mem_cons.mp ih
      exact .bind first fun _ _ => .bind (ofRest others) fun _ _ => .ok _
  | map entries ih =>
    refine .map ?_
    induction entries with
    | nil => exact .ok _
    | cons entry rest ofRest =>
      obtain ⟨first, others⟩ := List.forall_mem_cons.mp ih
      exact .bind entry.1.failsOnly_stored fun _ _ =>
        .bind first fun _ _ => .bind (ofRest others) fun _ _ => .ok _

theorem Record.failsOnly_document (r : Record) (now : String) :
    (r.document now).FailsOnly Unstorable := by
  refine .bind (Value.failsOnly_asJson _) fun v _ => .bind (fun failure fails => ?_) fun _ _ => .ok _
  exact .unwritten (Json.Style.hindrance_of_text? fails)

namespace Record
variable {r : Record} {now : String} {limits : Json.Limits}

/-- The value of the record's document. -/
def documentValue (r : Record) (now : String) : Value :=
  .ofTable (r.toValue ++ [("updated_at", .str now)])

/-- The outputs are values that JSON has a form for, and no key is there twice. -/
structure IsStorable (r : Record) : Prop where
  outputs : (Value.ofTable r.outputs).IsJson
  data : r.connection.data.keys.Nodup

theorem read_documentValue (storable : r.IsStorable) (moment : Moment.textFlaw? now = none) :
    Record.read .stored (r.documentValue now) = .valid r := by
  have outputs : Schema.table .stored (Schema.anything .stored) (Value.ofTable r.outputs) =
      .valid r.outputs := by
    obtain ⟨-, distinct, parts⟩ := Value.isProper_map.mp storable.outputs.isProper
    refine (Schema.table_keyed (Table.nodup_keys_keyed.mp distinct)).mpr
      (List.forall₂_same.mpr fun entry member => ⟨rfl, ?_⟩)
    exact Schema.anything_eq (parts _ (List.mem_map_of_mem member))
  have data : Schema.table .stored Schema.text (Value.ofLabels r.connection.data) =
      .valid r.connection.data := by
    refine (Schema.table_keyed (by rw [Table.keys_mapValues]; exact storable.data)).mpr ?_
    exact List.forall₂_map_left_iff.mpr (List.forall₂_same.mpr fun _ _ => ⟨rfl, rfl⟩)
  have connection : Connection.read .stored (.map [("name", .str r.connection.name),
      ("data", .ofLabels r.connection.data)]) = .valid r.connection := by
    have shape : Connection.read .stored (.map [("name", .str r.connection.name),
        ("data", .ofLabels r.connection.data)]) = Connection.mk <$> .valid r.connection.name <*>
          (Schema.table .stored Schema.text (Value.ofLabels r.connection.data)).under (.key "data") :=
      rfl
    rw [shape, data]
    rfl
  have resources : Schema.list .stored Schema.text (.list (r.resources.map .str)) =
      .valid r.resources :=
    Schema.list_eq_valid.mpr
      (List.forall₂_map_left_iff.mpr (List.forall₂_same.mpr fun _ _ => rfl))
  have updated : Schema.moment .stored (.str now) = .valid () := by
    simp only [Schema.moment, Schema.decoded, moment, Schema.flawless]
  have shape : Record.read .stored (r.documentValue now) =
      (fun kind ns name outputs connection resources generation (_ : Unit) =>
        Record.mk kind ns name outputs connection resources generation)
      <$> .valid r.kind <*> .valid r.ns <*> .valid r.name
      <*> (Schema.table .stored (Schema.anything .stored) (Value.ofTable r.outputs)).under (.key "outputs")
      <*> (Connection.read .stored (.map [("name", .str r.connection.name),
        ("data", .ofLabels r.connection.data)])).under (.key "connection")
      <*> (Schema.list .stored Schema.text (.list (r.resources.map .str))).under (.key "resources")
      <*> .valid r.generation
      <*> (Schema.moment .stored (.str now)).under (.key "updated_at") := rfl
  rw [shape, outputs, connection, resources, updated]
  rfl

theorem isJson_documentValue (storable : r.IsStorable) (now : String) :
    (r.documentValue now).IsJson := by
  have text (text : String) : (Value.str text).IsJson := .scalar trivial
  have data : (Value.ofLabels r.connection.data).IsJson := by
    refine .map (Table.isText_keyed _) (Table.nodup_keys_keyed.mpr ?_) ?_
    · rw [Table.keys_mapValues]
      exact storable.data
    · simp only [Table.mapValues, List.forall_mem_map]
      exact fun _ _ => text _
  have connection : (Value.map [("name", .str r.connection.name),
      ("data", .ofLabels r.connection.data)]).IsJson :=
    .map (by simp [Table.keys, Key.isText]) (by simp [Table.keys]) (by simp [text, data])
  have resources : (Value.list (r.resources.map .str)).IsJson :=
    .list (List.forall_mem_map.mpr fun name _ => text name)
  have number : (Value.int r.generation).IsJson := .scalar trivial
  refine .map (Table.isText_keyed _) (Table.nodup_keys_keyed.mpr ?_) ?_
  · simp [toValue, Table.keys]
  · simp [toValue, text, storable.outputs, connection, resources, number]

/-- The record's document is within the limits of a reader. -/
def Fits (limits : Json.Limits) (r : Record) : Prop :=
  Json.isWithin limits 0 (.ofTable r.toValue) = true

instance (limits : Json.Limits) (r : Record) : Decidable (r.Fits limits) :=
  inferInstanceAs (Decidable (Json.isWithin limits 0 (.ofTable r.toValue) = true))

theorem Fits.documentValue (fits : r.Fits limits) (now : String) :
    Json.isWithin limits 0 (r.documentValue now) = true := by
  simp only [Fits, Value.ofTable, Json.isWithin, Json.isWithinEntries_iff,
    List.forall_mem_map] at fits
  simp only [Record.documentValue, Value.ofTable, Json.isWithin, Json.isWithinEntries_iff,
    List.forall_mem_map, List.forall_mem_append, List.forall_mem_singleton]
  have first := fits ("kind", .str r.kind) List.mem_cons_self
  exact ⟨fits, first.1, trivial⟩

/-- No integer within the record has too many digits to be written. -/
def IsWritable (r : Record) : Prop :=
  (Value.ofTable r.toValue).isWritable = true

instance (r : Record) : Decidable r.IsWritable :=
  inferInstanceAs (Decidable ((Value.ofTable r.toValue).isWritable = true))

theorem isWritable_documentValue (now : String) :
    (r.documentValue now).isWritable = true ↔ r.IsWritable := by
  simp only [IsWritable, documentValue, Value.ofTable, List.map_append, Value.isWritable_map,
    List.forall_mem_append]
  exact and_iff_left fun entry member => by rw [List.mem_singleton.mp member]; exact ⟨rfl, rfl⟩

/-- A record can be written if its outputs can and its generation has not too many digits. -/
theorem isWritable_iff : r.IsWritable ↔
    (Value.ofTable r.outputs).isWritable = true ∧ r.generation.natAbs < decimalBound digitLimit := by
  have resources : (Value.list (r.resources.map .str)).isWritable = true :=
    Value.isWritable_list.mpr (List.forall_mem_map.mpr fun _ _ => rfl)
  have short : (Value.int r.generation).isWritable = true ↔ r.generation.natAbs < decimalBound digitLimit :=
    decide_eq_true_iff
  rw [← short]
  generalize number : Value.int r.generation = generation
  simp only [IsWritable, toValue, number, Value.ofTable, List.map_cons, List.map_nil,
    Value.isWritable_map, List.forall_mem_cons, List.not_mem_nil, false_imp_iff, implies_true, and_true]
  constructor
  · rintro ⟨-, -, -, ⟨-, ofOutputs⟩, -, -, ⟨-, ofGeneration⟩, -⟩
    exact ⟨ofOutputs, ofGeneration⟩
  · rintro ⟨ofOutputs, ofGeneration⟩
    exact ⟨⟨rfl, rfl⟩, ⟨rfl, rfl⟩, ⟨rfl, rfl⟩, ⟨rfl, ofOutputs⟩,
      ⟨rfl, ⟨rfl, rfl⟩, rfl, Value.isWritable_ofLabels _⟩, ⟨rfl, resources⟩, ⟨rfl, ofGeneration⟩,
      rfl, rfl⟩

/-- A record is stored as what its document writes, unless an integer within is too long for that. -/
theorem document_eq (storable : r.IsStorable) (now : String) : r.document now =
    if r.IsWritable then .ok (Json.document (r.documentValue now)) else .error .tooLong := by
  have json := isJson_documentValue storable now
  have asJson : r.asJson now = .ok (r.documentValue now) := json.asJson_eq
  rw [document, asJson, Result.ok_bind, Json.Style.text?_of_isTextual json.isProper.isTextual]
  simp only [isWritable_documentValue]
  split <;> rfl

theorem document_eq_ok (r : Record) (now : String) (storable : r.IsStorable) {text : String} :
    r.document now = .ok text ↔
      r.IsWritable ∧ text = Json.document (r.documentValue now) := by
  rw [document_eq storable]
  split
  · rename_i writable
    simp [writable, eq_comm]
  · rename_i unwritable
    simp [unwritable]

theorem readStored?_document (storable : r.IsStorable) {text : String}
    (written : r.document now = .ok text) : Json.readStored? limits text =
      (some (r.documentValue now).sortKeys).filter (Json.isWithin limits 0) := by
  rw [((r.document_eq_ok now storable).mp written).2, Json.readStored?,
    Json.readEntries?_document (isJson_documentValue storable now)]

theorem read_sortKeys_documentValue (storable : r.IsStorable) (moment : Moment.textFlaw? now = none) :
    ∃ r', Record.read .stored (r.documentValue now).sortKeys = .valid r' ∧ r.Reordered r' := by
  have proper := (isJson_documentValue storable now).isProper
  have matched := Record.read_respects .stored _ _ (Value.reordered_sortKeys proper)
  rw [read_documentValue storable moment] at matched
  obtain ⟨r', comes⟩ := matched.exists_iff.mp ⟨r, rfl⟩
  exact ⟨r', comes, matched.related rfl comes⟩

/-- The document of a record holds the record, up to the order of entries. -/
theorem ofDocument_document (storable : r.IsStorable) (fits : r.Fits limits)
    (moment : Moment.textFlaw? now = none) {text : String} (written : r.document now = .ok text) :
    ∃ r', ofDocument limits text = .ok r' ∧ r.Reordered r' := by
  obtain ⟨r', comes, same⟩ := read_sortKeys_documentValue storable moment
  refine ⟨r', ?_, same⟩
  rw [ofDocument, readStored?_document storable written, Option.filter_some,
    Json.isWithin_sortKeys (fits.documentValue now), if_pos rfl]
  exact Checked.report_eq_ok.mpr comes

/-- Whatever the limits, the document of a record is read as no other record. -/
theorem reordered_of_ofDocument {r' : Record} (storable : r.IsStorable)
    (moment : Moment.textFlaw? now = none) {text : String} (written : r.document now = .ok text)
    (read : ofDocument limits text = .ok r') : r.Reordered r' := by
  obtain ⟨r'', comes, same⟩ := read_sortKeys_documentValue storable moment
  rw [ofDocument, readStored?_document storable written, Option.filter_some] at read
  split at read
  · rename_i v stored
    split at stored
    · cases stored
      rw [Checked.report_eq_ok, comes] at read
      cases read
      exact same
    · cases stored
  · cases read

/-- What JSON holds of the outputs of a record that is stored is a table again. -/
theorem exists_outputs_of_document {text : String} (written : r.document now = .ok text) :
    ∃ outputs, (Value.ofTable r.outputs).asJson = .ok (.ofTable outputs) := by
  cases held : Value.asJsonEntries r.outputs.keyed with
  | ok entries =>
    have texts : ∀ key ∈ Table.keys (Table.ofList entries), key.isText = true := by
      refine List.forall_mem_map.mpr fun entry member => ?_
      rcases Table.mem_putAll member with absent | within
      · cases absent
      · exact (Value.exists_of_asJsonEntries held entry within).1
    obtain ⟨outputs, isTable⟩ := Table.exists_keyed texts
    refine ⟨outputs, ?_⟩
    show (fun entries => Value.map (Table.ofList entries)) <$> Value.asJsonEntries r.outputs.keyed = _
    rw [held]
    exact congrArg (fun entries => Except.ok (Value.map entries)) isTable
  | error failure =>
    have asJson : (Value.ofTable r.outputs).asJson = .error failure := by
      show (fun entries => Value.map (Table.ofList entries)) <$> Value.asJsonEntries r.outputs.keyed = _
      rw [held]
      rfl
    have failed : r.asJson now = .error failure := by
      simp only [Record.asJson, toValue, Value.ofTable, List.map_append, List.map_cons,
        Value.asJson, List.cons_append, Value.asJsonEntries] at asJson ⊢
      rw [asJson]
      rfl
    rw [document, failed] at written
    cases written

/-- A record is stored as one with the outputs that JSON holds of its own. -/
theorem document_of_asJson {outputs : Table String Value}
    (asJson : (Value.ofTable r.outputs).asJson = .ok (.ofTable outputs))
    (json : (Value.ofTable outputs).IsJson) (now : String) :
    ({ r with outputs } : Record).document now = r.document now := by
  have again : (Value.ofTable outputs).asJson = (Value.ofTable r.outputs).asJson := by
    rw [asJson]
    exact json.asJson_eq
  have same : ({ r with outputs } : Record).asJson now = r.asJson now := by
    simp only [Record.asJson, toValue, address, Value.ofTable, List.map_append, List.map_cons,
      Value.asJson, List.cons_append, Value.asJsonEntries] at again ⊢
    rw [again]
  simp only [document, same]

end Record
end WorkloadConfig
