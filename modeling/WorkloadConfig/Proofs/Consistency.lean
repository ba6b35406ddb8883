import WorkloadConfig.Proofs.Json.Unambiguous
import WorkloadConfig.Proofs.Order.Declarations

namespace WorkloadConfig

namespace Value
variable {floats : Set Binary64} {v : Value}

theorem IsProper.keysApart (proper : v.IsProper) : v.KeysApart := by
  refine everyMap_mono (fun keys both => ?_) v proper
  obtain ⟨texts, distinct⟩ := Bool.and_eq_true_iff.mp both
  refine decide_eq_true ((of_decide_eq_true distinct).imp_of_mem fun _ inKeys apart agree => apart ?_)
  obtain ⟨text, rfl⟩ := eq_str_of_isText (List.all_eq_true.mp texts _ inKeys)
  exact Key.eq_of_agrees_str agree

theorem agrees_scalar_self {s : Scalar} (data : s.IsData floats)
    (numbers : ∀ x ∈ floats, x.isNaN = false) : s.agrees s = true := by
  refine Scalar.agrees_iff.mpr ⟨?_, rfl⟩
  cases s with
  | null | bool _ | int _ | str _ => rfl
  | float x =>
    cases whole : x.toInt? <;>
      simp [Scalar.essence?, Scalar.quantity?, Quantity.proper?, whole, numbers x data]
  | timestamp _ | bytes _ | unordered _ => cases data

/-- Where each float is a number, a value agrees with itself. -/
theorem IsData.agrees_self (data : v.IsData floats) (numbers : ∀ x ∈ floats, x.isNaN = false) :
    v.agrees v = true := by
  induction data with
  | scalar holds => exact agrees_scalar_self holds numbers
  | list _ ih => exact agrees_list_iff.mpr (List.forall₂_same.mpr ih)
  | map texts distinct parts ih =>
    have apart := (keysApart_map.mp (IsData.map texts distinct parts).isProper.keysApart).1
    refine (agrees_map_iff apart).mpr ⟨rfl, fun entry member => ⟨entry, member, ?_, ih entry member⟩⟩
    obtain ⟨text, same⟩ := eq_str_of_isText (texts entry.1 (List.mem_map_of_mem member))
    rw [same]
    simp [Key.agrees, Scalar.agrees]

end Value

theorem Scalar.isData_null {floats : Set Binary64} : Scalar.IsData floats .null :=
  trivial

namespace Schema
variable {α : Type} {floats : Set Binary64} {P : α → Prop} {read : Reader α} {origin : Origin}
  {entries : List (Key × Value)} {name : String} {a default : α}

/-- Whatever the reader accepts of values that JSON has a form for has the property. -/
def Yields (floats : Set Binary64) (P : α → Prop) (read : Reader α) : Prop :=
  ∀ v a, v.IsData floats → read v = .valid a → P a

theorem yields_anything : Yields floats (Value.IsData floats) (anything .given) := by
  rintro v _ data ⟨⟩
  exact data

theorem Yields.list (each : Yields floats P read) :
    Yields floats (fun items => ∀ a ∈ items, P a) (list origin read) := by
  intro v items data accepted
  cases data with
  | scalar _ | map _ _ _ => cases accepted
  | list parts =>
    intro a member
    obtain ⟨⟨part, index⟩, among, comes⟩ := exists_of_forall₂ (all_eq_valid.mp accepted).flip member
    exact each part a (parts part (List.fst_mem_of_mem_zipIdx among)) (Checked.under_eq_valid.mp comes)

theorem Yields.member (each : Yields floats P read) (parts : ∀ entry ∈ entries, entry.2.IsData floats)
    {v : Value} (found : member? entries name = some v) {step : Step}
    (accepted : (read v).under step = .valid a) : P a := by
  have within := List.mem_reverse.mp (Table.mem_of_find? found)
  exact each v a (parts _ within) (Checked.under_eq_valid.mp accepted)

theorem Yields.field (each : Yields floats P read) (parts : ∀ entry ∈ entries, entry.2.IsData floats)
    (accepted : field entries name read = .valid a) : P a := by
  unfold Schema.field at accepted
  split at accepted
  · rename_i v found
    exact each.member parts found accepted
  · cases accepted

theorem Yields.fieldOr (each : Yields floats P read) (usual : P default)
    (parts : ∀ entry ∈ entries, entry.2.IsData floats)
    (accepted : fieldOr entries name default read = .valid a) : P a := by
  unfold Schema.fieldOr at accepted
  split at accepted
  · rename_i v found
    exact each.member parts found accepted
  · cases accepted
    exact usual

end Schema

section
variable {floats : Set Binary64}

theorem Patch.yields_default :
    Schema.Yields floats (fun p : Patch => p.default.IsData floats) Patch.read := by
  intro v p data accepted
  cases data with
  | scalar _ | list _ => cases accepted
  | map _ _ parts =>
    obtain ⟨-, all⟩ := Checked.also_eq_valid.mp accepted
    obtain ⟨_, _, three, -, rfl⟩ := Checked.seq_eq_valid.mp all
    obtain ⟨_, default, two, ofDefault, rfl⟩ := Checked.seq_eq_valid.mp three
    obtain ⟨_, _, one, -, rfl⟩ := Checked.seq_eq_valid.mp two
    obtain ⟨_, -, rfl⟩ := Checked.map_eq_valid.mp one
    exact Schema.yields_anything.fieldOr (.scalar Scalar.isData_null) parts ofDefault

theorem Template.yields_defaults :
    Schema.Yields floats (fun t : Template => ∀ p ∈ t.patches, p.default.IsData floats)
      Template.read := by
  intro v t data accepted
  cases data with
  | scalar _ | list _ => cases accepted
  | map _ _ parts =>
    obtain ⟨-, all⟩ := Checked.also_eq_valid.mp accepted
    obtain ⟨_, patches, four, ofPatches, rfl⟩ := Checked.seq_eq_valid.mp all
    obtain ⟨_, _, three, -, rfl⟩ := Checked.seq_eq_valid.mp four
    obtain ⟨_, _, two, -, rfl⟩ := Checked.seq_eq_valid.mp three
    obtain ⟨_, _, one, -, rfl⟩ := Checked.seq_eq_valid.mp two
    obtain ⟨_, -, rfl⟩ := Checked.map_eq_valid.mp one
    exact Patch.yields_default.list.fieldOr (fun _ absent => absurd absent List.not_mem_nil) parts
      ofPatches

/-- The defaults of a composition that was read from JSON are values as JSON has them. -/
theorem Composition.yields_defaults :
    Schema.Yields floats (fun c : Composition => ∀ p ∈ c.patches, p.default.IsData floats)
      Composition.parts := by
  have templates : Schema.Yields floats
      (fun ts : List Template => ∀ t ∈ ts, ∀ p ∈ t.patches, p.default.IsData floats)
      someTemplates := by
    intro v ts data accepted
    obtain ⟨found, ofList, next⟩ := Checked.andThen_eq_valid.mp accepted
    split at next
    · cases next
    · cases next
      exact Template.yields_defaults.list v ts data ofList
  intro v c data accepted
  cases data with
  | scalar _ | list _ => cases accepted
  | map _ _ parts =>
    obtain ⟨-, all⟩ := Checked.also_eq_valid.mp accepted
    obtain ⟨_, _, three, -, rfl⟩ := Checked.seq_eq_valid.mp all
    obtain ⟨_, resources, two, ofResources, rfl⟩ := Checked.seq_eq_valid.mp three
    obtain ⟨_, _, one, -, rfl⟩ := Checked.seq_eq_valid.mp two
    obtain ⟨_, -, rfl⟩ := Checked.map_eq_valid.mp one
    intro p member
    obtain ⟨t, among, within⟩ := List.mem_flatMap.mp member
    exact templates.field parts ofResources t among p within

end

/-- The parts of the composition fit together: templates and publications can be told apart, the
defaults of a field agree, and what is published is declared. -/
structure Composition.IsConsistent (c : Composition) : Prop where
  templates : c.templateNames.Nodup
  defaults : c.Unequivocal fun v w => v.agrees w = true
  declared : ∀ p ∈ c.publish, ∃ q ∈ c.patches, q.field = p.fromField
  keys : (c.publish.map (·.key.text)).Nodup

/-- The declaration says of its field what the patches that read the field say together. -/
structure Composition.Combines (c : Composition) (d : Declaration) : Prop where
  required : d.required = true ↔ ∃ p ∈ c.patches, p.field.text = d.path ∧ p.required = true
  null : d.default = .null ↔ ∀ p ∈ c.patches, p.field.text = d.path → p.default = .null
  default : ∀ p ∈ c.patches, p.field.text = d.path → p.default ≠ .null →
    d.default.agrees p.default = true

/-- The declaration has been made of these patches, its default taken from one of them. -/
structure Declaration.MadeOf (d : Declaration) (patches : List Patch) : Prop where
  required : d.required = true ↔ ∃ p ∈ patches, p.field.text = d.path ∧ p.required = true
  null : d.default = .null ↔ ∀ p ∈ patches, p.field.text = d.path → p.default = .null
  default : d.default ≠ .null → ∃ p ∈ patches, p.field.text = d.path ∧ p.default = d.default

namespace Declaration.MadeOf
variable {d : Declaration} {patches : List Patch} {p : Patch}

theorem nil (path : String) : MadeOf ⟨path, .null, false⟩ [] :=
  ⟨by simp, by simp, fun given => absurd rfl given⟩

theorem skip (made : d.MadeOf patches) (other : p.field.text ≠ d.path) : d.MadeOf (patches ++ [p]) := by
  refine ⟨?_, ?_, fun given => ?_⟩
  · simp [made.required, other, or_and_right, exists_or]
  · simp [made.null, other, or_imp, forall_and]
  · obtain ⟨q, member, own, same⟩ := made.default given
    exact ⟨q, List.mem_append_left _ member, own, same⟩

theorem extend (made : d.MadeOf patches) (own : p.field.text = d.path) :
    (d.extend p).MadeOf (patches ++ [p]) := by
  refine ⟨?_, ?_, fun given => ?_⟩
  · simp [Declaration.extend, made.required, own, or_and_right, exists_or]
  · by_cases null : p.default = .null
    · simp [Declaration.extend, made.null, own, null, or_imp, forall_and]
    · simp [Declaration.extend, own, null, or_imp, forall_and]
  · by_cases null : p.default = .null
    · simp only [Declaration.extend, null, if_true] at given ⊢
      obtain ⟨q, member, ofField, same⟩ := made.default given
      exact ⟨q, List.mem_append_left _ member, ofField.trans own.symm, same⟩
    · exact ⟨p, List.mem_append_right _ List.mem_cons_self, rfl, by simp [Declaration.extend, null]⟩

end Declaration.MadeOf

namespace Composition
variable {c : Composition}

/-- Where agreement holds both ways, any two patches may be compared in either order. -/
theorem unequivocal_iff_pairwise (apart : ∀ p ∈ c.patches, p.default.KeysApart)
    (self : ∀ p ∈ c.patches, p.default.agrees p.default = true) :
    (c.Unequivocal fun v w => v.agrees w = true) ↔
      c.patches.Pairwise (Patch.Accords fun v w => v.agrees w = true) := by
  constructor
  · exact List.pairwise_of_forall_mem_list
  · intro agree p inP q inQ
    -- The check has seen each two patches in one order, and none beside itself.
    have symmetric : Std.Symm
        (Patch.Accords fun v w => v.agrees w = true ∧ w.agrees v = true) :=
      ⟨fun _ _ accord sameField given given' => (accord sameField.symm given' given).symm⟩
    have all := (pairwise_both_ways apart agree).forall_of_forall
      (fun p member _ _ _ => ⟨self p member, self p member⟩) inP inQ
    exact fun sameField given given' => (all sameField given given').1

theorem check_eq_ok_iff (apart : ∀ p ∈ c.patches, p.default.KeysApart)
    (self : ∀ p ∈ c.patches, p.default.agrees p.default = true) :
    c.check = .ok () ↔ c.IsConsistent := by
  have fits : ∀ p ∈ c.patches, Fits [] p := fun _ _ _ _ found => nomatch found
  rw [check_eq_ok, repeatedNames_eq_nil, checkDefaults_eq_ok apart, and_iff_right fits,
    ← unequivocal_iff_pairwise apart self, checkPublications_eq_ok]
  constructor
  · rintro ⟨templates, defaults, declared, keys, -⟩
    exact ⟨templates, defaults, fun p member => List.mem_map.mp (declared p member), keys⟩
  · rintro ⟨templates, defaults, declared, keys⟩
    exact ⟨templates, defaults, fun p member => List.mem_map.mpr (declared p member), keys,
      fun _ _ => List.not_mem_nil⟩

/-- What the patches declare of a field. -/
def declared (patches : List Patch) (path : String) : Declaration :=
  ((patches.foldl declare []).find? path).getD ⟨path, .null, false⟩

variable {patches : List Patch} {p : Patch} {path : String}

theorem declared_concat (patches : List Patch) (p : Patch) (path : String) :
    declared (patches ++ [p]) path =
      if path = p.field.text then (declared patches path).extend p else declared patches path := by
  rw [declared, List.foldl_concat, find?_declare]
  split <;> rfl

theorem path_declared (patches : List Patch) (path : String) : (declared patches path).path = path := by
  induction patches using List.reverseRecOn with
  | nil => rfl
  | append_singleton rest p ih =>
    rw [declared_concat]
    split
    · rename_i own
      exact own.symm
    · exact ih

theorem madeOf_declared (patches : List Patch) (path : String) :
    (declared patches path).MadeOf patches := by
  induction patches using List.reverseRecOn with
  | nil => exact .nil path
  | append_singleton rest p ih =>
    have ofField := path_declared rest path
    rw [declared_concat]
    split
    · rename_i own
      exact ih.extend (own.symm.trans ofField.symm)
    · rename_i other
      exact ih.skip fun own => other (ofField.symm.trans own.symm)

theorem keys_declared (patches : List Patch) :
    (patches.foldl declare []).keys = (patches.map (·.field.text)).eraseDups := by
  induction patches using List.reverseRecOn with
  | nil => rfl
  | append_singleton rest p ih =>
    have again : [p.field.text].removeAll (rest.map (·.field.text)) =
        if p.field.text ∈ rest.map (·.field.text) then [] else [p.field.text] := by
      split <;> simp_all [List.removeAll]
    rw [List.foldl_concat, declare, Table.keys_put, List.map_append, List.eraseDups_append,
      List.map_singleton, again]
    simp only [ih, List.mem_eraseDups]
    split <;> simp [List.eraseDups_cons]

/-- The fields in the order of their first mention, each declared with what all patches say of it. -/
theorem fields_eq (c : Composition) :
    c.fields = (c.patches.map (·.field.text)).eraseDups.map (declared c.patches) := by
  have distinct : (c.patches.foldl declare []).keys.Nodup := keys_declared c.patches ▸ nodup_eraseDups _
  rw [← keys_declared, Table.keys, List.map_map]
  refine List.map_congr_left fun entry member => ?_
  rw [Function.comp_apply, declared, (Table.find?_eq_some_iff distinct).mpr member, Option.getD_some]

/-- The default of a declaration was given by a patch that reads the field, so it agrees with what the
others give. -/
theorem combines_of_unequivocal (agree : c.Unequivocal fun v w => v.agrees w = true)
    {d : Declaration} (member : d ∈ c.fields) : c.Combines d := by
  rw [fields_eq] at member
  obtain ⟨path, -, rfl⟩ := List.mem_map.mp member
  have made := madeOf_declared c.patches path
  refine ⟨made.required, made.null, fun p within own given => ?_⟩
  have given' : (declared c.patches path).default ≠ .null := fun null =>
    given (made.null.mp null p within own)
  obtain ⟨q, among, ofField, taken⟩ := made.default given'
  rw [← taken]
  exact agree q among p within (FieldPath.text_inj.mp (ofField.trans own.symm)) (taken ▸ given') given

/-- Of compositions whose parts can be read, exactly the consistent ones are accepted. A field of
theirs is declared once, in the order of first mention; it is required if one of its patches requires
it, and has a default if one of them gives any, which agrees with all that they give. -/
theorem accepted_iff {v : Value} {c : Composition} (json : v.IsData {x | x.isNaN = false})
    (readable : parts v = .valid c) :
    (ofValue v = .ok c ↔ c.IsConsistent) ∧
      (¬ c.IsConsistent → ∃ flaw : Inconsistency,
        ofValue v = .error ⟨title, [.here (.rule flaw.message)]⟩) ∧
      (c.IsConsistent → c.fields.map Declaration.path = (c.patches.map (·.field.text)).eraseDups ∧
        (c.fields.map Declaration.path).Nodup ∧ ∀ d ∈ c.fields, c.Combines d) := by
  have data := yields_defaults v c json readable
  have checked : c.check = .ok () ↔ c.IsConsistent := check_eq_ok_iff
    (fun p member => (data p member).isProper.keysApart)
    fun p member => (data p member).agrees_self fun _ number => number
  refine ⟨?_, fun inconsistent => ?_, fun consistent => ⟨?_, c.nodup_fields, ?_⟩⟩
  · rw [← checked, ofValue_eq_ok, and_iff_right readable]
  · rw [ofValue, read, readable, Checked.andThen]
    cases found : c.check with
    | ok _ => exact absurd (checked.mp found) inconsistent
    | error flaw => exact ⟨flaw, rfl⟩
  · rw [fields_eq, List.map_map]
    exact (List.map_congr_left fun path _ => path_declared c.patches path).trans (List.map_id _)
  · exact fun d => combines_of_unequivocal consistent.defaults

/-- The number one is the truth value and the float, in lists as well, and null says nothing. The
number two is another. -/
theorem accepted_iff_of_ones :
    let one : Binary64 := ⟨false, 1023, 0⟩
    let template (name : String) (default : Value) (required : Bool) : Value := .map [
      ("name", .str name), ("kind", .str "ConfigMap"), ("patches", .list [.map [
        ("field", .str "size"), ("to", .str "data.size"), ("default", default),
        ("required", .bool required)]])]
    let data (last : Value) : Value := .map [
      ("kind", .str "Web"),
      ("resources", .list [template "a" (.list [.int 1]) false, template "b" .null true,
        template "c" (.list [.float one]) false, template "d" last false]),
      ("publish", .list [.map [("key", .str "size"), ("from_field", .str "size")]])]
    (∃ c, ofValue (data (.list [.bool true])) = .ok c ∧ c.IsConsistent ∧
      c.fields.map Declaration.path = ["size"] ∧
      ∀ d ∈ c.fields, d.required = true ∧ d.default.agrees (.list [.int 1]) = true) ∧
    ∃ flaw : Inconsistency,
      ofValue (data (.list [.int 2])) = .error ⟨title, [.here (.rule flaw.message)]⟩ := by
  intro one template data
  have ends : ∀ entry ∈ ([] : List (Key × Value)), entry.2.IsData {x | x.isNaN = false} :=
    List.forall_mem_nil _
  have templates (name : String) (default : Value) (required : Bool)
      (json : default.IsData {x | x.isNaN = false}) :
      (template name default required).IsData {x | x.isNaN = false} := by
    refine .map (by simp [Table.keys, Key.isText]) (by simp [Table.keys]) ?_
    simp only [List.forall_mem_cons]
    refine ⟨.scalar trivial, .scalar trivial, .list ?_, ends⟩
    refine List.forall_mem_singleton.mpr <|
      .map (by simp [Table.keys, Key.isText]) (by simp [Table.keys]) ?_
    simp only [List.forall_mem_cons]
    exact ⟨.scalar trivial, .scalar trivial, json, .scalar trivial, ends⟩
  have json (last : Scalar) (given : last.IsData {x | x.isNaN = false}) :
      (data (.list [.scalar last])).IsData {x | x.isNaN = false} := by
    have singleton (s : Scalar) (proper : s.IsData {x | x.isNaN = false}) :
        (Value.list [.scalar s]).IsData {x | x.isNaN = false} :=
      .list (List.forall_mem_singleton.mpr (.scalar proper))
    refine .map (by simp [Table.keys, Key.isText]) (by simp [Table.keys]) ?_
    simp only [List.forall_mem_cons]
    refine ⟨.scalar trivial, .list ?_, .list ?_, ends⟩
    · simp only [List.forall_mem_cons]
      exact ⟨templates _ _ _ (singleton (.int 1) trivial), templates _ _ _ (.scalar trivial),
        templates _ _ _ (singleton (.float one) rfl), templates _ _ _ (singleton last given),
        List.forall_mem_nil _⟩
    · refine List.forall_mem_singleton.mpr (.map (by decide) (by decide) ?_)
      simp only [List.forall_mem_cons]
      exact ⟨.scalar trivial, .scalar trivial, ends⟩
  constructor
  · obtain ⟨c, readable, fits, paths, ⟨p, inP, ofP, one⟩, q, inQ, ofQ, needed⟩ :
        ∃ c, parts (data (.list [.bool true])) = .valid c ∧ c.check = .ok () ∧
          (c.patches.map (·.field.text)).eraseDups = ["size"] ∧
          (∃ p ∈ c.patches, p.field.text = "size" ∧ p.default = .list [.int 1]) ∧
          ∃ q ∈ c.patches, q.field.text = "size" ∧ q.required = true :=
      ⟨_, rfl, by decide +kernel, rfl, ⟨_, .head _, rfl, rfl⟩, _, .tail _ (.head _), rfl, rfl⟩
    obtain ⟨accepted, -, combined⟩ := accepted_iff (json (.bool true) trivial) readable
    have valid := ofValue_eq_ok.mpr ⟨readable, fits⟩
    have consistent : c.IsConsistent := accepted.mp valid
    obtain ⟨once, -, each⟩ := combined consistent
    refine ⟨c, valid, consistent, once.trans paths, fun d member => ?_⟩
    have size : "size" = d.path := by
      have among := List.mem_map_of_mem (f := Declaration.path) member
      rw [once, paths] at among
      exact (List.mem_singleton.mp among).symm
    refine ⟨(each d member).required.mpr ⟨q, inQ, ofQ.trans size, needed⟩, ?_⟩
    exact one ▸ (each d member).default p inP (ofP.trans size) (by simp [one, Value.null])
  · obtain ⟨c, readable, ⟨p, inP, ofP, one⟩, q, inQ, ofQ, two⟩ :
        ∃ c, parts (data (.list [.int 2])) = .valid c ∧
          (∃ p ∈ c.patches, p.field.text = "size" ∧ p.default = .list [.int 1]) ∧
          ∃ q ∈ c.patches, q.field.text = "size" ∧ q.default = .list [.int 2] :=
      ⟨_, rfl, ⟨_, .head _, rfl, rfl⟩, _, .tail _ (.tail _ (.tail _ (.head _))), rfl, rfl⟩
    refine (accepted_iff (json (.int 2) trivial) readable).2.1 fun consistent => ?_
    have agree := consistent.defaults p inP q inQ (FieldPath.text_inj.mp (ofP.trans ofQ.symm))
      (by simp [one, Value.null]) (by simp [two, Value.null])
    rw [one, two] at agree
    exact absurd agree (by decide)

end Composition
end WorkloadConfig
