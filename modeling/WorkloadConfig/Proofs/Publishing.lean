import WorkloadConfig.Proofs.Rendering
import WorkloadConfig.Proofs.Stages

namespace WorkloadConfig

namespace Table
variable {κ α β : Type} [DecidableEq κ] {le : κ × α → κ × α → Bool} {key : κ}

theorem find?_insert (reflexive : ∀ a b : κ × α, a.1 = key → b.1 = key → le a b = true)
    (entry : κ × α) (t : Table κ α) :
    find? (Sorting.insert le entry t) key = if entry.1 = key then some entry.2 else t.find? key := by
  induction t with
  | nil => rfl
  | cons first rest ih =>
    by_cases before : le entry first = true
    · simp only [Sorting.insert, before, if_true, find?]
    · have apart : ¬ (entry.1 = key ∧ first.1 = key) := fun both =>
        before (reflexive entry first both.1 both.2)
      simp only [Sorting.insert, before, Bool.false_eq_true, if_false, find?, ih]
      by_cases own : first.1 = key
      · have other : entry.1 ≠ key := fun same => apart ⟨same, own⟩
        simp only [own, other, if_true, if_false]
      · simp only [own, if_false]

/-- Sorting leaves what is found under a key that the order cannot tell from itself. -/
theorem find?_sort (reflexive : ∀ a b : κ × α, a.1 = key → b.1 = key → le a b = true)
    (t : Table κ α) : find? (Sorting.sort le t) key = t.find? key := by
  induction t with
  | nil => rfl
  | cons entry rest ih =>
    have step := find?_insert reflexive entry (Sorting.sort le rest)
    rw [ih] at step
    exact step

theorem mem_keys_iff {t : Table κ α} : key ∈ t.keys ↔ ∃ a, t.find? key = some a := by
  induction t with
  | nil => simp [keys, find?]
  | cons entry rest ih =>
    by_cases same : entry.1 = key
    · simp [keys, find?, same]
    · simp only [keys, List.map_cons, List.mem_cons, find?, same, if_false] at ih ⊢
      rw [← ih]
      exact ⟨fun either => either.resolve_left fun first => same first.symm, .inr⟩

end Table

theorem find?_byKey {α : Type} (t : Table String α) (key : String) :
    (byKey t).find? key = t.find? key := by
  refine Table.find?_sort (fun a b first second => ?_) t
  simp only [first, second, decide_eq_true_eq]
  exact String.le_refl key

theorem mem_texts_iff {items : List String} {text : String} :
    text ∈ Sorting.texts items ↔ text ∈ items :=
  (Sorting.sort_perm _ items).mem_iff

namespace Value

theorem find?_sortKeysEntries (entries : List (Key × Value)) (key : Key) :
    Table.find? (sortKeysEntries entries) key = (Table.find? entries key).map sortKeys := by
  rw [sortKeysEntries_eq, Table.find?_mapValues]

theorem lookup_map (entries : List (Key × Value)) (key : Key) :
    (Value.map entries).lookup key = (Table.find? entries key).getD .null := rfl

/-- What is found under a text comes out with its own keys in order. -/
theorem lookup_sortKeys (v : Value) (text : String) :
    v.sortKeys.lookup (.str text) = (v.lookup (.str text)).sortKeys := by
  cases v with
  | scalar _ => rfl
  | list _ => rfl
  | map entries =>
    have found : Table.find? (Value.map entries).sortKeys.entries (.str text) =
        (Table.find? entries (.str text)).map sortKeys := by
      rw [← find?_sortKeysEntries]
      refine Table.find?_sort (fun a b first second => ?_) _
      simp only [first, second, Key.le, decide_eq_true_eq]
      exact String.le_refl text
    rw [lookup, found, lookup_map]
    cases Table.find? entries (.str text) <;> rfl

theorem find?_ofLabels (labels : Table String String) (key : String) :
    Table.find? (ofLabels labels).entries (.str key) = (labels.find? key).map .str := by
  induction labels with
  | nil => rfl
  | cons label rest ih =>
    by_cases same : label.1 = key
    · simp [ofLabels, ofTable, Table.mapValues, entries, Table.find?, same]
    · simp [ofLabels, ofTable, Table.mapValues, entries, Table.find?, same] at ih ⊢
      exact ih

end Value

/-- A composition whose parts fit together and that has a template at all. -/
structure Composition.Valid (c : Composition) : Prop where
  checked : c.check = .ok ()
  templates : c.resources ≠ []

/-- Every composition of the registry is valid. -/
def Registry.Valid (r : Registry) : Prop :=
  ∀ kind c, r.get kind = .ok c → c.Valid

namespace Composition
variable {c : Composition}

theorem checkPublications_eq_ok {declared : List FieldPath} {seen : List String}
    {publications : List Publication} : checkPublications declared seen publications = .ok () ↔
      (∀ p ∈ publications, p.fromField ∈ declared) ∧ (publications.map (·.key.text)).Nodup ∧
        ∀ p ∈ publications, p.key.text ∉ seen := by
  induction publications generalizing seen with
  | nil => simp [checkPublications]
  | cons p rest ih =>
    unfold checkPublications
    split
    · rename_i undeclared
      have notDeclared : p.fromField ∉ declared := by simpa using undeclared
      simp [notDeclared]
    · rename_i isDeclared
      have isDeclared : p.fromField ∈ declared := by simpa using isDeclared
      split
      · rename_i again
        have again : p.key.text ∈ seen := by simpa using again
        simp [again]
      · rename_i fresh
        have fresh : p.key.text ∉ seen := by simpa using fresh
        simp only [ih, List.forall_mem_cons, List.map_cons, List.nodup_cons, isDeclared, true_and,
          fresh, not_false_eq_true]
        refine and_congr_right fun _ => ?_
        simp only [List.mem_cons, not_or, List.mem_map, not_exists, not_and]
        constructor
        · rintro ⟨distinct, others⟩
          exact ⟨⟨fun q member => (others q member).1, distinct⟩, fun q member => (others q member).2⟩
        · rintro ⟨⟨apart, distinct⟩, others⟩
          exact ⟨distinct, fun q member => ⟨apart q member, others q member⟩⟩

theorem check_eq_ok : c.check = .ok () ↔ repeatedNames c.templateNames = [] ∧
    checkDefaults [] c.patches = .ok () ∧
    checkPublications (c.patches.map Patch.field) [] c.publish = .ok () := by
  unfold check
  simp only
  split
  · rename_i some
    simp [some]
  · rename_i none
    rw [not_not.mp none]
    cases checkDefaults [] c.patches <;> simp [bind, Except.bind]

/-- A valid composition publishes no key twice. -/
theorem Valid.distinct (valid : c.Valid) : (c.publish.map (·.key.text)).Nodup :=
  (checkPublications_eq_ok.mp (check_eq_ok.mp valid.checked).2.2).2.1

theorem someTemplates_ne_nil {v : Value} {templates : List Template}
    (accepted : someTemplates v = .valid templates) : templates ≠ [] := by
  obtain ⟨found, -, next⟩ := Checked.andThen_eq_valid.mp accepted
  split at next
  · cases next
  · rename_i some
    cases next
    simpa using some

theorem resources_of_parts {v : Value} (accepted : parts v = .valid c) : c.resources ≠ [] := by
  cases v with
  | scalar _ => cases accepted
  | list _ => cases accepted
  | map entries =>
    obtain ⟨-, all⟩ := Checked.also_eq_valid.mp accepted
    obtain ⟨_, publish, three, -, rfl⟩ := Checked.seq_eq_valid.mp all
    obtain ⟨_, resources, two, ofResources, rfl⟩ := Checked.seq_eq_valid.mp three
    obtain ⟨_, description, one, -, rfl⟩ := Checked.seq_eq_valid.mp two
    obtain ⟨kind, -, rfl⟩ := Checked.map_eq_valid.mp one
    unfold Schema.field at ofResources
    split at ofResources
    · exact someTemplates_ne_nil (Checked.under_eq_valid.mp ofResources)
    · cases ofResources

theorem ofValue_eq_ok {v : Value} :
    ofValue v = .ok c ↔ parts v = .valid c ∧ c.check = .ok () := by
  rw [ofValue, Checked.report_eq_ok, read, Checked.andThen_eq_valid]
  constructor
  · rintro ⟨found, ofParts, next⟩
    split at next
    · rename_i checked
      cases next
      exact ⟨ofParts, checked⟩
    · cases next
  · rintro ⟨ofParts, checked⟩
    exact ⟨c, ofParts, by rw [checked]⟩

/-- Whatever is read as a composition is valid. -/
theorem valid_of_ofValue {v : Value} (accepted : ofValue v = .ok c) : c.Valid := by
  obtain ⟨ofParts, checked⟩ := ofValue_eq_ok.mp accepted
  exact ⟨checked, resources_of_parts ofParts⟩

end Composition

/-- The publication has the value for others to read. -/
structure Publication.Gives (p : Publication) (fields : Assignment) (refs : Resolutions)
    (v : Value) : Prop where
  open_ : p.sensitive = false
  literal : p.literal fields refs = .ok v
  given : v ≠ .null

namespace Published
variable {fields : Assignment} {refs : Resolutions} {done after : Published}

/-- A key that is not there yet is there afterwards if the publication gives it a value. -/
theorem find?_add {p : Publication} (added : add fields refs done p = .ok after)
    (fresh : done.outputs.find? p.key.text = none) (key : String) (v : Value) :
    after.outputs.find? key = some v ↔
      done.outputs.find? key = some v ∨ p.key.text = key ∧ p.Gives fields refs v := by
  simp only [add, Result.bind_eq_ok] at added
  obtain ⟨u, literal, added⟩ := added
  have gives : p.Gives fields refs v → p.sensitive = false ∧ u ≠ .null ∧ v = u := fun given =>
    have same := Except.ok.inj (given.literal.symm.trans literal)
    ⟨given.open_, same ▸ given.given, same⟩
  split at added
  · rename_i null
    cases added
    exact ⟨.inl, fun either => either.resolve_right fun given => (gives given.2).2.1 null⟩
  · rename_i given
    split at added
    · rename_i sensitive
      obtain ⟨text, -, added⟩ := Result.bind_eq_ok.mp added
      cases added
      refine ⟨.inl, fun either => either.resolve_right fun given => ?_⟩
      exact absurd given.2.open_ (by simp [sensitive])
    · rename_i open_
      cases added
      by_cases same : key = p.key.text
      · subst same
        simp only [Table.find?_put_self, Option.some.injEq, fresh, reduceCtorEq, false_or, true_and]
        constructor
        · rintro rfl
          exact ⟨by simpa using open_, literal, given⟩
        · intro given
          exact (gives given).2.2.symm
      · simp only [Table.find?_put_of_ne _ _ same, Ne.symm same, false_and, or_false]

/-- The outputs of publications under different keys are the values that they give. -/
theorem find?_foldlM {publications : List Publication}
    (folded : publications.foldlM (add fields refs) done = .ok after)
    (distinct : (publications.map (·.key.text)).Nodup)
    (fresh : ∀ p ∈ publications, done.outputs.find? p.key.text = none) (key : String) (v : Value) :
    after.outputs.find? key = some v ↔
      done.outputs.find? key = some v ∨ ∃ p ∈ publications, p.key.text = key ∧ p.Gives fields refs v := by
  induction publications generalizing done with
  | nil =>
    cases folded
    simp
  | cons p rest ih =>
    rw [List.foldlM_cons] at folded
    obtain ⟨next, added, folded⟩ := Result.bind_eq_ok.mp folded
    obtain ⟨apart, distinct⟩ := List.nodup_cons.mp distinct
    obtain ⟨first, others⟩ := List.forall_mem_cons.mp fresh
    have step := find?_add added first
    have still : ∀ q ∈ rest, next.outputs.find? q.key.text = none := by
      intro q member
      rw [Option.eq_none_iff_forall_ne_some]
      intro w found
      rcases (step q.key.text w).mp found with before | own
      · simp [others q member] at before
      · exact apart (List.mem_map.mpr ⟨q, member, own.1.symm⟩)
    rw [ih folded distinct still, step]
    simp only [List.mem_cons, exists_eq_or_imp, or_assoc]

end Published

namespace Instance
variable {i : Instance} {c : Composition} {fields : Assignment} {refs : Resolutions} {r : Record}

theorem record_eq_ok (recorded : i.record c fields refs = .ok r) :
    ∃ published, c.publish.foldlM (Published.add fields refs) {} = .ok published ∧
      r = {
        kind := i.kind
        ns := i.ns.text
        name := i.name.text
        outputs := byKey (published.outputs.mapValues Value.sortKeys)
        connection := ⟨connectionSecretName i.name.text, byKey published.connection⟩
        resources := Sorting.texts c.templateNames } := by
  simp only [record, Result.bind_eq_ok, Except.ok.injEq] at recorded
  obtain ⟨published, folded, outputs, sorted, rfl⟩ := recorded
  unfold sortedOutputs at sorted
  split at sorted
  · cases sorted
    exact ⟨published, folded, rfl⟩
  · cases sorted

theorem record_kind (recorded : i.record c fields refs = .ok r) : r.kind = i.kind := by
  obtain ⟨_, -, rfl⟩ := record_eq_ok recorded
  rfl

/-- The outputs of a record are the values that its composition's publications give, each with its
keys in order. -/
theorem find?_outputs (valid : c.Valid) (recorded : i.record c fields refs = .ok r) (key : String)
    (v : Value) : r.outputs.find? key = some v ↔
      ∃ p ∈ c.publish, p.key.text = key ∧ ∃ u, p.Gives fields refs u ∧ v = u.sortKeys := by
  obtain ⟨published, folded, rfl⟩ := record_eq_ok recorded
  have found := Published.find?_foldlM folded valid.distinct (fun _ _ => rfl) key
  simp only [find?_byKey, Table.find?_mapValues, Option.map_eq_some_iff]
  constructor
  · rintro ⟨u, holds, rfl⟩
    obtain ⟨p, member, own, gives⟩ := ((found u).mp holds).resolve_left (by simp [Table.find?])
    exact ⟨p, member, own, u, gives, rfl⟩
  · rintro ⟨p, member, own, u, gives, rfl⟩
    exact ⟨u, (found u).mpr (.inr ⟨p, member, own, gives⟩), rfl⟩

theorem mem_resources (recorded : i.record c fields refs = .ok r) (name : String) :
    name ∈ r.resources ↔ ∃ t ∈ c.resources, t.name.text = name := by
  obtain ⟨_, -, rfl⟩ := record_eq_ok recorded
  simp only [mem_texts_iff, Composition.templateNames, List.mem_map]

theorem resources_ne_nil (valid : c.Valid) (recorded : i.record c fields refs = .ok r) :
    r.resources ≠ [] := by
  obtain ⟨t, member⟩ := List.exists_mem_of_ne_nil _ valid.templates
  exact List.ne_nil_of_mem ((mem_resources recorded t.name.text).mpr ⟨t, member, rfl⟩)

end Instance

namespace Record
variable (r : Record) (manager : String)

def manifestMetadata : Value :=
  .map [
    ("name", .str r.connection.name),
    ("namespace", .str r.ns),
    ("labels", .map [(managedByLabel, .str manager), (instanceLabel, .str r.name)])]

/-- The entries of the secret of the connection before they are put in order. -/
def manifestEntries : List (Key × Value) := [
  ("apiVersion", .str "v1"),
  ("kind", .str "Secret"),
  ("type", .str "Opaque"),
  ("metadata", r.manifestMetadata manager),
  ("stringData", .ofLabels r.connection.data)]

theorem manifest_lookup (key : String) :
    (r.connectionManifest manager).lookup (.str key) =
      ((Value.map (r.manifestEntries manager)).lookup (.str key)).sortKeys :=
  Value.lookup_sortKeys _ key

theorem manifest_kind : (r.connectionManifest manager).lookup "kind" = .str "Secret" :=
  r.manifest_lookup manager "kind"

theorem manifest_metadata (key : String) :
    ((r.connectionManifest manager).lookup "metadata").lookup (.str key) =
      ((r.manifestMetadata manager).lookup (.str key)).sortKeys := by
  rw [r.manifest_lookup manager "metadata"]
  exact Value.lookup_sortKeys (r.manifestMetadata manager) key

theorem manifest_name :
    ((r.connectionManifest manager).lookup "metadata").lookup "name" = .str r.connection.name :=
  r.manifest_metadata manager "name"

theorem manifest_namespace :
    ((r.connectionManifest manager).lookup "metadata").lookup "namespace" = .str r.ns :=
  r.manifest_metadata manager "namespace"

/-- The secret of the connection holds a text under each key of the connection and no other. -/
theorem manifest_stringData (key : String) :
    (∃ text, ((r.connectionManifest manager).lookup "stringData").lookup (.str key) = .str text) ↔
      key ∈ r.connection.data.keys := by
  have data : (Value.map (r.manifestEntries manager)).lookup "stringData" =
    .ofLabels r.connection.data := rfl
  rw [r.manifest_lookup manager "stringData", data, Value.lookup_sortKeys, Value.lookup,
    Value.find?_ofLabels, Table.mem_keys_iff]
  cases r.connection.data.find? key with
  | none => simp [Value.sortKeys]
  | some text => simp [Value.sortKeys]

end Record

namespace Instance
variable {i : Instance} {manager : String} {fields : Assignment} {refs : Resolutions} {t : Template}
  {v : Value}

/-- Where the metadata of a finished resource have no labels, annotations or owners, they have the
name and the namespace over what was there before. -/
theorem exists_named (made : i.resource manager fields refs t = .ok v) :
    ∃ own, ∀ key : String, key ≠ "labels" → key ≠ "annotations" → key ≠ "ownerReferences" →
      (v.lookup "metadata").lookup (.str key) = ((Value.map (Table.putAll own
        [("name", .str (i.resourceName t)), ("namespace", .str i.ns.text)])).lookup
          (.str key)).sortKeys := by
  simp only [resource, Result.bind_eq_ok, Value.sorted?_eq_ok] at made
  obtain ⟨filled, -, metadata, ofMetadata, -, rfl⟩ := made
  simp only [Instance.metadata, Result.bind_eq_ok, Except.ok.injEq] at ofMetadata
  obtain ⟨_, -, labels, -, annotations, -, rfl⟩ := ofMetadata
  refine ⟨(filled.lookup "metadata").entries, fun key noLabels noAnnotations noOwners => ?_⟩
  rw [Value.lookup_sortKeys, Value.lookup_map, Table.find?_put_self, Option.getD_some,
    Value.lookup_sortKeys]
  simp only [Value.lookup_map, Table.putAll, List.foldl_cons, List.foldl_nil]
  rw [Table.find?_put_of_ne _ _ (by simpa using noOwners),
    Table.find?_put_of_ne _ _ (by simpa using noAnnotations),
    Table.find?_put_of_ne _ _ (by simpa using noLabels)]

/-- Every finished resource carries the name that belongs to its template. -/
theorem resource_name (made : i.resource manager fields refs t = .ok v) :
    (v.lookup "metadata").lookup "name" = .str (i.resourceName t) := by
  obtain ⟨own, named⟩ := exists_named made
  rw [named "name" (by decide) (by decide) (by decide), Value.lookup_map]
  simp only [Table.putAll, List.foldl_cons, List.foldl_nil]
  rw [Table.find?_put_of_ne _ _ (by decide), Table.find?_put_self]
  rfl

/-- Every finished resource lies in the namespace of its instance. -/
theorem resource_namespace (made : i.resource manager fields refs t = .ok v) :
    (v.lookup "metadata").lookup "namespace" = .str i.ns.text := by
  obtain ⟨own, named⟩ := exists_named made
  rw [named "namespace" (by decide) (by decide) (by decide), Value.lookup_map]
  simp only [Table.putAll, List.foldl_cons, List.foldl_nil]
  rw [Table.find?_put_self]
  rfl

end Instance
end WorkloadConfig
