import WorkloadConfig.Deployment
import WorkloadConfig.Proofs.Consistency
import WorkloadConfig.Proofs.Sharing

namespace WorkloadConfig

open Linked (value)

theorem Table.mapValues_ofList {κ α β : Type} [DecidableEq κ] (entries : List (κ × α)) (f : α → β) :
    mapValues (ofList entries) f = ofList (mapValues entries f) := by
  suffices all : ∀ t : Table κ α,
      mapValues (putAll t entries) f = putAll (mapValues t f) (mapValues entries f) from all []
  induction entries with
  | nil => exact fun t => rfl
  | cons entry rest ih =>
    intro t
    rw [putAll, List.foldl_cons]
    exact (ih _).trans (by rw [mapValues_put]; rfl)

theorem Linked.member?_value (v : Linked) (name : String) :
    Schema.member? v.value.entries name = (Schema.member? v.entries name).map value := by
  cases v with
  | scalar _ | list _ => rfl
  | map id entries =>
    rw [value, Value.entries, valueEntries_eq, Schema.member?, Schema.member?, Linked.entries,
      ← Table.find?_mapValues, Table.mapValues, Table.mapValues, List.map_reverse]

/-- What is read as a table of any values is the table of the entries, whichever maps are the same. -/
theorem Schema.table_anything {v : Linked} {t : Table String Value}
    (accepted : table .given (anything .given) v.value = .valid t) :
    t = (Blueprint.tableOf v).mapValues value := by
  cases v with
  | scalar _ | list _ => cases accepted
  | map id entries =>
    obtain ⟨results, all, rfl⟩ := Checked.map_eq_valid.mp accepted
    rw [Linked.valueEntries_eq, Table.mapValues] at all
    have read := List.forall₂_map_left_iff.mp (Schema.all_eq_valid.mp all)
    rw [Blueprint.tableOf, Linked.entries, Table.mapValues_ofList]
    congr 1
    clear all accepted
    induction read with
    | nil => rfl
    | @cons entry result _ _ first _ ih =>
      obtain ⟨key, v⟩ := entry
      obtain ⟨k, a⟩ := result
      obtain ⟨rfl, same⟩ := Schema.entry_eq_valid.mp first
      cases same
      exact congrArg (_ :: ·) ih

theorem Template.base_of_read {part : Linked} {t : Template}
    (accepted : Template.read part.value = .valid t) :
    t.base = (Blueprint.baseOf part).mapValues value := by
  cases part with
  | scalar _ | list _ => cases accepted
  | map id entries =>
    obtain ⟨-, all⟩ := Checked.also_eq_valid.mp accepted
    obtain ⟨_, _, four, -, rfl⟩ := Checked.seq_eq_valid.mp all
    obtain ⟨_, base, three, ofBase, rfl⟩ := Checked.seq_eq_valid.mp four
    obtain ⟨_, _, two, -, rfl⟩ := Checked.seq_eq_valid.mp three
    obtain ⟨_, _, one, -, rfl⟩ := Checked.seq_eq_valid.mp two
    obtain ⟨_, -, rfl⟩ := Checked.map_eq_valid.mp one
    have found := (Linked.map id entries).member?_value "base"
    rw [Linked.value, Value.entries] at found
    rw [Schema.fieldOr, found] at ofBase
    rw [Blueprint.baseOf]
    cases there : Schema.member? (Linked.map id entries).entries "base" with
    | none =>
      rw [there] at ofBase
      cases ofBase
      rfl
    | some base =>
      rw [there] at ofBase
      exact Schema.table_anything (Checked.under_eq_valid.mp ofBase)

theorem Template.bases_of_list {parts : Linked} {templates : List Template}
    (accepted : Schema.list .given Template.read parts.value = .valid templates) :
    ∃ items, parts = .list items ∧ List.Forall₂ (fun t base => t.base = Table.mapValues base value)
      templates (items.map Blueprint.baseOf) := by
  cases parts with
  | scalar _ | map _ _ => cases accepted
  | list items =>
    refine ⟨items, rfl, ?_⟩
    rw [Linked.value, Linked.valueItems_eq, Schema.list_eq_valid, List.forall₂_map_left_iff] at accepted
    rw [List.forall₂_map_right_iff]
    exact accepted.flip.imp fun t part read => base_of_read read

/-- The skeletons in a document are those of the templates that are read in it. -/
theorem Composition.bases_of_parts {document : Linked} {c : Composition}
    (accepted : Composition.parts document.value = .valid c) :
    List.Forall₂ (fun t base => t.base = Table.mapValues base value) c.resources
      (Design.basesOf document) := by
  cases document with
  | scalar _ | list _ => cases accepted
  | map id entries =>
    obtain ⟨-, all⟩ := Checked.also_eq_valid.mp accepted
    obtain ⟨_, _, three, -, rfl⟩ := Checked.seq_eq_valid.mp all
    obtain ⟨_, templates, two, ofTemplates, rfl⟩ := Checked.seq_eq_valid.mp three
    obtain ⟨_, _, one, -, rfl⟩ := Checked.seq_eq_valid.mp two
    obtain ⟨_, -, rfl⟩ := Checked.map_eq_valid.mp one
    have found := (Linked.map id entries).member?_value "resources"
    rw [Linked.value, Value.entries] at found
    rw [Schema.field, found] at ofTemplates
    rw [Design.basesOf]
    cases there : Schema.member? (Linked.map id entries).entries "resources" with
    | none =>
      rw [there] at ofTemplates
      cases ofTemplates
    | some resources =>
      rw [there] at ofTemplates
      obtain ⟨found, ofList, next⟩ :=
        Checked.andThen_eq_valid.mp (Checked.under_eq_valid.mp ofTemplates)
      split at next
      · cases next
      · cases next
        obtain ⟨items, rfl, bases⟩ := Template.bases_of_list ofList
        exact bases

theorem templates_of_bases {templates : List Template} {bases : List (Table String Linked)}
    (same : List.Forall₂ (fun t base => t.base = Table.mapValues base value) templates bases) :
    (List.zipWith Blueprint.ofTemplate templates bases).map Blueprint.template = templates := by
  induction same with
  | nil => rfl
  | @cons t base _ _ first _ ih =>
    have here : (Blueprint.ofTemplate t base).template = t := by
      simp only [Blueprint.ofTemplate, Blueprint.template, ← first]
    simp only [List.zipWith_cons_cons, List.map_cons, here, ih]

/-- A document is the design of the composition that is read in it. -/
theorem Design.composition_ofDocument (document : Linked) :
    Design.composition <$> Design.ofDocument document = Composition.ofValue document.value := by
  unfold ofDocument
  cases read : Composition.ofValue document.value with
  | error report => rfl
  | ok c =>
    have same := templates_of_bases (Composition.bases_of_parts (Composition.ofValue_eq_ok.mp read).1)
    exact congrArg (fun resources => Except.ok { c with resources }) same

/-- Passes that make the same resources of the composition of the instance's kind are the same. -/
theorem Engine.passBy_congr {σ : Type} [OutputStore σ] {e : Engine} {i : Instance}
    {make make' : Maker}
    (same : ∀ c, e.registry.get i.kind = .ok c → ∀ r, make c r = make' c r)
    (around : Surroundings) (s : σ) : e.passBy make around i s = e.passBy make' around i s := by
  have stages : e.stagesBy make around i = (e.stagesBy make' around i : PassM σ _) := by
    unfold stagesBy load
    cases registered : e.registry.get i.kind with
    | error failure => rfl
    | ok c =>
      have lifted : (liftM (.ok c : Result Composition) : PassM σ Composition) = pure c := rfl
      simp only [lifted, pure_bind, bind_assoc, same c registered]
  rw [passBy, passBy, stages]

/-- As long as no skeleton holds a map at two places, a deployment passes as its engine does. -/
theorem Deployment.pass_eq {σ : Type} [OutputStore σ] {d : Deployment}
    (unshared : ∀ design ∈ d.designs, design.2.IsUnshared) (around : Surroundings) (i : Instance)
    (s : σ) : d.pass around i s = d.engine.pass around i s := by
  refine Engine.passBy_congr (fun c registered r => ?_) around s
  rw [maker]
  cases found : d.designs.find? i.kind with
  | none => rfl
  | some design =>
    have atKind : d.engine.registry.find? i.kind = some design.composition := by
      rw [engine, Designs.registry, Table.find?_mapValues, found, Option.map_some]
    rw [Registry.get, atKind, Except.ok.injEq] at registered
    subst registered
    have own : ∀ field ∈ r.fields.mapValues Linked.plain, field.2.IsUnshared := by
      intro field member
      obtain ⟨_, -, rfl⟩ := List.mem_map.mp member
      exact Linked.isUnshared_plain _
    have values : (r.fields.mapValues Linked.plain).mapValues Linked.value = r.fields := by
      rw [Table.mapValues, Table.mapValues, List.map_map]
      refine (List.map_congr_left fun field _ => ?_).trans (List.map_id _)
      exact Prod.ext rfl (Linked.value_plain field.2)
    exact (i.resourcesOf_eq _ r.refs (unshared _ (Table.mem_of_find? found)) own).trans
      (by rw [values]; rfl)

end WorkloadConfig
