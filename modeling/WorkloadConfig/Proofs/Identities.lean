import Mathlib.Data.List.Nodup
import WorkloadConfig.Proofs.Justified
import WorkloadConfig.Proofs.Order.Values

namespace WorkloadConfig

/-- What tells the resources of a cluster apart. -/
structure Identity where
  apiVersion : Value
  kind : Value
  ns : Value
  name : Value
deriving DecidableEq

def Value.identity (v : Value) : Identity where
  apiVersion := v.lookup "apiVersion"
  kind := v.lookup "kind"
  ns := (v.lookup "metadata").lookup "namespace"
  name := (v.lookup "metadata").lookup "name"

namespace Composition
variable {c : Composition}

theorem repeatedNames_eq_nil {names : List String} : repeatedNames names = [] ↔ names.Nodup := by
  have sifted : repeatedNames names = [] ↔ ∀ name ∈ names, names.count name ≤ 1 := by
    simp only [repeatedNames, List.eq_nil_iff_forall_not_mem, mem_texts_iff, List.mem_eraseDups,
      List.mem_filter, decide_eq_true_eq, not_and, gt_iff_lt, Nat.not_lt]
  rw [sifted, List.nodup_iff_count_le_one]
  refine ⟨fun within name => ?_, fun all name _ => all name⟩
  by_cases member : name ∈ names
  · exact within name member
  · simp [List.count_eq_zero_of_not_mem member]

/-- No two templates of a valid composition have one name. -/
theorem Valid.nodup_templateNames (valid : c.Valid) : c.templateNames.Nodup :=
  repeatedNames_eq_nil.mp (check_eq_ok.mp valid.checked).1

end Composition

/-- The name of the template whose resource has the name of the connection's secret. -/
def Template.secretName : String := "conn"

theorem connectionSecretName_eq (name : String) :
    connectionSecretName name = name ++ "-" ++ Template.secretName := by
  rw [connectionSecretName, Template.secretName, String.append_assoc]
  rfl

theorem Record.manifest_apiVersion (r : Record) (manager : String) :
    (r.connectionManifest manager).lookup "apiVersion" = .str "v1" :=
  r.manifest_lookup manager "apiVersion"

namespace Engine.Does
variable {σ : Type} [TargetLookup σ] {e : Engine} {around : Surroundings} {i : Instance} {s : σ}
  {work : Work}

theorem record_connection (does : e.Does around i s work) :
    work.record.connection.name = connectionSecretName i.name.text := by
  obtain ⟨_, -, same⟩ := Instance.record_eq_ok does.recorded
  rw [same]

theorem identity_secret (does : e.Does around i s work) (manager : String) :
    (work.record.connectionManifest manager).identity = ⟨.str "v1", .str "Secret",
      .str i.ns.text, .str (i.name.text ++ "-" ++ Template.secretName)⟩ := by
  unfold Value.identity
  rw [Record.manifest_apiVersion, Record.manifest_kind, Record.manifest_namespace,
    Record.manifest_name, (Instance.record_address does.recorded).1, does.record_connection,
    connectionSecretName_eq]

/-- The pass was made by the composition that is registered for the kind of its instance. -/
theorem composition (does : e.Does around i s work) {c : Composition}
    (registered : e.registry.get i.kind = .ok c) : work.plan.composition = c := by
  obtain ⟨⟨c', config⟩, loaded, plan⟩ := Result.bind_eq_ok.mp does.planned
  obtain ⟨_, atKind, rest⟩ := Result.bind_eq_ok.mp loaded
  obtain ⟨config', -, same⟩ := Result.bind_eq_ok.mp rest
  cases same
  cases Except.ok.inj (atKind.symm.trans registered)
  exact plan_composition plan

theorem made_of_mem (does : e.Does around i s work) {t : Template} {v : Value}
    (paired : (t, v) ∈ work.plan.composition.resources.zip work.generated) :
    i.resource e.settings.fieldManager work.plan.fields work.refs t = .ok v :=
  (List.forall₂_iff_zip.mp does.generated).2 paired

/-- Each of the generated resources was made by a template. -/
theorem exists_template (does : e.Does around i s work) {v : Value} (member : v ∈ work.generated) :
    ∃ t, (t, v) ∈ work.plan.composition.resources.zip work.generated := by
  have lengths := does.generated.length_eq
  rw [← List.map_snd_zip (Nat.le_of_eq lengths.symm), List.mem_map] at member
  obtain ⟨⟨t, _⟩, paired, rfl⟩ := member
  exact ⟨t, paired⟩

/-- The secret at the end was made by no template. -/
theorem zip_resources (does : e.Does around i s work) (manager : String) :
    work.plan.composition.resources.zip (work.resources manager) =
      work.plan.composition.resources.zip work.generated := by
  have extended : (work.plan.composition.resources ++ []).zip (work.resources manager) =
      work.plan.composition.resources.zip work.generated ++ [] :=
    List.zip_append does.generated.length_eq
  rwa [List.append_nil, List.append_nil] at extended

/-- The names of the resources that the templates made, in their order. -/
theorem names_generated (does : e.Does around i s work) :
    work.generated.map (·.identity.name) = work.plan.composition.templateNames.map
      fun template => Value.str (i.name.text ++ "-" ++ template) := by
  rw [Composition.templateNames, List.map_map]
  refine (map_eq_of_forall₂ (does.generated.imp fun t v made => ?_)).symm
  exact (Instance.resource_name made).symm

/-- What the templates of a valid composition made can be told apart by name. -/
theorem nodup_generated (does : e.Does around i s work) (valid : work.plan.composition.Valid) :
    (work.generated.map Value.identity).Nodup := by
  refine .of_map Identity.name ?_
  rw [List.map_map]
  refine does.names_generated ▸ valid.nodup_templateNames.map fun a b same => ?_
  simpa using same

/-- Only a template of the name that is kept for it makes what is taken for the secret. -/
theorem identity_eq_secret_iff (does : e.Does around i s work) (manager : String) {t : Template}
    {v : Value} (paired : (t, v) ∈ work.plan.composition.resources.zip work.generated) :
    v.identity = (work.record.connectionManifest manager).identity ↔
      t.name.text = Template.secretName ∧ v.lookup "apiVersion" = .str "v1" ∧
        v.lookup "kind" = .str "Secret" := by
  have made := does.made_of_mem paired
  rw [does.identity_secret, Value.identity, Instance.resource_name made,
    Instance.resource_namespace made, Instance.resourceName]
  simp only [Identity.mk.injEq, true_and, Value.scalar.injEq, Scalar.str.injEq,
    String.append_right_inj]
  exact ⟨fun ⟨api, kind, name⟩ => ⟨name, api, kind⟩, fun ⟨name, api, kind⟩ => ⟨api, kind, name⟩⟩

end Engine.Does

/-- The resources of a completed pass can be told apart if and only if no template of the name that
the connection's secret has makes a secret as well: the names of templates are checked against each
other, but not against that one. -/
theorem Engine.nodup_identities_iff {σ : Type} [OutputStore σ] {e : Engine} {around : Surroundings}
    {i : Instance} {s : σ} {c : Composition} {o : Outcome}
    (registered : e.registry.get i.kind = .ok c) (valid : c.Valid)
    (ends : (e.pass around i s).1 = .ok o) (success : o.success = true) :
    (o.resources.map Value.identity).Nodup ↔
      ∀ made ∈ c.resources.zip o.resources, made.1.name.text = "conn" →
        made.2.lookup "apiVersion" = .str "v1" → made.2.lookup "kind" ≠ .str "Secret" := by
  obtain ⟨work, does, complete⟩ := exists_does ends success
  cases does.composition registered
  rw [complete.resources, does.zip_resources, Work.resources, List.map_append, List.nodup_append]
  simp only [does.nodup_generated valid, List.map_cons, List.map_nil, List.nodup_singleton, true_and,
    List.mem_singleton, forall_eq, List.forall_mem_map]
  constructor
  · rintro apart ⟨t, v⟩ paired named api kind
    exact apart v (List.of_mem_zip paired).2
      ((does.identity_eq_secret_iff _ paired).mpr ⟨named, api, kind⟩)
  · intro apart v member same
    obtain ⟨t, paired⟩ := does.exists_template member
    obtain ⟨named, api, kind⟩ := (does.identity_eq_secret_iff _ paired).mp same
    exact apart (t, v) paired named api kind

/-- A composition of templates of the names and kinds, without fields. -/
def Composition.ofTemplates (templates : List (Label × String)) : Composition where
  kind := "App"
  resources := templates.map fun (name, kind) => { name, kind }

theorem Result.exists_ok_of_any {α : Type} {x : Result α} {p : α → Bool}
    (holds : x.toOption.any p = true) : ∃ a, x = .ok a ∧ p a = true := by
  cases x with
  | error failure => cases holds
  | ok a => exact ⟨a, rfl, holds⟩

namespace Turn

/-- A pass of an instance of a composition of templates, in a cluster that sets no values. -/
def ofTemplates (name : DnsLabel) (templates : List (Label × String)) : Turn where
  engine := { registry := [("App", .ofTemplates templates)] }
  source := (ofField name "").source
  inst := { kind := "App", name, ns := .team }

/-- A template of the secret's name that makes something else, beside a secret of another name. -/
theorem nodup_identities_ofTemplates :
    let templates := [(⟨"conn", by decide⟩, "ConfigMap"), (⟨"main", by decide⟩, "Secret")]
    let t := ofTemplates ⟨"web", by decide, by decide⟩ templates
    t.engine.registry.get t.inst.kind = .ok (.ofTemplates templates) ∧
      (Composition.ofTemplates templates).Valid ∧ ∃ o, (t.pass {}).1 = .ok o ∧ o.success = true ∧
        (o.resources.map Value.identity).Nodup := by
  intro templates t
  have valid : (Composition.ofTemplates templates).Valid := ⟨rfl, List.cons_ne_nil _ _⟩
  obtain ⟨o, ends, holds⟩ : ∃ o, (t.pass {}).1 = .ok o ∧ (o.success && decide (∀ made ∈
      (Composition.ofTemplates templates).resources.zip o.resources, made.1.name.text = "conn" →
        made.2.lookup "apiVersion" = .str "v1" → made.2.lookup "kind" ≠ .str "Secret")) = true :=
    Result.exists_ok_of_any (by decide +kernel)
  obtain ⟨success, apart⟩ := Bool.and_eq_true_iff.mp holds
  exact ⟨rfl, valid, o, ends, success,
    (Engine.nodup_identities_iff rfl valid ends success).mpr (of_decide_eq_true apart)⟩

/-- The name of the connection's secret is not kept from the templates. -/
theorem not_nodup_identities :
    let templates := [(⟨"conn", by decide⟩, "Secret")]
    let t := ofTemplates ⟨"web", by decide, by decide⟩ templates
    t.engine.registry.get t.inst.kind = .ok (.ofTemplates templates) ∧
      (Composition.ofTemplates templates).Valid ∧ ∃ o, (t.pass {}).1 = .ok o ∧ o.success = true ∧
        ¬ (o.resources.map Value.identity).Nodup := by
  intro templates t
  obtain ⟨o, ends, holds⟩ : ∃ o, (t.pass {}).1 = .ok o ∧
      (o.success && decide (¬ (o.resources.map Value.identity).Nodup)) = true :=
    Result.exists_ok_of_any (by decide +kernel)
  obtain ⟨success, repeated⟩ := Bool.and_eq_true_iff.mp holds
  exact ⟨rfl, ⟨rfl, List.cons_ne_nil _ _⟩, o, ends, success, of_decide_eq_true repeated⟩

end Turn
end WorkloadConfig
